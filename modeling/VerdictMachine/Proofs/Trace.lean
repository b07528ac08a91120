import VerdictMachine.Proofs.Metering

/-!
# What a record says about the course of a run

A record can be read without the machine that wrote it. Each start follows from
the one before it and from what lies between: a transfer says where execution
went on, a library call or a return from one says in which program, and where
there is neither it went on behind the instruction. Returns from libraries close
the calls in the reverse order of their opening.

`Tells` reads a record from front to back and asks of every event that what came
before accounts for it.
-/

set_option autoImplicit false

namespace VerdictMachine

def Start.event (s : Start) : Event := .started s.program s.pc s.op

namespace Event

/-- Source and target of a transfer. -/
def jump? : Event → Option (UInt16 × UInt16)
  | .transferred source target _ => some (source, target)
  | _ => none

/-- The program that a library call leads into, or the return from one. -/
def entered? : Event → Option ProgramId
  | .libraryCalled library _ => some library
  | .libraryReturned caller _ => some caller
  | _ => none

def isHalt : Event → Bool
  | .halted .. => true
  | _ => false

end Event

/-- Who made the call that a frame returns from, and where it returns to, if it leaves a library. -/
def Frame.call? : Frame → Option (ProgramId × UInt16)
  | .plain _ => none
  | .library caller ret => some (caller, ret)

namespace Trace

variable {l : Library} {es fs : List Event} {caller : ProgramId} {ret : UInt16}
  {calls : List (ProgramId × UInt16)}

/-- Execution comes from a start to an offset of a program with these events on the way. -/
structure Follows (l : Library) (s : Start) (between : List Event) (program : ProgramId)
    (pc : UInt16) : Prop where
  counter : between.filterMap Event.jump? = [(s.pc, pc)] ∨
    between.filterMap Event.jump? = [] ∧ program = s.program ∧
      ∃ i, l.instruction? s = some i ∧ pc.toNat = s.pc.toNat + i.encode.length
  program : between.filterMap Event.entered? = [program] ∨
    between.filterMap Event.entered? = [] ∧ program = s.program

/-- Events in which every library that is called is also left, and no other. -/
inductive Matched : List Event → Prop
  | nil : Matched []
  | skip {e : Event} {es : List Event} (he : e.entered? = none) (h : Matched es) :
      Matched (e :: es)
  | call {library caller : ProgramId} {entry ret : UInt16} {inner es : List Event}
      (hi : Matched inner) (h : Matched es) :
      Matched (.libraryCalled library entry :: inner ++ .libraryReturned caller ret :: es)

/-- The library call last opened and not yet closed was made by this program, and the offset is
the one behind the call. -/
def Answers (l : Library) (before : List Event) (caller : ProgramId) (ret : UInt16) : Prop :=
  ∃ earlier s library entry inner,
    before = earlier ++ s.event :: .libraryCalled library entry :: inner ∧ Matched inner ∧
      caller = s.program ∧ l.instruction? s = some (.callLib library entry) ∧
      ret.toNat = s.pc.toNat + (Instruction.callLib library entry).encode.length

/-- The library calls that are open after some events, the last one first. -/
inductive Pending (l : Library) : List Event → List (ProgramId × UInt16) → Prop
  | none {es : List Event} (h : Matched es) : Pending l es []
  | call {es inner : List Event} {s : Start} {library : ProgramId} {entry ret : UInt16}
      {calls : List (ProgramId × UInt16)} (h : Pending l es calls)
      (hs : l.instruction? s = some (.callLib library entry))
      (hr : ret.toNat = s.pc.toNat + (Instruction.callLib library entry).encode.length)
      (hi : Matched inner) :
      Pending l (es ++ s.event :: .libraryCalled library entry :: inner)
        ((s.program, ret) :: calls)

/-- What came before accounts for an event. -/
def Justified (l : Library) (before : List Event) : Event → Prop
  | .started program pc _ =>
    ∀ earlier s between, before = earlier ++ s.event :: between →
      between.filterMap Event.start? = [] → Follows l s between program pc
  | .libraryReturned caller ret => Answers l before caller ret
  | _ => True

/-- Each of the events is accounted for, given the ones before all of them. -/
def Tells (l : Library) : List Event → List Event → Prop
  | _, [] => True
  | before, e :: es => Justified l before e ∧ Tells l (before ++ [e]) es

theorem tells_append (before es fs : List Event) :
    Tells l before (es ++ fs) ↔ Tells l before es ∧ Tells l (before ++ es) fs := by
  induction es generalizing before with
  | nil => simp [Tells]
  | cons e es ih => simp [Tells, ih, and_assoc]

theorem Tells.justified {before after : List Event} {e : Event}
    (h : Tells l [] (before ++ e :: after)) : Justified l before e :=
  ((tells_append [] before (e :: after)).mp h).2.1

theorem start_eq_of_append {b b' c : List Event} {s s' : Start}
    (hb : b.filterMap Event.start? = []) (h : s.event :: b = c ++ s'.event :: b') :
    s = s' ∧ b = b' := by
  cases c with
  | nil =>
    obtain ⟨hs, hbs⟩ := List.cons.inj h
    exact ⟨Option.some.inj (congrArg Event.start? hs), hbs⟩
  | cons e c =>
    -- A second start would lie among the events behind the first.
    rw [(List.cons.inj h).2] at hb
    simp [Start.event, Event.start?] at hb

theorem last_start_unique {b b' : List Event} {s s' : Start}
    (hb : b.filterMap Event.start? = []) (hb' : b'.filterMap Event.start? = [])
    (h : es ++ s.event :: b = fs ++ s'.event :: b') : s = s' ∧ b = b' := by
  rcases List.append_eq_append_iff.mp h with ⟨c, -, hc⟩ | ⟨c, -, hc⟩
  · exact start_eq_of_append hb hc
  · obtain ⟨rfl, rfl⟩ := start_eq_of_append hb' hc
    exact ⟨rfl, rfl⟩

theorem Follows.justified {s : Start} {between : List Event} {program : ProgramId} {pc : UInt16}
    (h : Follows l s between program pc) (hb : between.filterMap Event.start? = [])
    (es : List Event) (op : Opcode) :
    Justified l (es ++ s.event :: between) (.started program pc op) := by
  intro earlier s' between' he hb'
  obtain ⟨rfl, rfl⟩ := last_start_unique hb hb' he
  exact h

/-- Reports of failures and nothing else. They have no bearing on where execution goes. -/
def Failures (es : List Event) : Prop := ∀ e ∈ es, ∃ pc count, e = .failureRaised pc count

theorem failures_nil : Failures [] := by
  intro e he
  cases he

theorem Failures.filterMap_eq_nil {α : Type} {f : Event → Option α} (h : Failures es)
    (hf : ∀ pc count, f (.failureRaised pc count) = none) : es.filterMap f = [] := by
  rw [List.filterMap_eq_nil_iff]
  intro e he
  obtain ⟨pc, count, rfl⟩ := h e he
  exact hf pc count

theorem Failures.tells (h : Failures es) (before : List Event) : Tells l before es := by
  induction es generalizing before with
  | nil => trivial
  | cons e es ih =>
    obtain ⟨pc, count, rfl⟩ := h e List.mem_cons_self
    exact ⟨trivial, ih (fun e' he' => h e' (List.mem_cons_of_mem _ he')) _⟩

theorem matched_of_entered (h : es.filterMap Event.entered? = []) : Matched es := by
  induction es with
  | nil => exact .nil
  | cons e es ih =>
    rw [List.filterMap_eq_nil_iff] at h
    refine .skip (h e List.mem_cons_self) (ih ?_)
    rw [List.filterMap_eq_nil_iff]
    exact fun e' he' => h e' (List.mem_cons_of_mem e he')

theorem Matched.append (h : Matched es) (h' : Matched fs) : Matched (es ++ fs) := by
  induction h with
  | nil => exact h'
  | skip he _ ih => exact .skip he ih
  | call hi _ _ ih =>
    rw [List.append_assoc]
    exact .call hi ih

namespace Pending

theorem append (h : Pending l es calls) (hf : Matched fs) : Pending l (es ++ fs) calls := by
  cases h with
  | none he => exact .none (he.append hf)
  | call h hs hr hi =>
    rw [List.append_assoc]
    exact .call h hs hr (hi.append hf)

theorem answers (h : Pending l es ((caller, ret) :: calls)) : Answers l es caller ret := by
  cases h with
  | call h hs hr hi => exact ⟨_, _, _, _, _, rfl, hi, rfl, hs, hr⟩

theorem close (h : Pending l es ((caller, ret) :: calls)) (hf : Matched fs) :
    Pending l (es ++ .libraryReturned caller ret :: fs) calls := by
  cases h with
  | call h hs hr hi =>
    -- From the start of the call on, the events are matched now and join the earlier ones.
    rw [List.append_assoc]
    exact h.append (.skip rfl (.call hi hf))

end Pending

end Trace

end VerdictMachine

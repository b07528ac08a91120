import VerdictMachine.Machine.Basic
import VerdictMachine.Proofs.Frames
import VerdictMachine.Proofs.Sweep

/-!
# The course of a machine

Of all that a machine holds, its course decides where it goes: the program and
its counter, the libraries known, the call stack and the transfers spent. A
move is what one retired instruction does to the course. A sound course stands
at an instruction or behind the last one, and so does every return from it:
popping the frames leads back through the programs that pushed them.
-/

set_option autoImplicit false

namespace VerdictMachine

def Program.Loaded (p : Program) : Prop :=
  ∃ code constants, Program.load code constants = .ok p

theorem Program.Loaded.valid {p : Program} (h : p.Loaded) : p.Valid := by
  obtain ⟨code, constants, h⟩ := h
  exact Program.valid_of_load h

/-- A host that hands out loaded programs only. -/
def Resolver.Genuine (host : Resolver) : Prop := ∀ id p, host id = some p → p.Loaded

theorem Resolver.genuine_none : Resolver.none.Genuine := by
  intro id p h
  cases h

/-- A host that knows one program. -/
def Resolver.single (p : Program) : Resolver := fun id => if p.id = id then some p else Option.none

theorem Resolver.genuine_single {p : Program} (h : p.Loaded) : (single p).Genuine := by
  intro id q hq
  unfold single at hq
  split_ifs at hq
  obtain rfl := Option.some.inj hq
  exact h

namespace Library

variable {l : Library} {id other : ProgramId} {p q : Program}

/-- A known library, or else the answer of the host if it is what was asked for. -/
def Supplies (l : Library) (host : Resolver) (id : ProgramId) (p : Program) : Prop :=
  l.find? id = some p ∨ l.find? id = none ∧ host id = some p ∧ p.id = id

theorem find?_insertNew_of_some (h : l.find? other = some q) :
    (l.insertNew id p).find? other = some q := by
  unfold insertNew
  cases hf : l.find? id with
  | some _ => exact h
  | none =>
    have hne : other ≠ id := by
      rintro rfl
      rw [h] at hf
      cases hf
    rw [find?_insert_ne l p hne, h]

theorem Supplies.find?_insertNew {host : Resolver} (h : l.Supplies host id p) :
    (l.insertNew id p).find? id = some p := by
  rcases h with h | ⟨h, -, -⟩
  · exact find?_insertNew_of_some h
  · rw [insertNew, h]
    exact find?_insert_self l id p

theorem of_find?_insertNew (h : (l.insertNew id p).find? other = some q) :
    l.find? other = some q ∨ l.find? id = none ∧ other = id ∧ q = p := by
  unfold insertNew at h
  cases hf : l.find? id with
  | some _ =>
    rw [hf] at h
    exact .inl h
  | none =>
    rw [hf] at h
    by_cases he : other = id
    · subst he
      rw [find?_insert_self] at h
      exact .inr ⟨rfl, rfl, (Option.some.inj h).symm⟩
    · rw [find?_insert_ne l p he] at h
      exact .inl h

end Library

/-- The instructions that push or pop a frame. -/
def Instruction.movesStack : Instruction → Bool
  | .call _ | .callLib .. | .ret => true
  | _ => false

/-- The frame that a call leaves, given the program it is in and the offset behind it. -/
def Instruction.frame? (program : ProgramId) (next : UInt16) : Instruction → Option Frame
  | .call _ => some (.plain next)
  | .callLib .. => some (.library program next)
  | _ => none

structure Course where
  program : Program
  libraries : Library
  pc : UInt16
  stack : CallStack
  cycles : UInt16

def Machine.course (m : Machine) : Course :=
  ⟨m.program, m.libraries, m.pc, m.stack, m.control.cycles⟩

namespace Course

/-- What a retired instruction does to the course. All but the first spend a cycle. -/
inductive Move (host : Resolver) (d : Decoded) (c : Course) : Course → Prop
  | advance (hi : d.instruction.movesStack = false) : Move host d c { c with pc := d.next }
  | jump {guard : Option Condition} {dest : Destination} {t : UInt16}
      (hi : d.instruction = .jump guard dest) (ht : d.localTarget = some t)
      (hc : c.cycles ≠ 65535) : Move host d c { c with pc := t, cycles := c.cycles + 1 }
  | call {t : UInt16} (hi : d.instruction = .call t) (hf : c.stack.fits (.plain d.next) = true)
      (hc : c.cycles ≠ 65535) :
      Move host d c { c with
        pc := t
        stack := c.stack.store (.plain d.next)
        cycles := c.cycles + 1 }
  | enter {id : ProgramId} {entry : UInt16} {p : Program} (hi : d.instruction = .callLib id entry)
      (hp : c.libraries.Supplies host id p) (he : p.isBoundary entry = true)
      (hf : c.stack.fits (.library c.program.id d.next) = true) (hc : c.cycles ≠ 65535) :
      Move host d c
        { program := p
          libraries := c.libraries.insertNew id p
          pc := entry
          stack := c.stack.store (.library c.program.id d.next)
          cycles := c.cycles + 1 }
  | back {ret : UInt16} (hi : d.instruction = .ret) (hf : c.stack.peek = some (.plain ret))
      (hc : c.cycles ≠ 65535) :
      Move host d c { c with
        pc := ret
        stack := c.stack.drop (.plain ret)
        cycles := c.cycles + 1 }
  | leave {caller : ProgramId} {ret : UInt16} {p : Program} (hi : d.instruction = .ret)
      (hf : c.stack.peek = some (.library caller ret)) (hp : c.libraries.find? caller = some p)
      (hc : c.cycles ≠ 65535) :
      Move host d c { c with
        program := p
        pc := ret
        stack := c.stack.drop (.library caller ret)
        cycles := c.cycles + 1 }

/-- Popping the frames, top first, leads from one program to another, and every
return goes to an offset that the sweep of the program returned to comes to. -/
inductive Unwinds (l : Library) : Program → List Frame → Program → Prop
  | nil (p : Program) : Unwinds l p [] p
  | plain {p q : Program} {ret : UInt16} {fs : List Frame} (hr : Program.Swept p.code ret)
      (h : Unwinds l p fs q) : Unwinds l p (.plain ret :: fs) q
  | library {p q caller : Program} {id : ProgramId} {ret : UInt16} {fs : List Frame}
      (hl : l.find? id = some caller) (hr : Program.Swept caller.code ret)
      (h : Unwinds l caller fs q) : Unwinds l p (.library id ret :: fs) q

structure Sound (c : Course) : Prop where
  loaded : c.program.Loaded
  known : c.libraries.find? c.program.id = some c.program
  genuine : ∀ id p, c.libraries.find? id = some p → p.Loaded ∧ p.id = id
  standing : Program.Swept c.program.code c.pc
  unwinds : ∃ fs entry, c.stack.Holds fs ∧ Unwinds c.libraries c.program fs entry

variable {host : Resolver} {d : Decoded} {c c' : Course}

theorem Unwinds.mono {l l' : Library} {p q : Program} {fs : List Frame} (h : Unwinds l p fs q)
    (hl : ∀ id p, l.find? id = some p → l'.find? id = some p) : Unwinds l' p fs q := by
  induction h with
  | nil p => exact .nil p
  | plain hr _ ih => exact .plain hr ih
  | library hf hr _ ih => exact .library (hl _ _ hf) hr ih

theorem Sound.supplied {id : ProgramId} {p : Program} (hs : c.Sound) (hh : host.Genuine)
    (hp : c.libraries.Supplies host id p) : p.Loaded ∧ p.id = id := by
  rcases hp with hp | ⟨-, hp, hid⟩
  · exact hs.genuine id p hp
  · exact ⟨hh id p hp, hid⟩

theorem Sound.decode_cases (hs : c.Sound) :
    (c.program.isBoundary c.pc = true ∧ ∃ d, Instruction.decode c.program.code c.pc = .ok d) ∨
      (c.pc.toNat = c.program.code.size ∧
        Instruction.decode c.program.code c.pc = .error (.endOfCode c.pc)) := by
  have hv := hs.loaded.valid
  by_cases hl : c.pc.toNat < c.program.code.size
  · exact .inl ⟨(hv.isBoundary_iff _).mpr ⟨hs.standing, hl⟩, hv.decodes _ hs.standing hl⟩
  · have he := Nat.le_antisymm hs.standing.le (Nat.le_of_not_lt hl)
    exact .inr ⟨he, Instruction.decode_past_end (Nat.le_of_eq he.symm)⟩

/-- The stack side of a move: nothing, a frame pushed that leads back here, or
the top frame popped and followed. -/
theorem Move.stack_cases (hs : c.Sound) (hd : Instruction.decode c.program.code c.pc = .ok d)
    (h : Move host d c c') :
    (d.instruction.movesStack = false ∧ c'.stack = c.stack ∧ c'.program = c.program ∧
        c'.libraries = c.libraries) ∨
      (∃ f, d.instruction.frame? c.program.id d.next = some f ∧ c.stack.fits f = true ∧
        c'.stack = c.stack.store f ∧
        ∀ fs q, Unwinds c.libraries c.program fs q →
          Unwinds c'.libraries c'.program (f :: fs) q) ∨
      (d.instruction = .ret ∧ ∃ f, c.stack.peek = some f ∧ c'.stack = c.stack.drop f ∧
        c'.pc = f.ret ∧
        ∀ fs q, Unwinds c.libraries c.program (f :: fs) q →
          Unwinds c'.libraries c'.program fs q ∧ Program.Swept c'.program.code c'.pc) := by
  have hn := hs.standing.next hd
  cases h with
  | advance hi => exact .inl ⟨hi, rfl, rfl, rfl⟩
  | jump hi ht hc => exact .inl ⟨by rw [hi]; rfl, rfl, rfl, rfl⟩
  | call hi hf hc =>
    refine .inr (.inl ⟨_, by rw [hi]; rfl, hf, rfl, ?_⟩)
    intro fs q hu
    exact .plain hn hu
  | @enter id entry p hi hp he hf hc =>
    refine .inr (.inl ⟨_, by rw [hi]; rfl, hf, rfl, ?_⟩)
    intro fs q hu
    have hm : ∀ i r, c.libraries.find? i = some r →
        (c.libraries.insertNew id p).find? i = some r :=
      fun _ _ h => Library.find?_insertNew_of_some h
    exact .library (hm _ _ hs.known) hn (hu.mono hm)
  | back hi hf hc =>
    refine .inr (.inr ⟨hi, _, hf, rfl, rfl, ?_⟩)
    intro fs q hu
    cases hu with
    | plain hr hu => exact ⟨hu, hr⟩
  | leave hi hf hp hc =>
    refine .inr (.inr ⟨hi, _, hf, rfl, rfl, ?_⟩)
    intro fs q hu
    cases hu with
    | library hl hr hu =>
      obtain rfl := Option.some.inj (hp.symm.trans hl)
      exact ⟨hu, hr⟩

theorem Sound.swept_target (hs : c.Sound) (hd : Instruction.decode c.program.code c.pc = .ok d)
    {t : UInt16} (ht : d.localTarget = some t) : Program.Swept c.program.code t :=
  ((hs.loaded.valid.isBoundary_iff t).mp (hs.loaded.valid.aligned _ d t hs.standing hd ht)).1

theorem Move.unwinds (hs : c.Sound) (hd : Instruction.decode c.program.code c.pc = .ok d)
    (h : Move host d c c') :
    ∃ fs entry, c'.stack.Holds fs ∧ Unwinds c'.libraries c'.program fs entry := by
  obtain ⟨fs, entry, hf, hu⟩ := hs.unwinds
  rcases h.stack_cases hs hd with ⟨-, hst, hp, hl⟩ | ⟨f, -, hfit, hst, hpush⟩ |
    ⟨-, f, hp, hst, -, hpop⟩
  · rw [hst, hp, hl]
    exact ⟨fs, entry, hf, hu⟩
  · rw [hst]
    exact ⟨f :: fs, entry, hf.store hfit, hpush fs entry hu⟩
  · obtain ⟨gs, rfl⟩ := hf.of_peek hp
    rw [hst]
    exact ⟨gs, entry, hf.drop, (hpop gs entry hu).1⟩

theorem Move.standing_of_ret (hs : c.Sound) (hd : Instruction.decode c.program.code c.pc = .ok d)
    (hi : d.instruction = .ret) (h : Move host d c c') : Program.Swept c'.program.code c'.pc := by
  obtain ⟨fs, entry, hf, hu⟩ := hs.unwinds
  rcases h.stack_cases hs hd with ⟨hm, -⟩ | ⟨f, hm, -⟩ | ⟨-, f, hp, -, -, hpop⟩
  · rw [hi] at hm
    cases hm
  · rw [hi] at hm
    cases hm
  · obtain ⟨gs, rfl⟩ := hf.of_peek hp
    exact (hpop gs entry hu).2

/-- Every move keeps the course sound. -/
theorem Move.sound (hs : c.Sound) (hh : host.Genuine)
    (hd : Instruction.decode c.program.code c.pc = .ok d) (h : Move host d c c') : c'.Sound := by
  have hu := h.unwinds hs hd
  have hr := fun hi => h.standing_of_ret hs hd hi
  cases h with
  | advance hi => exact ⟨hs.loaded, hs.known, hs.genuine, hs.standing.next hd, hu⟩
  | jump hi ht hc => exact ⟨hs.loaded, hs.known, hs.genuine, hs.swept_target hd ht, hu⟩
  | @call t hi hf hc =>
    have ht : d.localTarget = some t := by rw [Decoded.localTarget, hi]
    exact ⟨hs.loaded, hs.known, hs.genuine, hs.swept_target hd ht, hu⟩
  | @enter id entry p hi hp he hf hc =>
    obtain ⟨hl, rfl⟩ := hs.supplied hh hp
    refine ⟨hl, hp.find?_insertNew, ?_, ((hl.valid.isBoundary_iff _).mp he).1, hu⟩
    intro i q hq
    rcases Library.of_find?_insertNew hq with hq | ⟨-, rfl, rfl⟩
    · exact hs.genuine i q hq
    · exact ⟨hl, rfl⟩
  | back hi hf hc => exact ⟨hs.loaded, hs.known, hs.genuine, hr hi, hu⟩
  | leave hi hf hp hc =>
    obtain ⟨hl, rfl⟩ := hs.genuine _ _ hp
    exact ⟨hl, hp, hs.genuine, hr hi, hu⟩

end Course

end VerdictMachine

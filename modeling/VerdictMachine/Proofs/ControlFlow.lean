import VerdictMachine.Proofs.Language
import VerdictMachine.Proofs.Progress

/-!
# Where a run can be

A run takes one step after the other, and the host may answer differently at
each. Whatever the hosts do, as long as what they hand out has been loaded, the
machine stays at an instruction of its program or behind the last one, and so
never meets code that does not decode.
-/

set_option autoImplicit false

namespace VerdictMachine

theorem RunState.eq_running {s : RunState} (h : ¬ s.isHalted = true) : s = .running := by
  cases s with
  | running => rfl
  | succeeded => exact absurd rfl h
  | failed reason => exact absurd rfl h

namespace Machine

/-- The machine after a number of steps, each with a host of its own. -/
def after (hosts : Nat → Resolver) (m : Machine) : Nat → Machine
  | 0 => m
  | n + 1 => ((m.after hosts n).step (hosts n)).machine

/-- The invariant of every run. -/
structure Guarded (m : Machine) : Prop where
  sound : m.course.Sound
  legal : m.state ≠ .failed (.runtime .illegalInstruction)

variable {host : Resolver} {hosts : Nat → Resolver} {m m₀ : Machine} {p : Program}
  {code constants input : Bytes} {config : Config}

theorem load_eq_ok (h : Machine.load p input config = .ok m) : m = start p input config := by
  simp only [load, checkCapacity, bind, Except.bind, throw, throwThe, MonadExceptOf.throw, pure,
    Except.pure] at h
  split_ifs at h
  exact (Except.ok.inj h).symm

theorem guarded_start (hp : p.Loaded) (input : Bytes) (config : Config) :
    (start p input config).Guarded := by
  refine ⟨⟨hp, Library.find?_insert_self _ _ _, ?_, .start, [], p, ?_, .nil p⟩, nofun⟩
  · intro id q hq
    by_cases he : id = p.id
    · subst he
      obtain rfl := Option.some.inj ((Library.find?_insert_self _ _ _).symm.trans hq)
      exact ⟨hp, rfl⟩
    · have hn := (Library.find?_insert_ne Library.empty p he).symm.trans hq
      cases hn
  · exact CallStack.holds_initial _

theorem Guarded.step_cases (h : m.Guarded) (host : Resolver) :
    Halts m (m.step host) ∨ ∃ d, Retires host d m (m.step host) := by
  by_cases hr : m.state.isHalted = true
  · left
    rw [Machine.step, if_pos hr]
    exact ⟨rfl, hr, h.legal, rfl⟩
  · exact step_spec host h.sound (RunState.eq_running hr)

theorem Guarded.step (h : m.Guarded) (hh : host.Genuine) : (m.step host).machine.Guarded := by
  rcases h.step_cases host with hs | ⟨d, hs⟩
  · exact ⟨by rw [hs.course]; exact h.sound, hs.legal⟩
  · exact ⟨hs.move.sound h.sound hh hs.decoded, by rw [hs.running]; nofun⟩

theorem Guarded.after (h : m.Guarded) (hh : ∀ k, (hosts k).Genuine) (n : Nat) :
    (m.after hosts n).Guarded := by
  induction n with
  | zero => exact h
  | succ n ih => exact ih.step (hh n)

theorem guarded_load (hp : Program.load code constants = .ok p)
    (hm : Machine.load p input config = .ok m₀) : m₀.Guarded := by
  rw [load_eq_ok hm]
  exact guarded_start ⟨code, constants, hp⟩ input config

/-! ## A run through a library -/

/-- A library that calls an offset of its own and returns. -/
def callThenReturn : Bytes := Instruction.assemble [.call 4, .ret, .ret]

/-- A program that calls a library twice. -/
def twoCalls (id : ProgramId) : Bytes :=
  Instruction.assemble [.callLib id 0, .callLib id 0, .stop]

theorem length_encode_callLib (id : ProgramId) (entry : UInt16) :
    (Instruction.callLib id entry).encode.length = 35 := by
  simp [Instruction.encode, Instruction.operands, ProgramId.bytes, id.digest.length_bytes]

/-- A program that calls a library of another name twice. -/
structure CallsTwice (p lib : Program) : Prop where
  first : Instruction.decode p.code 0 = .ok ⟨.callLib lib.id 0, 0, 35⟩
  second : Instruction.decode p.code 35 = .ok ⟨.callLib lib.id 0, 35, 70⟩
  other : lib.id ≠ p.id

/-- A library that calls its own offset 4, where it returns to offset 3 and from there. -/
structure CallsAndReturns (lib : Program) : Prop where
  entry : lib.isBoundary 0 = true
  call : Instruction.decode lib.code 0 = .ok ⟨.call 4, 0, 3⟩
  out : Instruction.decode lib.code 3 = .ok ⟨.ret, 3, 4⟩
  back : Instruction.decode lib.code 4 = .ok ⟨.ret, 4, 5⟩

theorem mem_layout_twoCalls {id : ProgramId} {o : Nat} {i : Instruction}
    (h : (o, i) ∈ Instruction.layout 0 [.callLib id 0, .callLib id 0, .stop]) :
    i = .callLib id 0 ∨ i = .stop := by
  simp only [Instruction.layout, List.mem_cons, Prod.mk.injEq, List.not_mem_nil, or_false] at h
  rcases h with ⟨-, h⟩ | ⟨-, h⟩ | ⟨-, h⟩
  · exact .inl h
  · exact .inl h
  · exact .inr h

theorem listing_twoCalls (id : ProgramId) :
    Instruction.Listing (twoCalls id) [.callLib id 0, .callLib id 0, .stop] where
  assembled := rfl
  wellFormed o i hi := by
    rcases mem_layout_twoCalls hi with rfl | rfl <;> exact .of_permitted trivial rfl
  aligned o i t hi ht := by
    rcases mem_layout_twoCalls hi with rfl | rfl <;> cases ht

theorem exists_load_twoCalls (id : ProgramId) :
    ∃ p, Program.load (twoCalls id) [] = .ok p ∧
      p.id = ProgramId.ofContents (twoCalls id) [] ∧
      Instruction.decode p.code 0 = .ok ⟨.callLib id 0, 0, 35⟩ ∧
      Instruction.decode p.code 35 = .ok ⟨.callLib id 0, 35, 70⟩ := by
  have hcall := length_encode_callLib id 0
  have hcode : twoCalls id =
      (Instruction.callLib id 0).encode ++ ((Instruction.callLib id 0).encode ++ [0x01]) := by
    simp [twoCalls, Instruction.assemble]
    rfl
  have hlen : (twoCalls id).length = 71 := by
    rw [hcode, List.length_append, List.length_append, hcall]
    rfl
  obtain ⟨p, hp⟩ : ∃ p, Program.load (twoCalls id) [] = .ok p :=
    Program.exists_load_of_listing (by rw [hlen]; decide) (by decide) (listing_twoCalls id)
  have hspec := Program.load_spec (twoCalls id) []
  refine ⟨p, hp, ?_⟩
  rw [hp] at hspec
  cases hspec with
  | accepted =>
    have hspells := Region.spells_toArray (twoCalls id)
    rw [hcode, Region.spells_append, Region.spells_append, hcall, ← hcode] at hspells
    refine ⟨rfl, Instruction.decode_eq_ok_iff.mpr ⟨rfl, hspells.1, ?_, .of_permitted trivial rfl⟩,
      Instruction.decode_eq_ok_iff.mpr ⟨rfl, hspells.2.1, ?_, .of_permitted trivial rfl⟩⟩
    · exact hcall.symm.trans (Nat.zero_add _).symm
    · exact (congrArg (35 + ·) hcall).symm

theorem twoCalls_id_ne :
    ProgramId.ofContents (twoCalls (ProgramId.ofContents callThenReturn [])) [] ≠
      ProgramId.ofContents callThenReturn [] := by
  decide +kernel

/-- Where a machine stands that no limit stops. -/
structure Stands (m : Machine) (p : Program) (pc : UInt16) (top : Nat) : Prop where
  running : m.state = .running
  unlimited : m.control.limit = none
  program : m.program = p
  pc : m.pc = pc
  top : m.stack.top = top

theorem Ready.stands {m : Machine} {c : Course} (h : m.Ready c) :
    m.Stands c.program c.pc c.stack.top := by
  obtain ⟨hr, hl, rfl⟩ := h
  exact ⟨hr, hl, rfl, rfl, rfl⟩

/-- A run that calls a library, which makes a call of its own, and calls it again. -/
structure TwoVisits (hosts : Nat → Resolver) (m : Machine) (p lib : Program) : Prop where
  at0 : (m.after hosts 0).Stands p 0 0
  at1 : (m.after hosts 1).Stands lib 0 35
  at2 : (m.after hosts 2).Stands lib 4 38
  at3 : (m.after hosts 3).Stands lib 3 35
  at4 : (m.after hosts 4).Stands p 35 0
  at5 : (m.after hosts 5).Stands lib 0 35
  decoded0 : Instruction.decode (m.after hosts 0).program.code (m.after hosts 0).pc =
    .ok ⟨.callLib lib.id 0, 0, 35⟩
  decoded1 : Instruction.decode (m.after hosts 1).program.code (m.after hosts 1).pc =
    .ok ⟨.call 4, 0, 3⟩
  decoded4 : Instruction.decode (m.after hosts 4).program.code (m.after hosts 4).pc =
    .ok ⟨.callLib lib.id 0, 35, 70⟩
  outcome0 : ((m.after hosts 0).step (hosts 0)).outcome = .retired (m.after hosts 0).pc 0
  outcome1 : ((m.after hosts 1).step (hosts 1)).outcome = .retired (m.after hosts 1).pc 4
  outcome4 : ((m.after hosts 4).step (hosts 4)).outcome = .retired (m.after hosts 4).pc 0

theorem exists_load_callThenReturn :
    ∃ lib, Program.load callThenReturn [] = .ok lib ∧
      lib.id = ProgramId.ofContents callThenReturn [] ∧ CallsAndReturns lib := by
  obtain ⟨lib, hlib, hid, hcode⟩ : ∃ lib, Program.load callThenReturn [] = .ok lib ∧
      lib.id = ProgramId.ofContents callThenReturn [] ∧ lib.code = callThenReturn.toArray :=
    ⟨_, rfl, rfl, rfl⟩
  refine ⟨lib, hlib, hid, ?_, ?_, ?_, ?_⟩
  · rw [(Program.valid_of_load hlib).isBoundary_iff, hcode]
    exact ⟨.start, by decide⟩
  all_goals
    rw [hcode]
    decide +kernel

/-- The moves of the course allow the whole visit, so the machine makes it. -/
theorem Ready.two_visits {m : Machine} {p lib : Program} (h0 : m.Ready (start p [] {}).course)
    (hp : CallsTwice p lib) (hlib : CallsAndReturns lib) (hhost : hosts 0 lib.id = some lib) :
    TwoVisits hosts m p lib := by
  -- Only the entry program is known at first.
  have hunknown : (start p [] {}).libraries.find? lib.id = none :=
    Library.find?_insert_ne Library.empty p hp.other
  have hsupplies : (start p [] {}).course.libraries.Supplies (hosts 0) lib.id lib :=
    .inr ⟨hunknown, hhost, rfl⟩
  have hlibraries := hsupplies.find?_insertNew
  have hcaller : (Library.insertNew (start p [] {}).libraries lib.id lib).find? p.id = some p :=
    Library.find?_insertNew_of_some (Library.find?_insert_self _ _ _)
  let s₀ := CallStack.initial Segment.callStack.limit
  let s₁ := s₀.store (.library p.id 35)
  let s₂ := s₁.store (.plain 3)
  let s₃ := s₂.drop (.plain 3)
  let s₄ := s₃.drop (.library p.id 35)
  have size₀ : s₀.capacity = 196608 := Region.size_zeros _
  have size₁ : s₁.capacity = 196608 := (s₀.capacity_store _).trans size₀
  have size₄ : s₄.capacity = 196608 :=
    (s₃.capacity_drop _).trans ((s₂.capacity_drop _).trans ((s₁.capacity_store _).trans size₁))
  have fits₀ : s₀.fits (.library p.id 35) = true :=
    CallStack.fits_of_le size₀ (show 0 + 35 ≤ 196608 by decide)
  have fits₁ : s₁.fits (.plain 3) = true :=
    CallStack.fits_of_le size₁ (show 0 + 35 + 3 ≤ 196608 by decide)
  have fits₄ : s₄.fits (.library p.id 70) = true :=
    CallStack.fits_of_le size₄ (show 0 + 35 + 3 - 3 - 35 + 35 ≤ 196608 by decide)
  have holds₁ := (CallStack.holds_initial Segment.callStack.limit).store fits₀
  have holds₂ := holds₁.store fits₁
  have holds₃ := holds₂.drop
  obtain ⟨h1, o1⟩ := h0.step_of_move (hosts 0) hp.first rfl
    (.enter rfl hsupplies hlib.entry fits₀ (show (0 : UInt16) ≠ 65535 by decide))
  obtain ⟨h2, o2⟩ := h1.step_of_move (hosts 1) hlib.call rfl
    (.call rfl fits₁ (show (0 + 1 : UInt16) ≠ 65535 by decide))
  obtain ⟨h3, -⟩ := h2.step_of_move (hosts 2) hlib.back rfl
    (.back rfl holds₂.peek (show (0 + 1 + 1 : UInt16) ≠ 65535 by decide))
  obtain ⟨h4, -⟩ := h3.step_of_move (hosts 3) hlib.out rfl
    (.leave rfl holds₃.peek hcaller (show (0 + 1 + 1 + 1 : UInt16) ≠ 65535 by decide))
  obtain ⟨h5, o5⟩ := h4.step_of_move (hosts 4) hp.second rfl
    (.enter rfl (.inl hlibraries) hlib.entry fits₄
      (show (0 + 1 + 1 + 1 + 1 : UInt16) ≠ 65535 by decide))
  exact ⟨h0.stands, h1.stands, h2.stands, h3.stands, h4.stands, h5.stands,
    h0.decode_eq.trans hp.first, h1.decode_eq.trans hlib.call, h4.decode_eq.trans hp.second,
    o1, o2, o5⟩

theorem exists_two_visits :
    ∃ lib p m₀, Program.load callThenReturn [] = .ok lib ∧
      Program.load (twoCalls lib.id) [] = .ok p ∧ Machine.load p [] {} = .ok m₀ ∧
      ∀ hosts : Nat → Resolver, hosts 0 lib.id = some lib → TwoVisits hosts m₀ p lib := by
  obtain ⟨lib, hlib, hlibid, hcalls⟩ := exists_load_callThenReturn
  obtain ⟨p, hp, hid, hfirst, hsecond⟩ := exists_load_twoCalls lib.id
  have hne : lib.id ≠ p.id := by
    rw [hid, hlibid]
    exact twoCalls_id_ne.symm
  obtain ⟨m₀, hm⟩ : ∃ m₀, Machine.load p [] {} = .ok m₀ := ⟨_, rfl⟩
  have hready : m₀.Ready (start p [] {}).course := by
    rw [load_eq_ok hm]
    exact ⟨rfl, rfl, rfl⟩
  exact ⟨lib, p, m₀, hlib, hp, hm, fun _ => hready.two_visits ⟨hfirst, hsecond, hne⟩ hcalls⟩

/-- Hosts that know a library at the first step and nothing later. -/
def forgetful (lib : Program) (k : Nat) : Resolver :=
  if k = 0 then Resolver.single lib else Resolver.none

theorem genuine_forgetful {lib : Program} (h : lib.Loaded) (k : Nat) :
    (forgetful lib k).Genuine := by
  unfold forgetful
  split_ifs
  · exact Resolver.genuine_single h
  · exact Resolver.genuine_none

/-! ## Every run -/

/-- At every point of every run the counter is at an instruction boundary, where
the code decodes, or at the end of the code; no run ends at an illegal instruction. -/
theorem control_flow_integrity (hp : Program.load code constants = .ok p)
    (hm : Machine.load p input config = .ok m₀) (hh : ∀ k, (hosts k).Genuine) (n : Nat) :
    let m := m₀.after hosts n
    (m.program.isBoundary m.pc = true ∧
        (∃ d, Instruction.decode m.program.code m.pc = .ok d) ∨
      m.pc.toNat = m.program.code.size ∧
        Instruction.decode m.program.code m.pc = .error (.endOfCode m.pc)) ∧
      m.state ≠ .failed (.runtime .illegalInstruction) := by
  have hg := (guarded_load hp hm).after hh n
  exact ⟨hg.sound.decode_cases, hg.legal⟩

/-- The run goes into a library and back and into it again, and is at a boundary all along. -/
theorem control_flow_integrity_library :
    ∃ lib p m₀, Program.load callThenReturn [] = .ok lib ∧
      Program.load (twoCalls lib.id) [] = .ok p ∧ Machine.load p [] {} = .ok m₀ ∧
      TwoVisits (forgetful lib) m₀ p lib ∧
      ∀ n, let m := m₀.after (forgetful lib) n
        (m.program.isBoundary m.pc = true ∧
            (∃ d, Instruction.decode m.program.code m.pc = .ok d) ∨
          m.pc.toNat = m.program.code.size ∧
            Instruction.decode m.program.code m.pc = .error (.endOfCode m.pc)) ∧
          m.state ≠ .failed (.runtime .illegalInstruction) := by
  obtain ⟨lib, p, m₀, hlib, hp, hm, hrun⟩ := exists_two_visits
  exact ⟨lib, p, m₀, hlib, hp, hm, hrun _ (if_pos rfl),
    control_flow_integrity hp hm (genuine_forgetful ⟨_, _, hlib⟩)⟩

end Machine

end VerdictMachine

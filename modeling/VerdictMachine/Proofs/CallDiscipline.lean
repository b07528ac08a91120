import VerdictMachine.Proofs.ControlFlow

/-!
# Calls and returns nest

While a call is open, the stack holds what it held before the call, then the
frame of the call, then the frames of the calls made inside it, and following
these frames leads back to the calling program. Each step of the machine stays
inside or pops the frame of the call itself.
-/

set_option autoImplicit false

namespace VerdictMachine

theorem Frame.length_image_append (fs gs : List Frame) :
    (image (fs ++ gs)).length = (image gs).length + (image fs).length := by
  induction fs with
  | nil => rfl
  | cons f fs ih =>
    rw [List.cons_append, length_image_cons, length_image_cons, ih, Nat.add_assoc]

theorem Instruction.ret_of_frame? {i : Instruction} {id : ProgramId} {next : UInt16} {f : Frame}
    (h : i.frame? id next = some f) : i.movesStack = true ∧ i ≠ .ret ∧ f.ret = next := by
  cases i with
  | call t =>
    cases h
    exact ⟨rfl, nofun, rfl⟩
  | callLib library entry =>
    cases h
    exact ⟨rfl, nofun, rfl⟩
  | _ => cases h

namespace Course

variable {host : Resolver} {d : Decoded} {f : Frame} {s c c' : Course}

/-- The course `c` comes after a call at `s` that pushed `f` and has not returned. -/
structure Inside (s : Course) (f : Frame) (c : Course) : Prop where
  nested : ∃ inner outer, c.stack.Holds (inner ++ f :: outer) ∧
    s.stack.top = (Frame.image outer).length ∧
    Unwinds c.libraries c.program (inner ++ [f]) s.program
  kept : ∀ i, i < s.stack.top → c.stack.arena[i]? = s.stack.arena[i]?

/-- The course `c` comes right after the return from such a call. -/
structure Returned (s : Course) (f : Frame) (c : Course) : Prop where
  top : c.stack.top = s.stack.top
  program : c.program = s.program
  pc : c.pc = f.ret
  kept : ∀ i, i < s.stack.top → c.stack.arena[i]? = s.stack.arena[i]?

theorem Unwinds.eq_of_nil {l : Library} {p q : Program} (h : Unwinds l p [] q) : p = q := by
  cases h
  rfl

theorem Inside.lt_top (h : Inside s f c) : s.stack.top < c.stack.top := by
  obtain ⟨inner, outer, hh, ht, -⟩ := h.nested
  have hp := f.size_pos
  rw [hh.top_eq, Frame.length_image_append, Frame.length_image_cons, ht]
  omega

theorem kept_store (s : CallStack) (f : Frame) {i : Nat} (h : i < s.top) :
    (s.store f).arena[i]? = s.arena[i]? :=
  Region.overwrite_frame _ _ _ _ (.inl h)

theorem Move.inside_of_call (hs : c.Sound) (hd : Instruction.decode c.program.code c.pc = .ok d)
    (h : Move host d c c') (hf : d.instruction.frame? c.program.id d.next = some f) :
    Inside c f c' := by
  obtain ⟨hm, hr, -⟩ := Instruction.ret_of_frame? hf
  rcases h.stack_cases hs hd with ⟨hn, -⟩ | ⟨g, hg, hfit, hst, hpush⟩ | ⟨hi, -⟩
  · rw [hm] at hn
    cases hn
  · obtain rfl := Option.some.inj (hg.symm.trans hf)
    obtain ⟨fs, entry, hh, -⟩ := hs.unwinds
    refine ⟨⟨[], fs, ?_, hh.top_eq, hpush [] c.program (.nil _)⟩, ?_⟩
    · rw [hst]
      exact hh.store hfit
    · intro i hi
      rw [hst]
      exact kept_store _ _ hi
  · exact absurd hi hr

theorem Move.inside_or_returned (hs : c.Sound)
    (hd : Instruction.decode c.program.code c.pc = .ok d) (h : Move host d c c')
    (ho : Inside s f c) :
    Inside s f c' ∨ d.instruction = .ret ∧ c.stack.peek = some f ∧ Returned s f c' := by
  have hlt := ho.lt_top
  obtain ⟨inner, outer, hh, ht, hu⟩ := ho.nested
  rcases h.stack_cases hs hd with ⟨-, hst, hp, hl⟩ | ⟨g, -, hfit, hst, hpush⟩ |
    ⟨hi, g, hpeek, hst, hpc, hpop⟩
  · left
    refine ⟨?_, ?_⟩
    · rw [hst, hp, hl]
      exact ⟨inner, outer, hh, ht, hu⟩
    · rw [hst]
      exact ho.kept
  · left
    refine ⟨⟨g :: inner, outer, ?_, ht, hpush _ _ hu⟩, ?_⟩
    · rw [hst]
      exact hh.store hfit
    · intro i hi
      rw [hst, kept_store _ _ (Nat.lt_trans hi hlt), ho.kept i hi]
  · have hkept : ∀ i, i < s.stack.top → c'.stack.arena[i]? = s.stack.arena[i]? := by
      rw [hst]
      exact ho.kept
    cases inner with
    | nil =>
      right
      rw [List.nil_append] at hh hu
      obtain rfl := Option.some.inj (hh.peek.symm.trans hpeek)
      refine ⟨hi, hpeek, ?_, (hpop [] _ hu).1.eq_of_nil, hpc, hkept⟩
      rw [hst, hh.drop.top_eq, ht]
    | cons g' inner =>
      left
      rw [List.cons_append] at hh hu
      obtain rfl := Option.some.inj (hh.peek.symm.trans hpeek)
      refine ⟨⟨inner, outer, ?_, ht, (hpop _ _ hu).1⟩, hkept⟩
      rw [hst]
      exact hh.drop

end Course

namespace Machine

variable {hosts : Nat → Resolver} {m m₀ : Machine} {p : Program} {code constants input : Bytes}
  {config : Config} {d : Decoded} {f : Frame}

theorem Guarded.inside_or_returned {host : Resolver} {s : Course} (h : m.Guarded)
    (ho : Course.Inside s f m.course) :
    Course.Inside s f (m.step host).machine.course ∨
      ∃ e, Retires host e m (m.step host) ∧ e.instruction = .ret ∧ m.stack.peek = some f ∧
        Course.Returned s f (m.step host).machine.course := by
  rcases h.step_cases host with hs | ⟨e, hs⟩
  · rw [hs.course]
    exact .inl ho
  · rcases hs.move.inside_or_returned h.sound hs.decoded ho with hi | ⟨hi, hp, hret⟩
    · exact .inl hi
    · exact .inr ⟨e, hs, hi, hp, hret⟩

theorem Guarded.inside_after (h : m.Guarded) (hh : ∀ k, (hosts k).Genuine) {n k : Nat}
    (hd : Retires (hosts n) d (m.after hosts n) ((m.after hosts n).step (hosts n)))
    (hf : d.instruction.frame? (m.after hosts n).program.id d.next = some f) (hk : n ≤ k)
    (ha : ∀ j, n < j → j ≤ k → (m.after hosts n).stack.top < (m.after hosts j).stack.top) :
    Course.Inside (m.after hosts n).course f (m.after hosts (k + 1)).course ∨
      ∃ e, Retires (hosts k) e (m.after hosts k) ((m.after hosts k).step (hosts k)) ∧
        e.instruction = .ret ∧ (m.after hosts k).stack.peek = some f ∧
        Course.Returned (m.after hosts n).course f (m.after hosts (k + 1)).course := by
  induction hk with
  | refl => exact .inl (hd.move.inside_of_call (h.after hh n).sound hd.decoded hf)
  | @step k hk ih =>
    rcases ih fun j hn hj => ha j hn (Nat.le_succ_of_le hj) with ho | ⟨e, -, -, -, hret⟩
    · exact (h.after hh (k + 1)).inside_or_returned ho
    · -- A return in between would have been at the level of the call.
      have hlt := ha (k + 1) (Nat.lt_succ_of_le hk) (Nat.le_refl _)
      have htop : (m.after hosts (k + 1)).stack.top = (m.after hosts n).stack.top := hret.top
      omega

theorem Guarded.retires_of_outcome {host : Resolver} {pc next : UInt16} (h : m.Guarded)
    (hd : Instruction.decode m.program.code m.pc = .ok d)
    (ho : (m.step host).outcome = .retired pc next) : Retires host d m (m.step host) := by
  rcases h.step_cases host with hs | ⟨e, hs⟩
  · rw [hs.outcome] at ho
    cases ho
  · obtain rfl : e = d := Except.ok.inj (hs.decoded.symm.trans hd)
    exact hs

/-- What the stack holds when a call retires stays as it is until the stack is first back
at that level. This happens by a return that pops the frame of the call, and it
leads to the calling program, right behind the call. -/
theorem call_return_integrity (hp : Program.load code constants = .ok p)
    (hm : Machine.load p input config = .ok m₀) (hh : ∀ k, (hosts k).Genuine) {n k : Nat}
    {target : UInt16}
    (hd : Instruction.decode (m₀.after hosts n).program.code (m₀.after hosts n).pc = .ok d)
    (hcall : (∃ t, d.instruction = .call t) ∨ ∃ id entry, d.instruction = .callLib id entry)
    (ho : ((m₀.after hosts n).step (hosts n)).outcome = .retired (m₀.after hosts n).pc target)
    (hk : n ≤ k)
    (ha : ∀ j, n < j → j ≤ k → (m₀.after hosts n).stack.top < (m₀.after hosts j).stack.top) :
    let m := m₀.after hosts n
    let before := m₀.after hosts k
    let m' := m₀.after hosts (k + 1)
    (∀ i, i < m.stack.top → m'.stack.arena[i]? = m.stack.arena[i]?) ∧
      (m'.stack.top ≤ m.stack.top →
        m'.stack.top = m.stack.top ∧ m'.program = m.program ∧
        m'.pc.toNat = m.pc.toNat + d.instruction.encode.length ∧
        (∃ e, Instruction.decode before.program.code before.pc = .ok e ∧ e.instruction = .ret) ∧
        (before.step (hosts k)).outcome = .retired before.pc m'.pc ∧
        before.stack.peek = d.instruction.frame? m.program.id d.next) := by
  have hg := guarded_load hp hm
  have hret := (hg.after hh n).retires_of_outcome hd ho
  obtain ⟨f, hf⟩ : ∃ f, d.instruction.frame? (m₀.after hosts n).program.id d.next = some f := by
    rcases hcall with ⟨t, hi⟩ | ⟨id, entry, hi⟩
    · exact ⟨.plain d.next, by rw [hi]; rfl⟩
    · exact ⟨.library (m₀.after hosts n).program.id d.next, by rw [hi]; rfl⟩
  rcases hg.inside_after hh hret hf hk ha with hi | ⟨e, he, hi, hpeek, hr⟩
  · exact ⟨hi.kept, fun hle => absurd hi.lt_top (Nat.not_lt.mpr hle)⟩
  · refine ⟨hr.kept, fun _ => ⟨hr.top, hr.program, ?_, ⟨e, he.decoded, hi⟩, he.outcome, ?_⟩⟩
    · have hpc : (m₀.after hosts (k + 1)).pc = f.ret := hr.pc
      rw [hpc, (Instruction.ret_of_frame? hf).2.2]
      exact (Instruction.decode_eq_ok_iff.mp hd).2.2.1
    · rw [hpeek, hf]

/-- A call inside a library that was called: the inner call returns behind itself and leaves the
frame of the outer one, and the outer one returns to the calling program, behind the call. -/
theorem call_return_integrity_nested :
    ∃ lib p m₀, Program.load callThenReturn [] = .ok lib ∧
      Program.load (twoCalls lib.id) [] = .ok p ∧ Machine.load p [] {} = .ok m₀ ∧
      TwoVisits (forgetful lib) m₀ p lib ∧
      let m := m₀.after (forgetful lib)
      ((∀ i, i < 35 → (m 3).stack.arena[i]? = (m 1).stack.arena[i]?) ∧
        (m 3).stack.top = (m 1).stack.top ∧ (m 3).program = (m 1).program ∧
        (m 3).pc.toNat = (m 1).pc.toNat + 3) ∧
      (m 4).stack.top = (m 0).stack.top ∧ (m 4).program = (m 0).program ∧
        (m 4).pc.toNat = (m 0).pc.toNat + 35 ∧
        (m 3).stack.peek = some (.library p.id 35) := by
  obtain ⟨lib, p, m₀, hlib, hp, hm, hrun⟩ := exists_two_visits
  have h := hrun (forgetful lib) (if_pos rfl)
  have hh := genuine_forgetful ⟨_, _, hlib⟩
  refine ⟨lib, p, m₀, hlib, hp, hm, h, ?_⟩
  have hinner : ∀ j, 1 < j → j ≤ 2 → (m₀.after (forgetful lib) 1).stack.top <
      (m₀.after (forgetful lib) j).stack.top := by
    intro j h1 h2
    obtain rfl : j = 2 := Nat.le_antisymm h2 h1
    rw [h.at1.top, h.at2.top]
    decide
  have houter : ∀ j, 0 < j → j ≤ 3 → (m₀.after (forgetful lib) 0).stack.top <
      (m₀.after (forgetful lib) j).stack.top := by
    intro j h1 h3
    rw [h.at0.top]
    obtain rfl | rfl | rfl : j = 1 ∨ j = 2 ∨ j = 3 := by omega
    · rw [h.at1.top]
      decide
    · rw [h.at2.top]
      decide
    · rw [h.at3.top]
      decide
  obtain ⟨hkept, hret⟩ := call_return_integrity hp hm hh h.decoded1 (.inl ⟨4, rfl⟩) h.outcome1
    (by decide) hinner
  obtain ⟨-, hret'⟩ := call_return_integrity hp hm hh h.decoded0 (.inr ⟨lib.id, 0, rfl⟩)
    h.outcome0 (by decide) houter
  obtain ⟨htop, hprog, hpc, -⟩ := hret (by rw [h.at3.top, h.at1.top])
  obtain ⟨htop', hprog', hpc', -, -, hpeek⟩ := hret' (by rw [h.at4.top, h.at0.top])
  rw [length_encode_callLib] at hpc'
  rw [h.at0.program] at hpeek
  rw [h.at1.top] at hkept
  exact ⟨⟨hkept, htop, hprog, hpc⟩, htop', hprog', hpc', hpeek⟩

end Machine

end VerdictMachine

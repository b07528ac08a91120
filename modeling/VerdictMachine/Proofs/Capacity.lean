import VerdictMachine.Proofs.Causes
import VerdictMachine.Proofs.Likeness
import VerdictMachine.Proofs.Limit
import VerdictMachine.Proofs.Reconstruction

/-!
# More room changes nothing else

How large the call stack and the output segment may grow is visible to no
instruction. It only decides whether a frame or a stored register still fits.
So a machine with less room and one with more do the same, step by step, until
the one with less room halts because something does not fit. If it never does,
both come to the same verdict.
-/

set_option autoImplicit false

namespace VerdictMachine

namespace Region

/-- A region that begins with all cells of another one. -/
structure Extends (cells other : Region) : Prop where
  size_le : cells.size ≤ other.size
  get_eq : ∀ i, i < cells.size → other[i]? = cells[i]?

variable {cells other : Region}

theorem extends_zeros {m n : Nat} (h : m ≤ n) : (zeros m).Extends (zeros n) := by
  refine ⟨by simpa using h, ?_⟩
  intro i hi
  rw [size_zeros] at hi
  simp only [zeros, Array.getElem?_replicate, if_pos hi, if_pos (Nat.lt_of_lt_of_le hi h)]

theorem Extends.read_eq (h : cells.Extends other) (start len : Nat)
    (hle : start + len ≤ cells.size) : other.read start len = cells.read start len := by
  apply List.ext_getElem?
  intro i
  rw [getElem?_read, getElem?_read]
  by_cases hi : i < len
  · rw [if_pos hi, if_pos hi, h.get_eq _ (by omega)]
  · rw [if_neg hi, if_neg hi]

theorem Extends.overwrite (h : cells.Extends other) (start : Nat) (bs : Bytes) :
    (cells.overwrite start bs).Extends (other.overwrite start bs) := by
  have hsize := h.size_le
  refine ⟨by simpa using hsize, ?_⟩
  intro i hi
  rw [size_overwrite] at hi
  by_cases hw : start ≤ i ∧ i < start + bs.length
  · obtain ⟨k, rfl⟩ := Nat.exists_eq_add_of_le hw.1
    have hk : k < bs.length := by omega
    rw [overwrite_get _ _ _ _ hk hi, overwrite_get _ _ _ _ hk (by omega)]
  · have hout : i < start ∨ start + bs.length ≤ i := by omega
    rw [overwrite_frame _ _ _ _ hout, overwrite_frame _ _ _ _ hout, h.get_eq i hi]

end Region

/-- Memories of the same contents, the second with room for more output. -/
structure Memory.Roomier (a b : Memory) : Prop where
  static : b.static = a.static
  input : b.input = a.input
  outputLength : b.outputLength = a.outputLength
  outputCells : a.outputCells.Extends b.outputCells
  length_le : a.outputLength ≤ a.outputCells.size

namespace Memory.Roomier

variable {a b : Memory}

theorem initial {o₁ o₂ : Nat} (h : o₁ ≤ o₂) (staticCapacity : Nat) (input : Bytes) :
    (Memory.initial staticCapacity o₁ input).Roomier (Memory.initial staticCapacity o₂ input) :=
  ⟨rfl, rfl, rfl, Region.extends_zeros h, Nat.zero_le _⟩

theorem output_eq (h : a.Roomier b) : b.output = a.output := by
  rw [output, output, h.outputLength]
  exact h.outputCells.read_eq 0 _ (by rw [Nat.zero_add]; exact h.length_le)

theorem admits_cases (h : a.Roomier b) (seg : Segment) (address : UInt32) (len : Nat) :
    b.admits seg address len = a.admits seg address len ∨
      seg = .output ∧ a.admits seg address len = false := by
  cases seg with
  | static =>
    left
    simp only [admits, capacity?, h.static]
  | output =>
    cases ha : a.admits .output address len with
    | false => exact .inr ⟨rfl, rfl⟩
    | true =>
      have hend : address.toNat + len ≤ a.outputCells.size :=
        (a.admits_iff #[] rfl address len).mp ha
      left
      exact (b.admits_iff #[] rfl address len).mpr (Nat.le_trans hend h.outputCells.size_le)
  | _ => exact .inl rfl

theorem store (h : a.Roomier b) {seg : Segment} {address : UInt32} {bs : Bytes}
    (ha : a.admits seg address bs.length = true) :
    (a.store seg address bs).Roomier (b.store seg address bs) := by
  cases seg with
  | static =>
    exact { h with static := congrArg (Region.overwrite · address.toNat bs) h.static }
  | output =>
    have hend : address.toNat + bs.length ≤ a.outputCells.size :=
      (a.admits_iff #[] rfl address bs.length).mp ha
    refine { h with
      outputLength := congrArg (max · (address.toNat + bs.length)) h.outputLength
      outputCells := h.outputCells.overwrite address.toNat bs
      length_le := ?_ }
    simp only [Memory.store, Region.size_overwrite]
    exact Nat.max_le.mpr ⟨h.length_le, hend⟩
  | _ => exact h

end Memory.Roomier

/-- Stacks of the same frames, the second with room for more. -/
structure CallStack.Roomier (s t : CallStack) : Prop where
  top : t.top = s.top
  arena : s.arena.Extends t.arena
  top_le : s.top ≤ s.arena.size

namespace CallStack.Roomier

variable {s t : CallStack}

theorem initial {s₁ s₂ : Nat} (h : s₁ ≤ s₂) :
    (CallStack.initial s₁).Roomier (CallStack.initial s₂) :=
  ⟨rfl, Region.extends_zeros h, Nat.zero_le _⟩

theorem peek_eq (h : s.Roomier t) : t.peek = s.peek := by
  have hle := h.top_le
  unfold peek
  rw [h.top]
  by_cases h0 : s.top = 0
  · rw [if_pos h0, if_pos h0]
  · rw [if_neg h0, if_neg h0, h.arena.get_eq _ (by omega)]
    -- What is read lies below the top, unless the stack is too low to hold the frame.
    by_cases h3 : s.top < 3
    · have h35 : s.top < 35 := by omega
      simp only [if_pos h3, if_pos h35]
    · rw [h.arena.read_eq (s.top - 3) 2 (by omega)]
      by_cases h35 : s.top < 35
      · simp only [if_pos h35]
      · rw [h.arena.read_eq (s.top - 35) 32 (by omega)]

theorem fits_of_fits (h : s.Roomier t) {f : Frame} (hf : s.fits f = true) : t.fits f = true := by
  have hsize := h.arena.size_le
  simp only [fits, decide_eq_true_eq] at hf ⊢
  rw [h.top]
  omega

theorem store (h : s.Roomier t) {f : Frame} (hf : s.fits f = true) :
    (s.store f).Roomier (t.store f) := by
  simp only [fits, decide_eq_true_eq] at hf
  refine ⟨congrArg (· + f.size) h.top, ?_, ?_⟩
  · simp only [CallStack.store, h.top]
    exact h.arena.overwrite s.top f.bytes
  · simpa [CallStack.store] using hf

theorem drop (h : s.Roomier t) (f : Frame) : (s.drop f).Roomier (t.drop f) :=
  ⟨congrArg (· - f.size) h.top, h.arena, Nat.le_trans (Nat.sub_le _ _) h.top_le⟩

end CallStack.Roomier

/-- Room that is not used makes no difference. -/
def Likeness.roomier : Likeness where
  memory := Memory.Roomier
  stack := CallStack.Roomier
  read_eq h := Memory.read_congr h.static h.input
  length_eq h := Memory.length_congr h.static h.input h.outputLength
  memory_store h := h.store
  top_eq h := h.top
  peek_eq h := h.peek_eq
  stack_store h := h.store
  stack_drop h := h.drop

/-- The fault that an instruction raises for want of room. -/
def Instruction.roomFault? : Instruction → Option Fault
  | .call _ | .callLib .. => some .stackOverflow
  | .st .output .. => some .segmentOutOfBounds
  | _ => none

namespace Machine

variable {m m' : Machine} {host : Resolver} {d : Decoded}

theorem pushFrame_of_not_fits {frame : Frame} (h : m.stack.fits frame = false) (flow : Flow) :
    m.pushFrame frame flow = .fault .stackOverflow m := by
  rw [pushFrame_eq, h]
  rfl

theorem storeRegister_of_not_admits {seg : Segment} {bank : Bank} {src : Register}
    {address : UInt32} (h : m.memory.admits seg address bank.bytes = false) :
    m.storeRegister seg bank src address = .fault .segmentOutOfBounds m := by
  rw [storeRegister_eq, m.registers.length_slot bank src, h]
  rfl

/-- A library call for whose frame there is no room. Other faults come first, and these are the
same on both sides. -/
theorem callLibrary_of_not_fits {L : Likeness} (h : L.Alike m m') (host : Resolver)
    {ret : UInt16} (hf : m.stack.fits (.library m.program.id ret) = false)
    (library : ProgramId) (entry : UInt16) :
    L.SameEffect (m.callLibrary host library entry ret) (m'.callLibrary host library entry ret) ∨
      m.callLibrary host library entry ret = .fault .stackOverflow m := by
  unfold callLibrary
  rw [show m'.resolve host library = m.resolve host library by
    unfold resolve
    rw [h.libraries]]
  cases m.resolve host library with
  | error f => exact .inl (.fault h)
  | ok p =>
    dsimp only
    split_ifs
    · exact .inl (.fault h)
    · right
      rw [pushFrame_of_not_fits hf]

theorem execute_same_or_fault (h : Likeness.roomier.Alike m m') (host : Resolver) (d : Decoded) :
    Likeness.roomier.SameEffect (execute host d m) (execute host d m') ∨
      ∃ f, d.instruction.roomFault? = some f ∧ execute host d m = .fault f m := by
  by_cases hr : Likeness.SameRoom m m' d
  · exact .inl (Likeness.execute_same h host d hr)
  · obtain ⟨hm, hs⟩ : m.memory.Roomier m'.memory ∧ m.stack.Roomier m'.stack := by
      cases h with
      | intro hm hs => exact ⟨hm, hs⟩
    have hfits : ∀ f, m'.stack.fits f ≠ m.stack.fits f → m.stack.fits f = false := by
      intro f hne
      cases hf : m.stack.fits f with
      | false => rfl
      | true => exact absurd ((hs.fits_of_fits hf).trans hf.symm) hne
    unfold Likeness.SameRoom at hr
    unfold execute
    cases hi : d.instruction with
    | st seg bank src addr =>
      rw [hi] at hr
      rcases hm.admits_cases seg (m.registers.a32 addr) bank.bytes with he | ⟨rfl, ha⟩
      · exact absurd he hr
      · exact .inr ⟨_, rfl, storeRegister_of_not_admits ha⟩
    | call t =>
      rw [hi] at hr
      exact .inr ⟨_, rfl, pushFrame_of_not_fits (hfits _ hr) _⟩
    | callLib library entry =>
      rw [hi] at hr
      rcases callLibrary_of_not_fits h host (hfits _ hr) library entry with he | he
      · exact .inl he
      · exact .inr ⟨_, rfl, he⟩
    | _ =>
      rw [hi] at hr
      exact absurd trivial hr

/-- The next step halts the machine at an instruction that finds no room for what it stores. -/
def RunsOut (m : Machine) (host : Resolver) : Prop :=
  ∃ d f, m.Performs d ∧ d.instruction.roomFault? = some f ∧
    (m.step host).machine.state = .failed (.runtime f)

theorem step_same_of_not_runsOut (h : Likeness.roomier.Alike m m') (hout : ¬ m.RunsOut host) :
    Likeness.roomier.SameReport (m.step host) (m'.step host) := by
  apply Likeness.step_same_of_execute h
  intro d control hd hc
  rcases execute_same_or_fault (h.withControl control) host d with he | ⟨f, hf, he⟩
  · exact he
  · refine absurd ⟨d, f, hd, hf, ?_⟩ hout
    rw [step_of_decode host hd.running hd.decoded hc, he]
    rfl

/-- Up to where the one with less room runs out of it, the runs of both machines are alike. -/
theorem alike_after (h : Likeness.roomier.Alike m m') (hosts : Nat → Resolver) (n : Nat)
    (hout : ∀ k, k < n → ¬ (m.after hosts k).RunsOut (hosts k)) :
    Likeness.roomier.Alike (m.after hosts n) (m'.after hosts n) := by
  induction n with
  | zero => exact h
  | succ n ih =>
    have hn := ih fun k hk => hout k (Nat.lt_succ_of_lt hk)
    exact (step_same_of_not_runsOut hn (hout n (Nat.lt_succ_self n))).machine

/-- Machines that differ at most in how much room there is left. -/
structure AgreeButRoom (m m' : Machine) : Prop where
  program : m'.program = m.program
  libraries : m'.libraries = m.libraries
  pc : m'.pc = m.pc
  registers : m'.registers = m.registers
  control : m'.control = m.control
  static : m'.memory.static = m.memory.static
  output : m'.memory.output = m.memory.output
  top : m'.stack.top = m.stack.top
  frames : m'.stack.arena.read 0 m'.stack.top = m.stack.arena.read 0 m.stack.top
  state : m'.state = m.state

theorem agreeButRoom_of_alike (h : Likeness.roomier.Alike m m') : m.AgreeButRoom m' := by
  cases h with
  | intro hm hs =>
    refine ⟨rfl, rfl, rfl, rfl, rfl, hm.static, hm.output_eq, hs.top, ?_, rfl⟩
    rw [hs.top]
    exact hs.arena.read_eq 0 _ (by rw [Nat.zero_add]; exact hs.top_le)

theorem AgreeButRoom.verdict_eq (h : m.AgreeButRoom m') : m'.verdict? = m.verdict? := by
  unfold verdict?
  rw [h.state, h.output, h.registers, h.control]

theorem reason_of_runsOut (hosts : Nat → Resolver) {k n : Nat} (hk : k < n)
    (h : (m.after hosts k).RunsOut (hosts k)) :
    ∃ f, (f = .stackOverflow ∨ f = .segmentOutOfBounds) ∧
      (m.after hosts n).state = .failed (.runtime f) := by
  obtain ⟨d, f, -, hf, hs⟩ := h
  change (m.after hosts (k + 1)).state = _ at hs
  refine ⟨f, ?_, ?_⟩
  · unfold Instruction.roomFault? at hf
    split at hf
    · exact .inl (Option.some.inj hf).symm
    · exact .inl (Option.some.inj hf).symm
    · exact .inr (Option.some.inj hf).symm
    · cases hf
  · rw [after_of_le (Nat.succ_le_of_lt hk) (by rw [hs]; rfl), hs]

variable {code constants input : Bytes} {p : Program} {config : Config} {s₁ s₂ o₁ o₂ : Nat}
  {small large : Machine}

/-- More room for frames and output removes faults and changes nothing else. Whatever the hosts
answer, the runs agree after every number of steps until the one with less room halts at a call
without room for its frame, or at a store without room in the output. If it does not end for one
of these reasons then both come to the same verdict, with the same canonical bytes. -/
theorem room_only_removes_faults (hp : Program.load code constants = .ok p)
    (hs : s₁ ≤ s₂) (ho : o₁ ≤ o₂)
    (hsmall : Machine.load p input
      { config with stackCapacity := s₁, outputCapacity := o₁ } = .ok small)
    (hlarge : Machine.load p input
      { config with stackCapacity := s₂, outputCapacity := o₂ } = .ok large) :
    (∀ (hosts : Nat → Resolver) (n : Nat),
      (∀ k, k < n → ¬ (small.after hosts k).RunsOut (hosts k)) →
        (small.after hosts n).AgreeButRoom (large.after hosts n)) ∧
    ∀ host : Resolver, host.Genuine →
      ∃ v v', (Run.complete host (Run.ofMachine small)).machine.verdict? = some v ∧
        (Run.complete host (Run.ofMachine large)).machine.verdict? = some v' ∧
        (v.reason? ≠ some (.runtime .stackOverflow) →
          v.reason? ≠ some (.runtime .segmentOutOfBounds) → v' = v ∧ v'.bytes = v.bytes) := by
  have halike : Likeness.roomier.Alike small large := by
    rw [load_eq_ok hsmall, load_eq_ok hlarge]
    exact .intro (Memory.Roomier.initial ho _ _) (CallStack.Roomier.initial hs)
  refine ⟨fun hosts n hout => agreeButRoom_of_alike (alike_after halike hosts n hout), ?_⟩
  intro host hh
  rw [Run.machine_complete, Run.machine_complete]
  obtain ⟨v, hv⟩ : ∃ v, (small.after (fun _ => host) Run.maxSteps).verdict? = some v :=
    exists_verdict ((guarded_load hp hsmall).isHalted_after fun _ => hh)
  obtain ⟨v', hv'⟩ : ∃ v', (large.after (fun _ => host) Run.maxSteps).verdict? = some v' :=
    exists_verdict ((guarded_load hp hlarge).isHalted_after fun _ => hh)
  refine ⟨v, v', hv, hv', ?_⟩
  intro hstack hsegment
  have hout : ∀ k, k < Run.maxSteps →
      ¬ (small.after (fun _ => host) k).RunsOut host := by
    intro k hk hrun
    obtain ⟨f, hf, hstate⟩ := reason_of_runsOut (fun _ => host) hk hrun
    have hreason : v.reason? = some (.runtime f) := by
      rw [reason?_of_verdict? hv, hstate]
      rfl
    rcases hf with rfl | rfl
    · exact hstack hreason
    · exact hsegment hreason
  have hagree := agreeButRoom_of_alike (alike_after halike (fun _ => host) Run.maxSteps hout)
  have heq : v' = v := Option.some.inj (hv'.symm.trans (hagree.verdict_eq.trans hv))
  exact ⟨heq, by rw [heq]⟩

/-- A procedure puts one byte out. Room for one frame and one byte is just enough, so room for
more makes no difference: inside of the procedure the frame is the same, and so is the verdict. -/
theorem room_only_removes_faults_call :
    ∃ p small large, Program.load [0x10, 0, 1, 7, 8, 8, 0, 1, 0x17, 3, 0, 1, 0, 10] [] = .ok p ∧
      Machine.load p [] { stackCapacity := 3, outputCapacity := 1 } = .ok small ∧
      Machine.load p [] {} = .ok large ∧
      (large.after (fun _ => Resolver.none) 2).stack.top = 3 ∧
      (small.after (fun _ => Resolver.none) 2).AgreeButRoom
        (large.after (fun _ => Resolver.none) 2) ∧
      ∃ registers control,
        (Run.complete Resolver.none (Run.ofMachine large)).machine.verdict? =
          some (.success [7] registers control) := by
  obtain ⟨p, small, large, hp, hsmall, hlarge, h1, h2, htop, hs, ho⟩ :
      ∃ p small large,
        Program.load [0x10, 0, 1, 7, 8, 8, 0, 1, 0x17, 3, 0, 1, 0, 10] [] = .ok p ∧
        Machine.load p [] { stackCapacity := 3, outputCapacity := 1 } = .ok small ∧
        Machine.load p [] {} = .ok large ∧
        (small.after (fun _ => Resolver.none) 1).state = .running ∧
        (small.after (fun _ => Resolver.none) 2).state = .running ∧
        (small.after (fun _ => Resolver.none) 2).stack.top = 3 ∧
        (small.after (fun _ => Resolver.none) 5).state = .succeeded ∧
        (small.after (fun _ => Resolver.none) 5).memory.output = [7] := by
    refine ⟨_, _, _, rfl, rfl, rfl, ?_, ?_, ?_, ?_, ?_⟩ <;> decide +kernel
  obtain ⟨hsteps, hends⟩ := @room_only_removes_faults _ _ _ p {} 3 _ 1 _ small large hp
    (show 3 ≤ Segment.callStack.limit by decide) (show 1 ≤ Segment.output.limit by decide)
    hsmall hlarge
  have hagree := hsteps (fun _ => Resolver.none) 2 fun k hk => by
    rintro ⟨d, f, -, -, hf⟩
    change (small.after (fun _ => Resolver.none) (k + 1)).state = _ at hf
    obtain rfl | rfl : k = 0 ∨ k = 1 := by omega
    · rw [h1] at hf
      cases hf
    · rw [h2] at hf
      cases hf
  obtain ⟨v, v', hv, hv', heq⟩ := hends Resolver.none Resolver.genuine_none
  have hfinal : (Run.complete Resolver.none (Run.ofMachine small)).machine =
      small.after (fun _ => Resolver.none) 5 := by
    rw [Run.machine_complete]
    exact after_of_le (by decide) (by rw [hs]; rfl)
  rw [hfinal, verdict?, hs, ho] at hv
  obtain rfl := Option.some.inj hv
  obtain ⟨rfl, -⟩ := heq (Option.some_ne_none _).symm (Option.some_ne_none _).symm
  exact ⟨p, small, large, hp, hsmall, hlarge, hagree.top.trans htop, hagree, _, _, hv'⟩

end Machine

end VerdictMachine

import VerdictMachine.Proofs.Causes
import VerdictMachine.Proofs.Failures
import VerdictMachine.Proofs.Limit

/-!
# What holds of a machine at all times

Some parts of a machine say the same thing twice or bound each other: the pointer
in the control registers and the call stack, the complexity and its limit, the
failure flag and the count of failures, the output and its length, the state of
the run and the flag. They agree at the start, no step sets them apart, and a
machine that has halted keeps them as they were.
-/

set_option autoImplicit false

namespace VerdictMachine

namespace CallStack

variable {s : CallStack} {fs : List Frame}

theorem Holds.top_le (h : s.Holds fs) : s.top ≤ s.capacity := by
  rw [h.top_eq]
  by_cases he : Frame.image fs = []
  · rw [he]
    exact Nat.zero_le _
  · have hle := Region.spells_le h.spelled he
    rwa [Nat.zero_add] at hle

end CallStack

theorem Course.Move.capacity_eq {host : Resolver} {d : Decoded} {c c' : Course}
    (h : Move host d c c') : c'.stack.capacity = c.stack.capacity := by
  cases h with
  | call => exact CallStack.capacity_store _ _
  | enter => exact CallStack.capacity_store _ _
  | _ => rfl

namespace Memory

/-- The output ends within its cells, and what lies behind it was never written. -/
structure Blank (m : Memory) : Prop where
  length_le : m.outputLength ≤ m.outputCells.size
  zero : ∀ i, m.outputLength ≤ i → i < m.outputCells.size → m.outputCells[i]? = some 0

theorem blank_initial (staticCapacity outputCapacity : Nat) (input : Bytes) :
    (initial staticCapacity outputCapacity input).Blank := by
  refine ⟨Nat.zero_le _, ?_⟩
  intro i _ hi
  change i < (Region.zeros outputCapacity).size at hi
  rw [Region.size_zeros] at hi
  exact (Array.getElem?_replicate ..).trans (if_pos hi)

theorem Blank.store {m : Memory} (h : m.Blank) {seg : Segment} {address : UInt32} {bs : Bytes}
    (ha : m.admits seg address bs.length = true) : (m.store seg address bs).Blank := by
  cases seg with
  | static => exact ⟨h.length_le, h.zero⟩
  | output =>
    have hend : address.toNat + bs.length ≤ m.outputCells.size :=
      (m.admits_iff #[] rfl address bs.length).mp ha
    have hlen := h.length_le
    refine ⟨?_, ?_⟩
    · simp only [Memory.store, Region.size_overwrite]
      omega
    · intro i hi hsize
      simp only [Memory.store, Region.size_overwrite] at hi hsize ⊢
      rw [Region.overwrite_frame _ _ _ _ (by omega)]
      exact h.zero i (by omega) hsize
  | code | constant | callStack | input => exact h

end Memory

/-- The parts that make up the data memory. -/
def Part.ofMemory : Part → Bool
  | .input | .static _ | .output _ | .outputLength | .staticSize | .outputSize => true
  | _ => false

namespace Machine

variable {host : Resolver} {d : Decoded} {m m' : Machine} {flow : Flow}

theorem Confined.memory_eq {ps : List Part} (h : Confined ps m m')
    (hn : ∀ part ∈ ps, part.ofMemory = false) : m'.memory = m.memory := by
  have hagree : ∀ part : Part, part.ofMemory = true → m.Agree m' part := by
    intro part hpart
    apply h part
    intro hmem
    rw [hn part hmem] at hpart
    cases hpart
  have hstatic : m'.memory.static = m.memory.static :=
    Array.ext_getElem? fun i => hagree (.static i) rfl
  have hcells : m'.memory.outputCells = m.memory.outputCells :=
    Array.ext_getElem? fun i => hagree (.output i) rfl
  have hinput : m'.memory.input = m.memory.input := hagree .input rfl
  have hlength : m'.memory.outputLength = m.memory.outputLength := hagree .outputLength rfl
  calc m'.memory
    _ = ⟨m'.memory.static, m'.memory.input, m'.memory.outputCells, m'.memory.outputLength⟩ := rfl
    _ = m.memory := by rw [hstatic, hinput, hcells, hlength]

theorem ofMemory_of_mem_writes {i : Instruction} {part : Part} (h : part ∈ m.writes i)
    (hi : ∀ seg bank src addr, i ≠ .st seg bank src addr) : part.ofMemory = false := by
  cases i with
  | st seg bank src addr => exact absurd rfl (hi seg bank src addr)
  | _ =>
    dsimp only [writes] at h
    grind [Part.raised, Part.ofMemory]

theorem memory_of_execute (hx : execute host d m = .done flow m') :
    m'.memory = m.memory ∨ ∃ seg address bs, m.memory.admits seg address bs.length = true ∧
      m'.memory = m.memory.store seg address bs := by
  by_cases hi : ∃ seg bank src addr, d.instruction = .st seg bank src addr
  · obtain ⟨seg, bank, src, addr, hi⟩ := hi
    rw [execute, hi] at hx
    change m.storeRegister seg bank src (m.registers.a32 addr) = _ at hx
    rw [storeRegister_eq] at hx
    split_ifs at hx with ha
    cases hx
    exact .inr ⟨seg, _, _, ha, rfl⟩
  · have hconf := execute_confined host d m
    rw [hx] at hconf
    refine .inl (Confined.memory_eq hconf ?_)
    intro part hmem
    apply ofMemory_of_mem_writes hmem
    intro seg bank src addr he
    exact hi ⟨seg, bank, src, addr, he⟩

/-! ## One step -/

theorem Guarded.top_le (h : m.Guarded) : m.stack.top ≤ m.stack.capacity := by
  obtain ⟨fs, entry, hf, -⟩ := h.sound.unwinds
  exact hf.top_le

theorem Guarded.capacity_step (h : m.Guarded) (host : Resolver) :
    (m.step host).machine.stack.capacity = m.stack.capacity := by
  rcases h.step_cases host with hs | ⟨d, hs⟩
  · exact congrArg (fun c : Course => c.stack.capacity) hs.course
  · exact hs.move.capacity_eq

theorem Guarded.blank_step (h : m.Guarded) (hb : m.memory.Blank) (host : Resolver) :
    (m.step host).machine.memory.Blank := by
  by_cases hr : m.state.isHalted = true
  · rw [step_of_isHalted host hr]
    exact hb
  · have hstages := step_stages host h.sound (RunState.eq_running hr)
    generalize m.step host = r at hstages
    cases hstages with
    | ended | refused | faulted => exact hb
    | @settled d flow m' hd hc hx =>
      obtain ⟨pc, state, hm'⟩ := m'.settle_machine d.next flow m.control.failureCount
        [m.startEvent d] (m.lookup? d.instruction)
      rw [hm']
      change m'.memory.Blank
      rcases memory_of_execute hx with he | ⟨seg, address, bs, ha, he⟩
      · rw [he]
        exact hb
      · rw [he]
        exact hb.store ha

theorem Guarded.covered_step (h : m.Guarded) {limit : UInt64}
    (hl : m.control.limit = some limit) (hc : m.control.complexity ≤ limit) (host : Resolver) :
    (m.step host).machine.control.complexity ≤ limit := by
  by_cases hr : m.state.isHalted = true
  · rw [step_of_isHalted host hr]
    exact hc
  · cases h.accounts (RunState.eq_running hr) host with
    | ended hd he =>
      rw [he]
      exact hc
    | refused hd hc' he =>
      rw [he]
      exact hc
    | faulted hd hc' hf he =>
      rw [he]
      exact (Control.charge_eq_ok hc').2 limit hl
    | completed hd hc' hdone =>
      rw [hdone.complexity]
      exact (Control.charge_eq_ok hc').2 limit hl

/-- The flag, the count and the way the run has ended do not contradict each other. -/
structure Candid (m : Machine) : Prop where
  counted : m.control.failure = true → 1 ≤ m.control.failureCount.toNat
  succeeded : m.state = .succeeded → m.control.failure = false
  rejected : m.state = .failed .rejected → m.control.failure = true

theorem flag_of_execute (hm : m.control.failure = true → 1 ≤ m.control.failureCount.toNat)
    (hx : execute host d m = .done flow m') :
    (m'.control.failure = true → 1 ≤ m'.control.failureCount.toNat) ∧
      (m'.control.failureCount ≠ m.control.failureCount → m'.control.failure = true) := by
  by_cases hf : m.Fails d.instruction
  · rw [execute_of_fails host hf] at hx
    cases hx
    refine ⟨fun _ => ?_, fun _ => rfl⟩
    have hlt := m.control.failureCount.toNat_lt
    change 1 ≤ (Control.saturatingAdd m.control.failureCount 1).toNat
    rw [Control.toNat_saturatingAdd, UInt64.toNat_one]
    omega
  · obtain ⟨hcount, hflag⟩ := failures_of_not_fails hf hx
    refine ⟨?_, fun hne => absurd hcount hne⟩
    intro hset
    rw [hcount]
    exact hm (hflag hset)

theorem settle_state (m : Machine) (next : UInt16) (flow : Flow) (failures : UInt64)
    (events : List Event) (lookup : Option ProgramId) :
    let state := (m.settle next flow failures events lookup).machine.state
    state = .failed .rejected ∧ m.control.failureCount ≠ failures ∨ state = m.stopState ∨
      state = m.state := by
  unfold settle
  dsimp only
  by_cases hr : (m.control.failureCount != failures && m.control.autoHalt) = true
  · rw [if_pos hr]
    exact .inl ⟨rfl, bne_iff_ne.mp (Bool.and_eq_true_iff.mp hr).1⟩
  · rw [if_neg hr]
    cases flow.target? next with
    | none => exact .inr (.inl rfl)
    | some target => exact .inr (.inr rfl)

theorem Candid.step (h : m.Candid) (hg : m.Guarded) (host : Resolver) :
    (m.step host).machine.Candid := by
  by_cases hr : m.state.isHalted = true
  · rw [step_of_isHalted host hr]
    exact h
  · have hstages := step_stages host hg.sound (RunState.eq_running hr)
    generalize m.step host = r at hstages
    cases hstages with
    | ended | refused | faulted => exact ⟨h.counted, nofun, nofun⟩
    | @settled d flow m' hd hc hx =>
      have hexec : Executes host d (m.pay d.instruction.cost) _ := execute_spec hg.sound hd
      obtain ⟨hcounted, hmoved⟩ := flag_of_execute (m := m.pay d.instruction.cost) h.counted hx
      have hstate := m'.settle_state d.next flow m.control.failureCount [m.startEvent d]
        (m.lookup? d.instruction)
      have hcontrol := (m'.settles_settle d.next flow m.control.failureCount [m.startEvent d]
        (m.lookup? d.instruction)).control
      generalize m'.settle d.next flow m.control.failureCount [m.startEvent d]
        (m.lookup? d.instruction) = r at hstate hcontrol ⊢
      rw [hx] at hexec
      rcases hstate with ⟨hs, hne⟩ | hs | hs
      · -- A failure has halted the machine.
        refine ⟨?_, ?_, ?_⟩ <;> rw [hcontrol]
        · exact hcounted
        · rw [hs]
          nofun
        · exact fun _ => hmoved hne
      · -- The program has stopped, and the flag decides how.
        refine ⟨?_, ?_, ?_⟩ <;> rw [hcontrol]
        · exact hcounted
        · rw [hs, stopState]
          cases m'.control.failure <;> simp
        · rw [hs, stopState]
          cases m'.control.failure <;> simp
      · rw [hexec.state_eq, show (m.pay _).state = .running from RunState.eq_running hr] at hs
        refine ⟨?_, ?_, ?_⟩
        · rw [hcontrol]
          exact hcounted
        · rw [hs]
          nofun
        · rw [hs]
          nofun

/-! ## Whole runs -/

variable {hosts : Nat → Resolver} {m₀ : Machine} {p : Program} {code constants input : Bytes}
  {config : Config}

theorem stackCapacity_le_of_load (h : Machine.load p input config = .ok m₀) :
    config.stackCapacity ≤ 196608 := by
  simp only [load, checkCapacity, bind, Except.bind, throw, throwThe, MonadExceptOf.throw, pure,
    Except.pure] at h
  split_ifs at h with hi hs hc ho
  exact Nat.le_of_not_lt hc

theorem Guarded.capacity_after (h : m.Guarded) (hh : ∀ k, (hosts k).Genuine) (n : Nat) :
    (m.after hosts n).stack.capacity = m.stack.capacity := by
  induction n with
  | zero => rfl
  | succ n ih => exact ((h.after hh n).capacity_step (hosts n)).trans ih

theorem Guarded.blank_after (h : m.Guarded) (hh : ∀ k, (hosts k).Genuine) (hb : m.memory.Blank)
    (n : Nat) : (m.after hosts n).memory.Blank := by
  induction n with
  | zero => exact hb
  | succ n ih => exact (h.after hh n).blank_step ih (hosts n)

theorem Guarded.covered_after (h : m.Guarded) (hh : ∀ k, (hosts k).Genuine) {limit : UInt64}
    (hl : m.control.limit = some limit) (hc : m.control.complexity ≤ limit) (n : Nat) :
    (m.after hosts n).control.complexity ≤ limit := by
  induction n with
  | zero => exact hc
  | succ n ih =>
    exact (h.after hh n).covered_step ((limit_after hosts m n).trans hl) ih (hosts n)

theorem Guarded.candid_after (h : m.Guarded) (hh : ∀ k, (hosts k).Genuine) (hc : m.Candid)
    (n : Nat) : (m.after hosts n).Candid := by
  induction n with
  | zero => exact hc
  | succ n ih => exact ih.step (h.after hh n) (hosts n)

/-- What holds at every point of a run that was started with a configuration and an input. -/
structure Consistent (config : Config) (input : Bytes) (m : Machine) : Prop where
  pointer : m.control.stackPointer.toNat = m.stack.top
  top_le : m.stack.top ≤ m.stack.capacity
  capacity : m.stack.capacity = config.stackCapacity
  capacity_le : m.stack.capacity ≤ 196608
  limit : m.control.limit = config.complexityLimit
  covered : ∀ limit, m.control.limit = some limit → m.control.complexity ≤ limit
  counted : m.control.failure = true → 1 ≤ m.control.failureCount.toNat
  image : m.registers.image.size = 8608
  static : m.memory.static.size = config.staticCapacity
  output : m.memory.outputCells.size = config.outputCapacity
  length_le : m.memory.outputLength ≤ config.outputCapacity
  blank : ∀ i, m.memory.outputLength ≤ i → i < config.outputCapacity →
    m.memory.outputCells[i]? = some 0
  input : m.memory.input.toList = input
  succeeded : m.state = .succeeded → m.control.failure = false
  rejected : m.state = .failed .rejected →
    m.control.failure = true ∧ 1 ≤ m.control.failureCount.toNat

/-- Every machine that a run comes to is consistent with how the run was started, also when it
has halted. -/
theorem consistent_throughout (hp : Program.load code constants = .ok p)
    (hm : Machine.load p input config = .ok m₀) (hh : ∀ k, (hosts k).Genuine) (n : Nat) :
    (m₀.after hosts n).Consistent config input := by
  have hg := guarded_load hp hm
  have hstart := load_eq_ok hm
  have hbound := stackCapacity_le_of_load hm
  have hkept : ∀ part : Part, part.fixed = true → m₀.Agree (m₀.after hosts n) part :=
    fun part h => agree_after_of_fixed hp hm hh h n
  have hblank : (m₀.after hosts n).memory.Blank := by
    apply hg.blank_after hh
    rw [hstart]
    exact Memory.blank_initial _ _ _
  have hcandid : (m₀.after hosts n).Candid := by
    apply hg.candid_after hh
    rw [hstart]
    exact ⟨nofun, nofun, nofun⟩
  have hcapacity : (m₀.after hosts n).stack.capacity = config.stackCapacity := by
    rw [hg.capacity_after hh, hstart]
    exact Region.size_zeros _
  have hlimit : (m₀.after hosts n).control.limit = config.complexityLimit := by
    rw [limit_after, hstart]
    rfl
  have houtput : (m₀.after hosts n).memory.outputCells.size = config.outputCapacity := by
    rw [show _ = m₀.memory.outputCells.size from hkept .outputSize rfl, hstart]
    exact Region.size_zeros _
  have htop := (hg.after hh n).top_le
  refine
    { pointer := ?_, top_le := htop, capacity := hcapacity, capacity_le := ?_, limit := hlimit
      covered := ?_, counted := hcandid.counted, image := (m₀.after hosts n).registers.size_image
      static := ?_, output := houtput, length_le := ?_, blank := ?_, input := ?_
      succeeded := hcandid.succeeded, rejected := ?_ }
  · rw [mirrored_after hp hm hh n]
    apply UInt32.toNat_ofNat_of_lt'
    exact Nat.lt_of_le_of_lt (Nat.le_trans htop (hcapacity ▸ hbound)) (by decide)
  · rw [hcapacity]
    exact hbound
  · intro limit hl
    apply hg.covered_after hh
    · rw [← limit_after hosts m₀ n]
      exact hl
    · rw [hstart]
      exact UInt64.zero_le
  · rw [show _ = m₀.memory.static.size from hkept .staticSize rfl, hstart]
    exact Region.size_zeros _
  · rw [← houtput]
    exact hblank.length_le
  · rw [← houtput]
    exact hblank.zero
  · rw [show _ = m₀.memory.input from hkept .input rfl, hstart]
    rfl
  · intro hs
    exact ⟨hcandid.rejected hs, hcandid.counted (hcandid.rejected hs)⟩

/-- A byte is put out and the program then fails: the run is rejected with a failure counted, and
the cell behind the output is still empty. -/
theorem consistent_throughout_rejection :
    ∃ p m₀, Program.load [0x10, 0, 1, 7, 0x17, 3, 0, 1, 0, 2, 1] [] = .ok p ∧
      Machine.load p [5] { outputCapacity := 2, stackCapacity := 3 } = .ok m₀ ∧
      let m := m₀.after (fun _ => Resolver.none) 4
      m.state = .failed .rejected ∧ m.memory.outputLength = 1 ∧
        m.control.failure = true ∧ 1 ≤ m.control.failureCount.toNat ∧
        m.memory.outputCells[1]? = some 0 ∧ m.memory.input.toList = [5] ∧
        m.control.stackPointer.toNat = m.stack.top := by
  obtain ⟨p, m₀, hp, hm, hs, hl⟩ :
      ∃ p m₀, Program.load [0x10, 0, 1, 7, 0x17, 3, 0, 1, 0, 2, 1] [] = .ok p ∧
        Machine.load p [5] { outputCapacity := 2, stackCapacity := 3 } = .ok m₀ ∧
        (m₀.after (fun _ => Resolver.none) 4).state = .failed .rejected ∧
        (m₀.after (fun _ => Resolver.none) 4).memory.outputLength = 1 := by
    exact ⟨_, _, rfl, rfl, by decide +kernel⟩
  have h := consistent_throughout hp hm (fun _ => Resolver.genuine_none) 4
  obtain ⟨hflag, hcount⟩ := h.rejected hs
  exact ⟨p, m₀, hp, hm, hs, hl, hflag, hcount, h.blank 1 (Nat.le_of_eq hl) (by decide), h.input,
    h.pointer⟩

end Machine

end VerdictMachine

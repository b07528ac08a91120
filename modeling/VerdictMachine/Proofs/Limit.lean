import VerdictMachine.Proofs.Metering

/-!
# A limit truncates a run

No instruction reads or writes the complexity limit; only the charge before it
consults it. So a machine under a limit and one without do the same, step by
step, for as long as the limit covers what the one without has spent. At the
first price that goes beyond, the machine under the limit halts as it is.

`withLimit` exchanges the limit of a machine. What each operation does commutes
with it, and from a step this carries over to whole runs.
-/

set_option autoImplicit false

namespace VerdictMachine

namespace Control

variable {c : Control} {limit cost : UInt64}

def withLimit (c : Control) (limit : Option UInt64) : Control := { c with limit := limit }

theorem charge_withLimit_of_le (hc : c.limit = none)
    (h : saturatingAdd c.complexity cost ≤ limit) :
    (c.withLimit (some limit)).charge cost = (c.charge cost).map (·.withLimit (some limit)) := by
  have hnone : c.charge cost = .ok { c with complexity := saturatingAdd c.complexity cost } := by
    rw [charge, hc]
  rw [hnone]
  exact if_neg (UInt64.not_lt.mpr h)

theorem charge_withLimit_of_lt (h : limit < saturatingAdd c.complexity cost) :
    (c.withLimit (some limit)).charge cost = .error .complexityLimitExceeded :=
  if_pos h

theorem recordCycle_withLimit (c : Control) (limit : Option UInt64) :
    (c.withLimit limit).recordCycle = c.recordCycle.map (·.withLimit limit) := by
  change (if c.cycles = 65535 then _ else _) = _
  unfold recordCycle
  by_cases hc : c.cycles = 65535
  · rw [if_pos hc, if_pos hc]
    rfl
  · rw [if_neg hc, if_neg hc]
    rfl

end Control

/-- The machine with another limit in place of its own. -/
def Machine.withLimit (m : Machine) (limit : Option UInt64) : Machine :=
  { m with control := m.control.withLimit limit }

def Effect.withLimit (limit : Option UInt64) : Effect → Effect
  | .done flow m => .done flow (m.withLimit limit)
  | .fault f m => .fault f (m.withLimit limit)

def Report.withLimit (r : Report) (limit : Option UInt64) : Report :=
  { r with machine := r.machine.withLimit limit }

def Run.withLimit (r : Run) (limit : Option UInt64) : Run :=
  { r with machine := r.machine.withLimit limit }

namespace Machine

variable {host : Resolver} {m : Machine} {limit : Option UInt64}

@[simp] theorem withLimit_program : (m.withLimit limit).program = m.program := rfl

@[simp] theorem withLimit_libraries : (m.withLimit limit).libraries = m.libraries := rfl

@[simp] theorem withLimit_registers : (m.withLimit limit).registers = m.registers := rfl

@[simp] theorem withLimit_memory : (m.withLimit limit).memory = m.memory := rfl

@[simp] theorem withLimit_stack : (m.withLimit limit).stack = m.stack := rfl

@[simp] theorem recordCycle_withLimit : (m.withLimit limit).control.recordCycle =
    m.control.recordCycle.map (·.withLimit limit) :=
  m.control.recordCycle_withLimit limit

theorem load_withLimit (p : Program) (input : Bytes) (config : Config) (limit : Option UInt64) :
    Machine.load p input { config with complexityLimit := limit } =
      (Machine.load p input config).map (·.withLimit limit) := by
  unfold load
  by_cases hi : Segment.input.limit < input.length
  · simp only [if_pos hi]
    rfl
  · simp only [if_neg hi]
    cases checkCapacity .static config.staticCapacity <;>
      cases checkCapacity .callStack config.stackCapacity <;>
      cases checkCapacity .output config.outputCapacity <;> rfl

theorem loadRegister_withLimit (seg : Segment) (bank : Bank) (dst : Register) (address : UInt32) :
    (m.withLimit limit).loadRegister seg bank dst address =
      (m.loadRegister seg bank dst address).withLimit limit := by
  simp only [loadRegister, withLimit_program, withLimit_memory]
  cases m.memory.read m.program.constants seg address bank.bytes <;> rfl

theorem storeRegister_withLimit (seg : Segment) (bank : Bank) (src : Register) (address : UInt32) :
    (m.withLimit limit).storeRegister seg bank src address =
      (m.storeRegister seg bank src address).withLimit limit := by
  simp only [storeRegister, withLimit_registers, withLimit_memory]
  cases m.memory.write seg address (m.registers.slot bank src) <;> rfl

theorem hashRange_withLimit (seg : Segment) (dst addr size : Register) :
    (m.withLimit limit).hashRange seg dst addr size =
      (m.hashRange seg dst addr size).withLimit limit := by
  simp only [hashRange, withLimit_program, withLimit_registers, withLimit_memory]
  split <;> rfl

theorem demand_withLimit (valid : Bool) :
    (m.withLimit limit).demand valid = (m.demand valid).withLimit limit := by
  cases valid <;> rfl

theorem demandMerkle_withLimit (root leaf : Register) (seg : Segment) (address : UInt32) :
    (m.withLimit limit).demandMerkle root leaf seg address =
      (m.demandMerkle root leaf seg address).withLimit limit := by
  have hm : (m.withLimit limit).merkleHolds root leaf seg address =
      m.merkleHolds root leaf seg address := rfl
  unfold demandMerkle
  rw [hm]
  cases m.merkleHolds root leaf seg address with
  | error f => rfl
  | ok valid => exact congrArg (Effect.done .next) (demand_withLimit valid)

theorem arith_withLimit (op : IntOp) (signed : Bool) (bank : IntBank) (dst a b : Register) :
    (m.withLimit limit).arith op signed bank dst a b =
      (m.arith op signed bank dst a b).withLimit limit := by
  have hw : ∀ r, (m.withLimit limit).word bank r = m.word bank r := fun _ => rfl
  unfold arith
  rw [hw, hw]
  cases op.apply (m.word bank a) (m.word bank b) signed <;> rfl

theorem shift_withLimit (op : ShiftOp) (bank : IntBank) (dst src amount : Register) :
    (m.withLimit limit).shift op bank dst src amount =
      (m.shift op bank dst src amount).withLimit limit := by
  cases op <;> rfl

theorem jump_withLimit (guard : Option Condition) (target : Option UInt16) :
    (m.withLimit limit).jump guard target = (m.jump guard target).withLimit limit := by
  unfold jump
  rw [recordCycle_withLimit]
  dsimp only [withLimit, Control.withLimit]
  split_ifs
  · rfl
  · cases target with
    | none => rfl
    | some t => cases m.control.recordCycle <;> rfl

theorem pushFrame_withLimit (frame : Frame) (flow : Flow) :
    (m.withLimit limit).pushFrame frame flow = (m.pushFrame frame flow).withLimit limit := by
  simp only [pushFrame, withLimit_stack, recordCycle_withLimit]
  by_cases hf : (!m.stack.fits frame) = true
  · rw [if_pos hf, if_pos hf]
    rfl
  · rw [if_neg hf, if_neg hf]
    cases m.control.recordCycle with
    | error f => rfl
    | ok control => cases m.stack.push frame <;> rfl

theorem callLibrary_withLimit (library : ProgramId) (entry ret : UInt16) :
    (m.withLimit limit).callLibrary host library entry ret =
      (m.callLibrary host library entry ret).withLimit limit := by
  have hr : (m.withLimit limit).resolve host library = m.resolve host library := rfl
  unfold callLibrary
  rw [hr]
  cases m.resolve host library with
  | error f => rfl
  | ok p =>
    dsimp only
    split_ifs
    · rfl
    · rw [withLimit_program, pushFrame_withLimit]
      cases m.pushFrame (.library m.program.id ret) (.enter library entry) <;> rfl

theorem returnTo_withLimit (frame : Frame) :
    (m.withLimit limit).returnTo frame = (m.returnTo frame).withLimit limit := by
  cases frame with
  | plain ret => rfl
  | library caller ret =>
    simp only [returnTo, withLimit_libraries]
    cases m.libraries.find? caller <;> rfl

theorem ret_withLimit : (m.withLimit limit).ret = m.ret.withLimit limit := by
  simp only [ret, withLimit_stack, recordCycle_withLimit]
  by_cases he : m.stack.isEmpty = true
  · rw [if_pos he, if_pos he]
    rfl
  · rw [if_neg he, if_neg he]
    cases m.control.recordCycle with
    | error f => rfl
    | ok control =>
      dsimp only [Except.map]
      cases m.stack.pop with
      | error f => rfl
      | ok popped =>
        exact returnTo_withLimit (m := { m with control := control, stack := popped.2 }) popped.1

/-- No instruction looks at the limit. -/
theorem execute_withLimit (host : Resolver) (d : Decoded) (m : Machine) (limit : Option UInt64) :
    execute host d (m.withLimit limit) = (execute host d m).withLimit limit := by
  unfold execute
  cases d.instruction with
  | jump guard dest => exact jump_withLimit guard d.localTarget
  | call t => exact pushFrame_withLimit _ _
  | callLib id entry => exact callLibrary_withLimit id entry d.next
  | ret => exact ret_withLimit
  | ldc | ld => exact loadRegister_withLimit _ _ _ _
  | st => exact storeRegister_withLimit _ _ _ _
  | sha3Mem => exact hashRange_withLimit _ _ _ _
  | verifyMerkle => exact demandMerkle_withLimit _ _ _ _
  | arith => exact congrArg (Effect.done .next) (arith_withLimit _ _ _ _ _ _)
  | shift => exact congrArg (Effect.done .next) (shift_withLimit _ _ _ _ _)
  | verifySchnorr | verifyEcdsa => exact congrArg (Effect.done .next) (demand_withLimit _)
  | _ => rfl

theorem settle_withLimit (next : UInt16) (flow : Flow) (failures : UInt64) (events : List Event)
    (lookup : Option ProgramId) :
    (m.withLimit limit).settle next flow failures events lookup =
      (m.settle next flow failures events lookup).withLimit limit := by
  unfold settle
  dsimp only [withLimit, Control.withLimit]
  split_ifs
  · rfl
  · rfl
  · cases flow.target? next <;> rfl
  · cases flow.target? next <;> rfl

theorem conclude_withLimit (next : UInt16) (failures : UInt64) (events : List Event)
    (lookup : Option ProgramId) (e : Effect) :
    conclude next failures events lookup (e.withLimit limit) =
      (conclude next failures events lookup e).withLimit limit := by
  cases e with
  | fault f m => rfl
  | done flow m => exact settle_withLimit next flow failures events lookup

/-- A step that is charged the same under another limit is the same step. -/
theorem step_withLimit (host : Resolver) (m : Machine) (limit : Option UInt64)
    (h : ∀ d, m.state = .running → Instruction.decode m.program.code m.pc = .ok d →
      (m.control.withLimit limit).charge d.instruction.cost =
        (m.control.charge d.instruction.cost).map (·.withLimit limit)) :
    (m.withLimit limit).step host = (m.step host).withLimit limit := by
  by_cases hh : m.state.isHalted = true
  · rw [show m.step host = _ from if_pos hh]
    exact if_pos hh
  · have hr := RunState.eq_running hh
    cases hd : Instruction.decode m.program.code m.pc with
    | error e =>
      rw [step_of_decode_error host hr hd]
      exact step_of_decode_error host hr hd
    | ok d =>
      have hcharge := h d hr hd
      cases hc : m.control.charge d.instruction.cost with
      | error f =>
        rw [hc] at hcharge
        rw [step_of_charge_error host hr hd hc]
        exact step_of_charge_error host hr hd hcharge
      | ok control =>
        rw [hc] at hcharge
        rw [step_of_decode host hr hd hc, ← conclude_withLimit, ← execute_withLimit]
        exact step_of_decode host hr hd hcharge

/-- No step changes the limit: to set it to what it was changes nothing after the step either. -/
theorem limit_step (host : Resolver) (m : Machine) :
    (m.step host).machine.control.limit = m.control.limit := by
  have h := step_withLimit host m m.control.limit ?_
  · exact congrArg (·.machine.control.limit) h
  · intro d _ _
    cases hc : m.control.charge d.instruction.cost with
    | error f => exact hc
    | ok control =>
      obtain ⟨rfl, -⟩ := Control.charge_eq_ok hc
      exact hc

theorem limit_after (hosts : Nat → Resolver) (m : Machine) (n : Nat) :
    (m.after hosts n).control.limit = m.control.limit := by
  induction n with
  | zero => rfl
  | succ n ih => rw [after, limit_step, ih]

/-- Without a limit every instruction is paid for. -/
theorem Accounts.complexity_of_decode {r : Report} {d : Decoded} (h : Accounts m r)
    (hl : m.control.limit = none) (hd : Instruction.decode m.program.code m.pc = .ok d) :
    r.machine.control.complexity =
      Control.saturatingAdd m.control.complexity d.instruction.cost := by
  cases h with
  | ended hd' =>
    rw [hd] at hd'
    cases hd'
  | refused hd' hc =>
    rw [Control.charge, hl] at hc
    cases hc
  | faulted hd' hc hf hr =>
    obtain rfl := Except.ok.inj (hd.symm.trans hd')
    rw [hr]
    rfl
  | completed hd' hc h =>
    obtain rfl := Except.ok.inj (hd.symm.trans hd')
    exact h.complexity

theorem Accounts.complexity_le {r : Report} (h : Accounts m r) :
    m.control.complexity ≤ r.machine.control.complexity := by
  rcases h.charged with ⟨-, -, hc⟩ | ⟨d, -, -, ⟨-, hc⟩ | ⟨-, hc⟩⟩
  · exact UInt64.le_of_eq hc.symm
  · exact UInt64.le_of_eq hc.symm
  · have hlt := m.control.complexity.toNat_lt
    rw [hc, UInt64.le_iff_toNat_le, Control.toNat_saturatingAdd]
    omega

theorem Guarded.complexity_le_step (h : m.Guarded) (host : Resolver) :
    m.control.complexity ≤ (m.step host).machine.control.complexity := by
  by_cases hr : m.state.isHalted = true
  · rw [step_of_isHalted host hr]
    exact UInt64.le_refl _
  · exact (h.accounts (RunState.eq_running hr) host).complexity_le

theorem Guarded.step_withLimit_of_le {limit : UInt64} (h : m.Guarded)
    (hl : m.control.limit = none) (hc : (m.step host).machine.control.complexity ≤ limit) :
    (m.withLimit (some limit)).step host = (m.step host).withLimit (some limit) := by
  apply step_withLimit
  intro d hr hd
  apply Control.charge_withLimit_of_le hl
  rw [← (h.accounts hr host).complexity_of_decode hl hd]
  exact hc

/-- An instruction that the limit does not cover halts the machine where it is. -/
theorem step_withLimit_of_lt {limit : UInt64} {d : Decoded} (host : Resolver)
    (hr : m.state = .running) (hd : Instruction.decode m.program.code m.pc = .ok d)
    (h : limit < Control.saturatingAdd m.control.complexity d.instruction.cost) :
    (m.withLimit (some limit)).step host =
      (m.withLimit (some limit)).haltWith (.failed (.runtime .complexityLimitExceeded))
        [m.startEvent d] none :=
  step_of_charge_error host hr hd (Control.charge_withLimit_of_lt h)

end Machine

namespace Run

variable {hosts : Nat → Resolver} {limit : UInt64}

theorem ofMachine_withLimit (m : Machine) (limit : Option UInt64) :
    ofMachine (m.withLimit limit) = (ofMachine m).withLimit limit := rfl

theorem complete_eq_after (host : Resolver) (r : Run) :
    complete host r = r.after (fun _ => host) maxSteps :=
  advance_eq_after host maxSteps r

theorem machine_complete (host : Resolver) (m : Machine) :
    (complete host (ofMachine m)).machine = m.after (fun _ => host) maxSteps :=
  machine_advance host maxSteps (ofMachine m)

/-- Up to where the limit is passed, the run under it is the one without it. -/
theorem after_withLimit (r : Run) (hg : r.machine.Guarded) (hl : r.machine.control.limit = none)
    (hh : ∀ k, (hosts k).Genuine) (n : Nat)
    (hc : (r.after hosts n).machine.control.complexity ≤ limit) :
    (r.withLimit (some limit)).after hosts n = (r.after hosts n).withLimit (some limit) := by
  induction n with
  | zero => rfl
  | succ n ih =>
    have hgn : (r.after hosts n).machine.Guarded := by
      rw [machine_after]
      exact hg.after hh n
    have hln : (r.after hosts n).machine.control.limit = none := by
      rw [machine_after, Machine.limit_after, hl]
    rw [after, machine_step] at hc
    rw [after, ih (UInt64.le_trans (hgn.complexity_le_step (hosts n)) hc), after]
    exact congrArg (record _ _) (hgn.step_withLimit_of_le hln hc)

end Run

namespace Machine

variable {hosts : Nat → Resolver} {m u : Machine} {limit : UInt64} {p : Program}
  {code constants input : Bytes} {config : Config}

theorem after_withLimit (hg : m.Guarded) (hl : m.control.limit = none)
    (hh : ∀ k, (hosts k).Genuine) (n : Nat)
    (hc : (m.after hosts n).control.complexity ≤ limit) :
    (m.withLimit (some limit)).after hosts n = (m.after hosts n).withLimit (some limit) := by
  have hm : ((Run.ofMachine m).after hosts n).machine = m.after hosts n :=
    Run.machine_after hosts (Run.ofMachine m) n
  calc (m.withLimit (some limit)).after hosts n
    _ = (((Run.ofMachine m).withLimit (some limit)).after hosts n).machine :=
      (Run.machine_after hosts ((Run.ofMachine m).withLimit (some limit)) n).symm
    _ = ((Run.ofMachine m).after hosts n).machine.withLimit (some limit) :=
      congrArg Run.machine (Run.after_withLimit (Run.ofMachine m) hg hl hh n (by rw [hm]; exact hc))
    _ = (m.after hosts n).withLimit (some limit) := by rw [hm]

/-- A price above what is left of the limit goes beyond it, also where the limit is the largest
number of all. -/
theorem Unsaturated.lt_charge (h : m.Unsaturated) {i : Instruction}
    (hi : limit.toNat - m.control.complexity.toNat < i.cost.toNat) :
    limit < Control.saturatingAdd m.control.complexity i.cost := by
  rw [UInt64.lt_iff_toNat_lt, h.charge]
  omega

/-- A meter that ends beyond the limit has passed it in one of the steps. -/
theorem exists_crossing (h₀ : m.control.complexity ≤ limit) (n : Nat)
    (h : limit < (m.after hosts n).control.complexity) :
    ∃ k, k < n ∧ (m.after hosts k).control.complexity ≤ limit ∧
      limit < (m.after hosts (k + 1)).control.complexity := by
  induction n with
  | zero => exact absurd h (UInt64.not_lt.mpr h₀)
  | succ n ih =>
    by_cases hn : limit < (m.after hosts n).control.complexity
    · obtain ⟨k, hk, hcross⟩ := ih hn
      exact ⟨k, Nat.lt_succ_of_lt hk, hcross⟩
    · exact ⟨n, Nat.lt_succ_self n, UInt64.not_lt.mp hn, h⟩

/-- A step that takes the meter past `limit` pays for an instruction. -/
theorem Guarded.exists_decode_of_lt {host : Resolver} (hg : m.Guarded)
    (hle : m.control.complexity ≤ limit)
    (hlt : limit < (m.step host).machine.control.complexity) :
    m.state = .running ∧ ∃ d, Instruction.decode m.program.code m.pc = .ok d ∧
      limit < Control.saturatingAdd m.control.complexity d.instruction.cost := by
  have hne : (m.step host).machine.control.complexity ≠ m.control.complexity := by
    intro he
    rw [he] at hlt
    exact UInt64.not_lt.mpr hle hlt
  have hr : m.state = .running := by
    apply RunState.eq_running
    intro hh
    exact hne (by rw [step_of_isHalted host hh])
  refine ⟨hr, ?_⟩
  rcases (hg.accounts hr host).charged with ⟨-, -, hc⟩ | ⟨d, hd, -, ⟨-, hc⟩ | ⟨-, hc⟩⟩
  · exact absurd hc hne
  · exact absurd hc hne
  · rw [hc] at hlt
    exact ⟨d, hd, hlt⟩

theorem after_withLimit_of_lt (hg : m.Guarded) (hl : m.control.limit = none)
    (hh : ∀ k, (hosts k).Genuine) (h₀ : m.control.complexity ≤ limit) (n : Nat)
    (h : limit < (m.after hosts n).control.complexity) :
    ((m.withLimit (some limit)).after hosts n).state =
      .failed (.runtime .complexityLimitExceeded) := by
  obtain ⟨k, hk, hle, hlt⟩ := exists_crossing h₀ n h
  obtain ⟨hr, d, hd, hover⟩ := (hg.after hh k).exists_decode_of_lt hle hlt
  have hstate : ((m.withLimit (some limit)).after hosts (k + 1)).state =
      .failed (.runtime .complexityLimitExceeded) := by
    rw [after, after_withLimit hg hl hh k hle, step_withLimit_of_lt (hosts k) hr hd hover]
    rfl
  rw [after_of_le (Nat.succ_le_of_lt hk) (by rw [hstate]; rfl), hstate]

/-- A complete run is the same under every limit that covers all of it. -/
theorem complete_withLimit (hg : m.Guarded) (hl : m.control.limit = none) {host : Resolver}
    (hh : host.Genuine)
    (hc : (Run.complete host (Run.ofMachine m)).machine.control.complexity ≤ limit) :
    Run.complete host (Run.ofMachine (m.withLimit (some limit))) =
      (Run.complete host (Run.ofMachine m)).withLimit (some limit) := by
  rw [Run.ofMachine_withLimit]
  rw [Run.complete_eq_after] at hc
  rw [Run.complete_eq_after, Run.complete_eq_after]
  exact Run.after_withLimit (Run.ofMachine m) hg hl (fun _ => hh) _ hc

/-- It ends for the limit under every other. -/
theorem complete_withLimit_of_lt (hg : m.Guarded) (hl : m.control.limit = none)
    (h₀ : m.control.complexity ≤ limit) {host : Resolver} (hh : host.Genuine)
    (hc : limit < (Run.complete host (Run.ofMachine m)).machine.control.complexity) :
    (Run.complete host (Run.ofMachine (m.withLimit (some limit)))).machine.state =
      .failed (.runtime .complexityLimitExceeded) := by
  rw [Run.machine_complete] at hc ⊢
  exact after_withLimit_of_lt hg hl (fun _ => hh) h₀ _ hc

/-- A limit only truncates a run. As long as it covers what the run without it has spent, the
two are the same but for the limit, in their records too. An instruction that would go beyond it
halts the machine where it is. So a complete run is the same under every limit that covers all of
it, and ends for the limit under every other. -/
theorem limit_truncates (hp : Program.load code constants = .ok p)
    (hu : Machine.load p input { config with complexityLimit := none } = .ok u) (limit : UInt64) :
    ∃ m, Machine.load p input { config with complexityLimit := some limit } = .ok m ∧
      (∀ hosts : Nat → Resolver, (∀ k, (hosts k).Genuine) → ∀ k,
        let free := (Run.ofMachine u).after hosts k
        let spent := free.machine.control.complexity
        let held := (Run.ofMachine m).after hosts
        spent ≤ limit →
          held k = free.withLimit (some limit) ∧
          ∀ d, free.machine.state = .running →
            Instruction.decode free.machine.program.code free.machine.pc = .ok d →
            limit.toNat - spent.toNat < d.instruction.cost.toNat →
            (held (k + 1)).machine = { (held k).machine with
              state := .failed (.runtime .complexityLimitExceeded) } ∧
            ∃ count used, (held (k + 1)).machine.verdict? =
              some (.failure (.runtime .complexityLimitExceeded) count spent used)) ∧
      ∀ host : Resolver, host.Genuine →
        let free := Run.complete host (Run.ofMachine u)
        let held := Run.complete host (Run.ofMachine m)
        free.machine.state.isHalted = true ∧
        (free.machine.control.complexity ≤ limit → held = free.withLimit (some limit)) ∧
        (limit < free.machine.control.complexity →
          held.machine.state = .failed (.runtime .complexityLimitExceeded)) := by
  have hg : u.Guarded := guarded_load hp hu
  have hstart := load_eq_ok hu
  have hl : u.control.limit = none := by
    rw [hstart]
    rfl
  have h₀ : u.control.complexity ≤ limit := by
    rw [hstart]
    exact UInt64.zero_le
  refine ⟨u.withLimit (some limit), ?_, ?_, ?_⟩
  · have hm := load_withLimit p input { config with complexityLimit := none } (some limit)
    rw [hu] at hm
    exact hm
  · intro hosts hh k free spent held hc
    have hsame : held k = free.withLimit (some limit) :=
      Run.after_withLimit (Run.ofMachine u) hg hl hh k hc
    refine ⟨hsame, ?_⟩
    intro d hr hd hcost
    have hunsat : free.machine.Unsaturated := by
      rw [show free.machine = u.after hosts k from Run.machine_after hosts _ k]
      exact unsaturated_after hp hu hh k
    have hover : limit < Control.saturatingAdd spent d.instruction.cost := hunsat.lt_charge hcost
    have hstep : (held (k + 1)).machine = { (held k).machine with
        state := .failed (.runtime .complexityLimitExceeded) } := by
      change ((held k).step (hosts k)).machine = _
      rw [Run.machine_step, hsame]
      exact congrArg Report.machine (step_withLimit_of_lt (hosts k) hr hd hover)
    refine ⟨hstep, ?_⟩
    rw [hstep, hsame]
    exact ⟨_, _, rfl⟩
  · intro host hh free held
    have hhalted : free.machine.state.isHalted = true := by
      rw [show free.machine = _ from Run.machine_complete host u]
      exact hg.isHalted_after fun _ => hh
    exact ⟨hhalted, complete_withLimit hg hl hh, complete_withLimit_of_lt hg hl h₀ hh⟩

/-- Three instructions at one each, under a limit of two: the third is refused. -/
theorem limit_truncates_third :
    ∃ p u m, Program.load [0, 0, 1] [] = .ok p ∧ Machine.load p [] {} = .ok u ∧
      Machine.load p [] { complexityLimit := some 2 } = .ok m ∧
      let free := (Run.ofMachine u).after (fun _ => Resolver.none)
      let held := (Run.ofMachine m).after (fun _ => Resolver.none)
      held 2 = (free 2).withLimit (some 2) ∧
        (held 3).machine = { (held 2).machine with
          state := .failed (.runtime .complexityLimitExceeded) } ∧
        (free 3).machine.state = .succeeded ∧
        (Run.complete Resolver.none (Run.ofMachine m)).machine.state =
          .failed (.runtime .complexityLimitExceeded) := by
  obtain ⟨p, u, hp, hu, hc, hr, hd, hs, hover⟩ :
      ∃ p u, Program.load [0, 0, 1] [] = .ok p ∧ Machine.load p [] {} = .ok u ∧
        ((Run.ofMachine u).after (fun _ => Resolver.none) 2).machine.control.complexity = 2 ∧
        ((Run.ofMachine u).after (fun _ => Resolver.none) 2).machine.state = .running ∧
        Instruction.decode
          ((Run.ofMachine u).after (fun _ => Resolver.none) 2).machine.program.code
          ((Run.ofMachine u).after (fun _ => Resolver.none) 2).machine.pc = .ok ⟨.stop, 2, 3⟩ ∧
        ((Run.ofMachine u).after (fun _ => Resolver.none) 3).machine.state = .succeeded ∧
        2 < ((Run.ofMachine u).after (fun _ => Resolver.none) 3).machine.control.complexity := by
    refine ⟨_, _, rfl, rfl, ?_, ?_, ?_, ?_, ?_⟩ <;> decide +kernel
  obtain ⟨m, hm, hsteps, hends⟩ := @limit_truncates u p _ _ _ {} hp hu 2
  obtain ⟨hsame, hrefused⟩ := hsteps (fun _ => Resolver.none) (fun _ => Resolver.genuine_none) 2
    (by rw [hc]; exact UInt64.le_refl 2)
  obtain ⟨hhalt, -⟩ := hrefused _ hr hd (by rw [hc]; decide)
  obtain ⟨-, -, hend⟩ := hends Resolver.none Resolver.genuine_none
  refine ⟨p, u, m, hp, hu, hm, hsame, hhalt, hs, hend ?_⟩
  rw [← Run.advance_eq_after] at hs hover
  rw [Run.complete, Run.advance_of_le (show 3 ≤ Run.maxSteps by decide) (by rw [hs]; rfl)]
  exact hover

end Machine

end VerdictMachine

import VerdictMachine.Proofs.Termination

/-!
# What a step charges and records

Four things can happen in a step of a running machine: the code has ended, the
charge is refused, the instruction faults, or it completes. The first three
halt the machine and leave all of it alone but for what was charged. A completed
instruction has its start on record, and beside it the transfer it took and the
failure it raised, each with the count that the machine then shows.

A run is short and no instruction is dear, so neither meter comes near the end
of its range. What saturates in the definitions is therefore plain addition.
-/

set_option autoImplicit false

namespace VerdictMachine

theorem Instruction.cost_le (i : Instruction) : i.cost.toNat ≤ 20000 := by
  unfold cost
  cases i.costClass <;> decide

/-- An instruction start on record. -/
structure Start where
  program : ProgramId
  pc : UInt16
  op : Opcode
  deriving DecidableEq

namespace Event

def start? : Event → Option Start
  | .started program pc op => some ⟨program, pc, op⟩
  | _ => none

def transfer? : Event → Option UInt16
  | .transferred _ _ cycles => some cycles
  | _ => none

def failure? : Event → Option UInt64
  | .failureRaised _ count => some count
  | _ => none

end Event

theorem Flow.transfer?_events {flow : Flow} {next t : UInt16} (hn : flow ≠ .next)
    (ht : flow.target? next = some t) (pc cycles : UInt16) :
    (flow.events pc cycles).filterMap Event.transfer? = [cycles] := by
  cases flow with
  | next => exact absurd rfl hn
  | halt => cases ht
  | jump target => rfl
  | enter library entry => rfl
  | leave caller ret => rfl

namespace Machine

variable {host : Resolver} {d : Decoded} {m : Machine} {r : Report}

def pay (m : Machine) (cost : UInt64) : Machine :=
  { m with control :=
    { m.control with complexity := Control.saturatingAdd m.control.complexity cost } }

/-- The next step executes this instruction: the machine runs, has come to it and can pay. -/
structure Performs (m : Machine) (d : Decoded) : Prop where
  running : m.state = .running
  decoded : Instruction.decode m.program.code m.pc = .ok d
  paid : ∃ control, m.control.charge d.instruction.cost = .ok control

def startEvent (m : Machine) (d : Decoded) : Event :=
  .started m.program.id m.pc d.instruction.opcode

/-- What `settle` makes of a machine: only the pointer into the stack, the counter and the
state are its own doing. It records a failure count that has changed, and the transfer of the
flow unless a failure stops the machine first. -/
structure Settles (m : Machine) (flow : Flow) (failures : UInt64) (events : List Event)
    (r : Report) : Prop where
  control : r.machine.control = { m.control with stackPointer := UInt32.ofNat m.stack.top }
  legal : ∀ f, m.state ≠ .failed (.runtime f) → r.machine.state ≠ .failed (.runtime f)
  started : r.events.filterMap Event.start? = events.filterMap Event.start?
  raised : r.events.filterMap Event.failure? = events.filterMap Event.failure? ++
    if m.control.failureCount = failures then [] else [m.control.failureCount]
  transferred : m.control.failureCount = failures ∨
      (flow.events m.pc m.control.cycles).filterMap Event.transfer? = [] →
    r.events.filterMap Event.transfer? = events.filterMap Event.transfer? ++
      (flow.events m.pc m.control.cycles).filterMap Event.transfer?

theorem settles_settle (m : Machine) (next : UInt16) (flow : Flow) (failures : UInt64)
    (events : List Event) (lookup : Option ProgramId) :
    Settles m flow failures events (m.settle next flow failures events lookup) := by
  unfold settle
  by_cases hstop : (m.control.failureCount != failures && m.control.autoHalt) = true
  · -- The failure stops the machine, whatever the flow.
    have hf : m.control.failureCount ≠ failures := by
      simpa using (Bool.and_eq_true_iff.mp hstop).1
    rw [if_pos hstop]
    refine ⟨rfl, fun _ _ => nofun, ?_, ?_, ?_⟩
    · simp [haltWith, Event.start?, hf]
    · simp [haltWith, Event.failure?, hf]
    · intro h
      rw [h.resolve_left hf]
      simp [haltWith, Event.transfer?, hf]
  · rw [if_neg hstop]
    cases flow with
    | halt =>
      refine ⟨rfl, fun f _ => stopState_ne_runtime _ f, ?_, ?_, fun _ => ?_⟩ <;>
        by_cases hf : m.control.failureCount = failures <;>
        simp [haltWith, Flow.target?, Flow.events, Event.start?, Event.failure?, Event.transfer?, hf]
    | _ =>
      refine ⟨rfl, fun f h => h, ?_, ?_, fun _ => ?_⟩ <;>
        by_cases hf : m.control.failureCount = failures <;>
        simp [Flow.target?, Flow.events, Event.start?, Event.failure?, Event.transfer?, hf,
          List.filterMap_cons]

structure Completes (d : Decoded) (m : Machine) (r : Report) : Prop where
  complexity : r.machine.control.complexity = m.control.complexity
  started : r.events.filterMap Event.start? = [⟨m.program.id, m.pc, d.instruction.opcode⟩]
  transfers : r.events.filterMap Event.transfer? = [] ∧
      r.machine.control.cycles = m.control.cycles ∨
    m.control.cycles ≠ 65535 ∧
      r.events.filterMap Event.transfer? = [m.control.cycles + 1] ∧
      r.machine.control.cycles = m.control.cycles + 1
  failures : r.events.filterMap Event.failure? = [] ∧
      r.machine.control.failureCount = m.control.failureCount ∨
    r.events.filterMap Event.failure? = [Control.saturatingAdd m.control.failureCount 1] ∧
      r.machine.control.failureCount = Control.saturatingAdd m.control.failureCount 1
  legal : ∀ f, r.machine.state ≠ .failed (.runtime f)

theorem SameCourse.completes {m' : Machine} (h : SameCourse m m') (hr : m.state = .running)
    (next : UInt16) (flow : Flow)
    (hflow : ∀ pc cycles, (flow.events pc cycles).filterMap Event.transfer? = [])
    (lookup : Option ProgramId) :
    Completes d m
      (m'.settle next flow m.control.failureCount [m.startEvent d] lookup) := by
  have hs := m'.settles_settle next flow m.control.failureCount [m.startEvent d] lookup
  have hc := hs.control
  refine ⟨?_, hs.started, .inl ⟨?_, ?_⟩, ?_, ?_⟩
  · rw [hc]
    exact h.complexity
  · rw [hs.transferred (.inr (hflow _ _)), hflow]
    rfl
  · rw [hc]
    exact congrArg Course.cycles h.course
  · have hf := hs.raised
    by_cases he : m'.control.failureCount = m.control.failureCount
    · rw [if_pos he] at hf
      exact .inl ⟨hf, by rw [hc]; exact he⟩
    · rw [if_neg he] at hf
      have hraise := h.failures.resolve_left he
      exact .inr ⟨by rw [hf, hraise]; rfl, by rw [hc]; exact hraise⟩
  · intro f
    apply hs.legal
    rw [h.state, hr]
    nofun

theorem completes_transfer {m' : Machine} {flow : Flow} {t : UInt16} (hr : m.state = .running)
    (hf : flow ≠ .next) (ht : flow.target? d.next = some t) (hs : m'.state = m.state)
    (hn : m.control.cycles ≠ 65535)
    (hc : m'.control = { m.control with cycles := m.control.cycles + 1 })
    (lookup : Option ProgramId) :
    Completes d m
      (m'.settle d.next flow m.control.failureCount [m.startEvent d] lookup) := by
  have hset := m'.settles_settle d.next flow m.control.failureCount [m.startEvent d] lookup
  have hcontrol := hset.control
  have hfail : m'.control.failureCount = m.control.failureCount := by rw [hc]
  have hcyc : m'.control.cycles = m.control.cycles + 1 := by rw [hc]
  refine ⟨?_, hset.started, .inr ⟨hn, ?_, ?_⟩, .inl ⟨?_, ?_⟩, ?_⟩
  · rw [hcontrol, hc]
  · rw [hset.transferred (.inl hfail), Flow.transfer?_events hf ht, hcyc]
    rfl
  · rw [hcontrol]
    exact hcyc
  · rw [hset.raised, if_pos hfail]
    rfl
  · rw [hcontrol]
    exact hfail
  · intro f
    apply hset.legal
    rw [hs, hr]
    nofun

theorem Executes.completes {e : Effect} (h : Executes host d m e) (hr : m.state = .running)
    (lookup : Option ProgramId) :
    (∃ f, Raises m d.instruction f ∧ e = .fault f m) ∨
      Completes d m
        (Machine.conclude d.next m.control.failureCount [m.startEvent d] lookup e) := by
  cases h with
  | next hi h => exact .inr (h.completes hr d.next .next (fun _ _ => rfl) lookup)
  | halt =>
    have hm : SameCourse m m := ⟨⟨rfl, rfl⟩, rfl, rfl, .inl rfl⟩
    exact .inr (hm.completes hr d.next .halt (fun _ _ => rfl) lookup)
  | @fault f hf => exact .inl ⟨f, hf, rfl⟩
  | transfer hi hf ht hm hpc hs hn hc =>
    exact .inr (completes_transfer hr hf ht hs hn hc lookup)

inductive Accounts (m : Machine) (r : Report) : Prop
  | ended (hd : Instruction.decode m.program.code m.pc = .error (.endOfCode m.pc))
      (hr : r = m.haltWith (.failed (.runtime .endOfCode)) [] none)
  | refused {d : Decoded} (hd : Instruction.decode m.program.code m.pc = .ok d)
      (hc : m.control.charge d.instruction.cost = .error .complexityLimitExceeded)
      (hr : r = m.haltWith (.failed (.runtime .complexityLimitExceeded)) [m.startEvent d] none)
  | faulted {d : Decoded} {f : Fault} (hd : Instruction.decode m.program.code m.pc = .ok d)
      (hc : m.control.charge d.instruction.cost = .ok (m.pay d.instruction.cost).control)
      (hf : Raises m d.instruction f)
      (hr : r = (m.pay d.instruction.cost).haltWith (.failed (.runtime f)) [m.startEvent d]
        (m.lookup? d.instruction))
  | completed {d : Decoded} (hd : Instruction.decode m.program.code m.pc = .ok d)
      (hc : m.control.charge d.instruction.cost = .ok (m.pay d.instruction.cost).control)
      (h : Completes d (m.pay d.instruction.cost) r)

/-- A step of a running machine in its stages. It ends at the first that does not go well. -/
inductive Stages (host : Resolver) (m : Machine) : Report → Prop
  | ended (hd : Instruction.decode m.program.code m.pc = .error (.endOfCode m.pc)) :
      Stages host m (m.haltWith (.failed (.runtime .endOfCode)) [] none)
  | refused {d : Decoded} (hd : Instruction.decode m.program.code m.pc = .ok d)
      (hc : m.control.charge d.instruction.cost = .error .complexityLimitExceeded) :
      Stages host m
        (m.haltWith (.failed (.runtime .complexityLimitExceeded)) [m.startEvent d] none)
  | faulted {d : Decoded} {f : Fault} (hd : Instruction.decode m.program.code m.pc = .ok d)
      (hc : m.control.charge d.instruction.cost = .ok (m.pay d.instruction.cost).control)
      (hx : execute host d (m.pay d.instruction.cost) = .fault f (m.pay d.instruction.cost)) :
      Stages host m
        ((m.pay d.instruction.cost).haltWith (.failed (.runtime f)) [m.startEvent d]
          (m.lookup? d.instruction))
  | settled {d : Decoded} {flow : Flow} {m' : Machine}
      (hd : Instruction.decode m.program.code m.pc = .ok d)
      (hc : m.control.charge d.instruction.cost = .ok (m.pay d.instruction.cost).control)
      (hx : execute host d (m.pay d.instruction.cost) = .done flow m') :
      Stages host m
        (m'.settle d.next flow m.control.failureCount [m.startEvent d] (m.lookup? d.instruction))

theorem step_stages (host : Resolver) (hs : m.course.Sound) (hr : m.state = .running) :
    Stages host m (m.step host) := by
  rcases hs.decode_cases with ⟨-, d, hd⟩ | ⟨-, hd⟩
  · change Instruction.decode m.program.code m.pc = .ok d at hd
    cases hc : m.control.charge d.instruction.cost with
    | error f =>
      obtain rfl := Control.charge_eq_error hc
      rw [step_of_charge_error host hr hd hc]
      exact .refused hd hc
    | ok control =>
      obtain ⟨rfl, -⟩ := Control.charge_eq_ok hc
      have hspec : Executes host d (m.pay d.instruction.cost)
        (execute host d (m.pay d.instruction.cost)) := execute_spec hs hd
      have hstep : m.step host = conclude d.next m.control.failureCount [m.startEvent d]
        (m.lookup? d.instruction) (execute host d (m.pay d.instruction.cost)) :=
        step_of_decode host hr hd hc
      rw [hstep]
      cases hx : execute host d (m.pay d.instruction.cost) with
      | done flow m' => exact .settled hd hc hx
      | fault f m' =>
        rw [hx] at hspec
        cases hspec with
        | fault hf => exact .faulted hd hc hx
  · change Instruction.decode m.program.code m.pc = .error _ at hd
    rw [step_of_decode_error host hr hd]
    exact .ended hd

theorem step_accounts (host : Resolver) (hs : m.course.Sound) (hr : m.state = .running) :
    Accounts m (m.step host) := by
  have hspec : ∀ d, Instruction.decode m.program.code m.pc = .ok d →
      Executes host d (m.pay d.instruction.cost) (execute host d (m.pay d.instruction.cost)) :=
    fun d hd => execute_spec hs hd
  have hstages := step_stages host hs hr
  generalize m.step host = r at hstages
  cases hstages with
  | ended hd => exact .ended hd rfl
  | refused hd hc => exact .refused hd hc rfl
  | @faulted d f hd hc hx =>
    have hexec := hspec d hd
    rw [hx] at hexec
    cases hexec with
    | fault hf => exact .faulted hd hc ⟨hf.ofExecution, hf.spent⟩ rfl
  | @settled d flow m' hd hc hx =>
    have hexec := hspec d hd
    rw [hx] at hexec
    rcases hexec.completes hr (m.lookup? d.instruction) with ⟨f, -, he⟩ | h
    · cases he
    · exact .completed hd hc h

theorem Accounts.meters_le (h : Accounts m r) :
    r.machine.control.complexity.toNat ≤ m.control.complexity.toNat + 20000 ∧
      r.machine.control.failureCount.toNat ≤ m.control.failureCount.toNat + 1 := by
  have hpay : ∀ i : Instruction,
      (m.pay i.cost).control.complexity.toNat ≤ m.control.complexity.toNat + 20000 := by
    intro i
    have hcost := i.cost_le
    simp only [pay, Control.toNat_saturatingAdd]
    omega
  cases h with
  | ended hd hr =>
    rw [hr]
    exact ⟨Nat.le_add_right _ _, Nat.le_add_right _ _⟩
  | refused hd hc hr =>
    rw [hr]
    exact ⟨Nat.le_add_right _ _, Nat.le_add_right _ _⟩
  | faulted hd hc hf hr =>
    rw [hr]
    exact ⟨hpay _, Nat.le_add_right _ _⟩
  | completed hd hc h =>
    refine ⟨?_, ?_⟩
    · rw [h.complexity]
      exact hpay _
    · rcases h.failures with ⟨-, hf⟩ | ⟨-, hf⟩
      · rw [hf]
        exact Nat.le_add_right _ _
      · rw [hf, Control.toNat_saturatingAdd]
        exact Nat.min_le_left _ _

variable {hosts : Nat → Resolver} {m₀ : Machine} {p : Program} {code constants input : Bytes}
  {config : Config}

theorem Guarded.accounts (h : m.Guarded) (hr : m.state = .running) (host : Resolver) :
    Accounts m (m.step host) :=
  step_accounts host h.sound hr

theorem Guarded.meters_le_after (h : m.Guarded) (hh : ∀ k, (hosts k).Genuine) (n : Nat) :
    (m.after hosts n).control.complexity.toNat ≤ m.control.complexity.toNat + 20000 * n ∧
      (m.after hosts n).control.failureCount.toNat ≤ m.control.failureCount.toNat + n := by
  induction n with
  | zero => exact ⟨Nat.le_refl _, Nat.le_refl _⟩
  | succ n ih =>
    rw [Machine.after]
    by_cases hr : (m.after hosts n).state.isHalted = true
    · rw [step_of_isHalted _ hr]
      omega
    · obtain ⟨hc, hf⟩ := ((h.after hh n).accounts (RunState.eq_running hr) (hosts n)).meters_le
      refine ⟨?_, Nat.le_trans hf (Nat.add_le_add_right ih.2 1)⟩
      calc ((m.after hosts n).step (hosts n)).machine.control.complexity.toNat
        _ ≤ (m.after hosts n).control.complexity.toNat + 20000 := hc
        _ ≤ m.control.complexity.toNat + 20000 * n + 20000 := Nat.add_le_add_right ih.1 _
        _ = m.control.complexity.toNat + 20000 * (n + 1) := by rw [Nat.mul_succ, Nat.add_assoc]

theorem Guarded.exists_after_eq (h : m.Guarded) (hh : ∀ k, (hosts k).Genuine) (n : Nat) :
    ∃ k, k ≤ 4294967296 ∧ m.after hosts n = m.after hosts k := by
  by_cases hn : n ≤ 4294967296
  · exact ⟨n, hn, rfl⟩
  · obtain ⟨j, rfl⟩ := Nat.exists_eq_add_of_le (Nat.le_of_not_le hn)
    exact ⟨4294967296, Nat.le_refl _, after_add_of_isHalted (h.isHalted_after hh) j⟩

/-- Neither meter is at a point where the next addition to it would saturate. -/
structure Unsaturated (m : Machine) : Prop where
  charge : ∀ i : Instruction, (Control.saturatingAdd m.control.complexity i.cost).toNat =
    m.control.complexity.toNat + i.cost.toNat
  raise : (Control.saturatingAdd m.control.failureCount 1).toNat =
    m.control.failureCount.toNat + 1

theorem unsaturated_after (hp : Program.load code constants = .ok p)
    (hm : Machine.load p input config = .ok m₀) (hh : ∀ k, (hosts k).Genuine) (n : Nat) :
    (m₀.after hosts n).Unsaturated := by
  have hg := guarded_load hp hm
  obtain ⟨k, hk, he⟩ := hg.exists_after_eq hh n
  obtain ⟨hcomplexity, hfailures⟩ := hg.meters_le_after hh k
  have hstart := load_eq_ok hm
  have h0 : m₀.control.complexity.toNat = 0 := by
    rw [hstart]
    rfl
  have h1 : m₀.control.failureCount.toNat = 0 := by
    rw [hstart]
    rfl
  rw [he]
  refine ⟨?_, ?_⟩
  · intro i
    have hcost := i.cost_le
    rw [Control.toNat_saturatingAdd]
    omega
  · rw [Control.toNat_saturatingAdd, UInt64.toNat_one]
    omega

/-- A step that faults changes the state of the run and nothing else, but for the price of the
instruction, which is paid if there was one and the limit covered it. -/
theorem fault_atomic (hp : Program.load code constants = .ok p)
    (hm : Machine.load p input config = .ok m₀) (hh : ∀ k, (hosts k).Genuine) {n : Nat} {f : Fault}
    (host : Resolver) (hr : (m₀.after hosts n).state = .running)
    (hf : ((m₀.after hosts n).step host).machine.state = .failed (.runtime f)) :
    let m := m₀.after hosts n
    let m' := (m.step host).machine
    (f = .endOfCode ∨ f = .complexityLimitExceeded →
      m' = { m with state := .failed (.runtime f) }) ∧
    (f ≠ .endOfCode → f ≠ .complexityLimitExceeded →
      ∃ d complexity, Instruction.decode m.program.code m.pc = .ok d ∧
        complexity.toNat = m.control.complexity.toNat + d.instruction.cost.toNat ∧
        m' = { m with
          control := { m.control with complexity := complexity }
          state := .failed (.runtime f) }) := by
  intro m m'
  have hu : m.Unsaturated := unsaturated_after hp hm hh n
  cases ((guarded_load hp hm).after hh n).accounts hr host with
  | ended hd he =>
    rw [he] at hf
    cases hf
    exact ⟨fun _ => congrArg Report.machine he, fun hne => absurd rfl hne⟩
  | refused hd hc he =>
    rw [he] at hf
    cases hf
    exact ⟨fun _ => congrArg Report.machine he, fun _ hne => absurd rfl hne⟩
  | @faulted d g hd hc hg he =>
    rw [he] at hf
    obtain rfl : g = f := Reason.runtime.inj (RunState.failed.inj hf)
    refine ⟨?_, fun _ _ => ⟨d, _, hd, hu.charge d.instruction, congrArg Report.machine he⟩⟩
    rintro (rfl | rfl)
    · cases hg.ofExecution
    · cases hg.ofExecution
  | completed hd hc h => exact absurd hf (h.legal f)

/-- A call that recurses until the stack is full: the second one faults, with the frame of the
first still in place. -/
theorem fault_atomic_overflow :
    ∃ p m₀, Program.load [8, 0, 0] [] = .ok p ∧
      Machine.load p [] { stackCapacity := 3 } = .ok m₀ ∧
      let m := m₀.after (fun _ => Resolver.none) 1
      let m' := (m.step Resolver.none).machine
      m.stack.top = 3 ∧ m'.state = .failed (.runtime .stackOverflow) ∧
        m'.stack = m.stack ∧ m'.pc = m.pc ∧ m'.control.cycles = m.control.cycles ∧
        m'.control.complexity.toNat = m.control.complexity.toNat + 2 := by
  obtain ⟨p, m₀, hp, hm, ht, hr, hf, hd⟩ :
      ∃ p m₀, Program.load [8, 0, 0] [] = .ok p ∧
        Machine.load p [] { stackCapacity := 3 } = .ok m₀ ∧
        (m₀.after (fun _ => Resolver.none) 1).stack.top = 3 ∧
        (m₀.after (fun _ => Resolver.none) 1).state = .running ∧
        ((m₀.after (fun _ => Resolver.none) 1).step Resolver.none).machine.state =
          .failed (.runtime .stackOverflow) ∧
        Instruction.decode (m₀.after (fun _ => Resolver.none) 1).program.code
          (m₀.after (fun _ => Resolver.none) 1).pc = .ok ⟨.call 0, 0, 3⟩ := by
    refine ⟨_, _, rfl, rfl, ?_, ?_, ?_, ?_⟩ <;> decide +kernel
  obtain ⟨-, h⟩ := fault_atomic hp hm (fun _ => Resolver.genuine_none) Resolver.none hr hf
  obtain ⟨d, complexity, hd', hc, he⟩ := h nofun nofun
  obtain rfl := Except.ok.inj (hd.symm.trans hd')
  refine ⟨p, m₀, hp, hm, ht, hf, ?_⟩
  rw [he]
  exact ⟨rfl, rfl, rfl, hc⟩

end Machine

end VerdictMachine

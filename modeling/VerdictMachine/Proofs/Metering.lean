import Mathlib.Algebra.GroupWithZero.Nat
import Mathlib.Data.List.Basic
import VerdictMachine.Proofs.Accounts

/-!
# The meters agree with the record

The record of a run names every instruction that was started, by its program
and offset, and reports every transfer and every failure with the count reached.
At each point of a run the complexity is the sum of the prices of the
instructions named, less the one that a limit refused, and the two counters are
the numbers of their reports, which count up from one without a gap.

What a start names is looked up in the libraries of the machine at the end of
the record. They only grow, so an old entry keeps its meaning.
-/

set_option autoImplicit false

namespace VerdictMachine

namespace Library

variable {l l' : Library} {s : Start}

/-- The instruction that a start on record names. -/
def instruction? (l : Library) (s : Start) : Option Instruction :=
  match l.find? s.program with
  | none => none
  | some p =>
    match Instruction.decode p.code s.pc with
    | .error _ => none
    | .ok d => some d.instruction

theorem instruction?_eq_some_iff {i : Instruction} :
    l.instruction? s = some i ↔
      ∃ p d, l.find? s.program = some p ∧ Instruction.decode p.code s.pc = .ok d ∧
        d.instruction = i := by
  unfold instruction?
  cases hl : l.find? s.program with
  | none => simp
  | some p => cases hd : Instruction.decode p.code s.pc <;> simp [hd]

theorem instruction?_mono (hl : ∀ id p, l.find? id = some p → l'.find? id = some p)
    {i : Instruction} (h : l.instruction? s = some i) : l'.instruction? s = some i := by
  obtain ⟨p, d, hp, hd, hi⟩ := instruction?_eq_some_iff.mp h
  exact instruction?_eq_some_iff.mpr ⟨p, d, hl _ _ hp, hd, hi⟩

end Library

theorem Course.Move.find?_mono {host : Resolver} {d : Decoded} {c c' : Course}
    (h : Move host d c c') {id : ProgramId} {p : Program} (hp : c.libraries.find? id = some p) :
    c'.libraries.find? id = some p := by
  cases h with
  | enter => exact Library.find?_insertNew_of_some hp
  | _ => exact hp

theorem Machine.Guarded.find?_mono {m : Machine} (h : m.Guarded) (host : Resolver)
    (id : ProgramId) (p : Program) (hp : m.libraries.find? id = some p) :
    (m.step host).machine.libraries.find? id = some p := by
  rcases h.step_cases host with hs | ⟨d, hs⟩
  · rw [show (m.step host).machine.libraries = m.libraries from
      congrArg Course.libraries hs.course]
    exact hp
  · exact hs.move.find?_mono hp

namespace Machine.Accounts

variable {m : Machine} {r : Report}

theorem transferred (h : Accounts m r) :
    r.events.filterMap Event.transfer? = [] ∧ r.machine.control.cycles = m.control.cycles ∨
      m.control.cycles ≠ 65535 ∧
        r.events.filterMap Event.transfer? = [m.control.cycles + 1] ∧
        r.machine.control.cycles = m.control.cycles + 1 := by
  cases h with
  | ended hd hr => exact hr ▸ .inl ⟨rfl, rfl⟩
  | refused hd hc hr => exact hr ▸ .inl ⟨rfl, rfl⟩
  | faulted hd hc hf hr => exact hr ▸ .inl ⟨rfl, rfl⟩
  | completed hd hc h => exact h.transfers

theorem raised (h : Accounts m r) :
    r.events.filterMap Event.failure? = [] ∧
        r.machine.control.failureCount = m.control.failureCount ∨
      r.events.filterMap Event.failure? = [Control.saturatingAdd m.control.failureCount 1] ∧
        r.machine.control.failureCount = Control.saturatingAdd m.control.failureCount 1 := by
  cases h with
  | ended hd hr => exact hr ▸ .inl ⟨rfl, rfl⟩
  | refused hd hc hr => exact hr ▸ .inl ⟨rfl, rfl⟩
  | faulted hd hc hf hr => exact hr ▸ .inl ⟨rfl, rfl⟩
  | completed hd hc h => exact h.failures

/-- The meter moves by the price of the instruction whose start is on record, unless the limit
refuses it. Without an instruction there is neither. -/
theorem charged (h : Accounts m r) :
    r.machine.state ≠ .failed (.runtime .complexityLimitExceeded) ∧
        r.events.filterMap Event.start? = [] ∧
        r.machine.control.complexity = m.control.complexity ∨
      ∃ d, Instruction.decode m.program.code m.pc = .ok d ∧
        r.events.filterMap Event.start? = [⟨m.program.id, m.pc, d.instruction.opcode⟩] ∧
        (r.machine.state = .failed (.runtime .complexityLimitExceeded) ∧
            r.machine.control.complexity = m.control.complexity ∨
          r.machine.state ≠ .failed (.runtime .complexityLimitExceeded) ∧
            r.machine.control.complexity =
              Control.saturatingAdd m.control.complexity d.instruction.cost) := by
  cases h with
  | ended hd hr => exact hr ▸ .inl ⟨nofun, rfl, rfl⟩
  | @refused d hd hc hr => exact hr ▸ .inr ⟨d, hd, rfl, .inl ⟨rfl, rfl⟩⟩
  | @faulted d f hd hc hf hr =>
    refine hr ▸ .inr ⟨d, hd, rfl, .inr ⟨?_, rfl⟩⟩
    rintro ⟨⟩
    cases hf.ofExecution
  | @completed d hd hc h => exact .inr ⟨d, hd, h.started, .inr ⟨h.legal _, h.complexity⟩⟩

theorem refusedTransfer (h : Accounts m r)
    (hs : r.machine.state = .failed (.runtime .cycleLimitExceeded)) :
    r.machine.control.cycles = 65535 ∧
      ∃ d, Instruction.decode r.machine.program.code r.machine.pc = .ok d ∧
        r.machine.transfers d.instruction = true ∧
        r.events.filterMap Event.start? =
          [⟨r.machine.program.id, r.machine.pc, d.instruction.opcode⟩] := by
  cases h with
  | ended hd hr =>
    rw [hr] at hs
    cases hs
  | refused hd hc hr =>
    rw [hr] at hs
    cases hs
  | @faulted d f hd hc hf hr =>
    subst hr
    cases hs
    obtain ⟨hcycles, htransfers⟩ := hf.spent rfl
    exact ⟨hcycles, d, hd, htransfers, rfl⟩
  | completed hd hc h => exact absurd hs (h.legal _)

end Machine.Accounts

namespace Run

variable {host : Resolver} {hosts : Nat → Resolver} {r : Run}

def after (hosts : Nat → Resolver) (r : Run) : Nat → Run
  | 0 => r
  | n + 1 => (r.after hosts n).step (hosts n)

theorem machine_after (hosts : Nat → Resolver) (r : Run) (n : Nat) :
    (r.after hosts n).machine = r.machine.after hosts n := by
  induction n with
  | zero => rfl
  | succ n ih => rw [after, machine_step, ih, Machine.after]

theorem events_step (host : Resolver) (r : Run) :
    (r.step host).events = r.events ++ (r.machine.step host).events := rfl

theorem lookups_step (host : Resolver) (r : Run) :
    (r.step host).lookups = r.lookups ++ (r.machine.step host).lookup.toList := rfl

theorem step_of_isHalted (host : Resolver) (h : r.machine.state.isHalted = true) :
    r.step host = r := by
  obtain ⟨m, events, lookups⟩ := r
  simp only [step, Machine.step, if_pos h, record]
  simp

theorem advance_eq_after (host : Resolver) (n : Nat) (r : Run) :
    advance host n r = r.after (fun _ => host) n := by
  induction n with
  | zero => rfl
  | succ n ih =>
    rw [advance_succ, after, ← ih]
    by_cases h : (advance host n r).machine.state.isHalted = true
    · rw [if_pos h, step_of_isHalted host h]
    · rw [if_neg h]

def starts (r : Run) : List Start := r.events.toList.filterMap Event.start?

def transfers (r : Run) : List UInt16 := r.events.toList.filterMap Event.transfer?

def failures (r : Run) : List UInt64 := r.events.toList.filterMap Event.failure?

def instructions (r : Run) : List Instruction :=
  r.starts.filterMap r.machine.libraries.instruction?

/-- Those of them that were paid for. Only the last one can have been refused. -/
def paid (r : Run) : List Instruction :=
  if r.machine.state = .failed (.runtime .complexityLimitExceeded) then r.instructions.dropLast
  else r.instructions

theorem starts_step (host : Resolver) (r : Run) :
    (r.step host).starts = r.starts ++ (r.machine.step host).events.filterMap Event.start? := by
  simp [starts, step, record]

theorem transfers_step (host : Resolver) (r : Run) :
    (r.step host).transfers =
      r.transfers ++ (r.machine.step host).events.filterMap Event.transfer? := by
  simp [transfers, step, record]

theorem failures_step (host : Resolver) (r : Run) :
    (r.step host).failures =
      r.failures ++ (r.machine.step host).events.filterMap Event.failure? := by
  simp [failures, step, record]

/-- Every start on record names an instruction, and of the opcode that it reports. -/
def Named (r : Run) : Prop :=
  ∀ s ∈ r.starts, ∃ i, r.machine.libraries.instruction? s = some i ∧ i.opcode = s.op

theorem instructions_step (hn : r.Named) (hg : r.machine.Guarded) (host : Resolver) :
    (r.step host).instructions = r.instructions ++
      ((r.machine.step host).events.filterMap Event.start?).filterMap
        (r.step host).machine.libraries.instruction? := by
  rw [instructions, starts_step, List.filterMap_append, instructions]
  congr 1
  apply List.filterMap_congr
  intro s hs
  obtain ⟨i, hi, -⟩ := hn s hs
  rw [hi, machine_step]
  exact Library.instruction?_mono (hg.find?_mono host) hi

theorem instruction?_started (hg : r.machine.Guarded) (host : Resolver) {d : Decoded}
    (hd : Instruction.decode r.machine.program.code r.machine.pc = .ok d) (op : Opcode) :
    (r.step host).machine.libraries.instruction? ⟨r.machine.program.id, r.machine.pc, op⟩ =
      some d.instruction := by
  rw [machine_step]
  exact Library.instruction?_eq_some_iff.mpr
    ⟨r.machine.program, d, hg.find?_mono host _ _ hg.sound.known, hd, rfl⟩

theorem Named.step (hn : r.Named) (hg : r.machine.Guarded) (hr : r.machine.state = .running)
    (host : Resolver) : (r.step host).Named := by
  intro s hs
  rw [starts_step, List.mem_append] at hs
  rcases hs with hs | hs
  · obtain ⟨i, hi, hop⟩ := hn s hs
    rw [machine_step]
    exact ⟨i, Library.instruction?_mono (hg.find?_mono host) hi, hop⟩
  · rcases (hg.accounts hr host).charged with ⟨-, he, -⟩ | ⟨d, hd, he, -⟩
    · rw [he] at hs
      cases hs
    · rw [he, List.mem_singleton] at hs
      subst hs
      exact ⟨d.instruction, instruction?_started hg host hd _, rfl⟩

/-- The invariant of every record: the meters are what it adds up to. -/
structure Balanced (r : Run) : Prop where
  named : r.Named
  complexity : r.machine.control.complexity.toNat = (r.paid.map (·.cost.toNat)).sum
  transfers : r.transfers.map (·.toNat) = List.range' 1 r.machine.control.cycles.toNat
  failures : r.failures.map (·.toNat) = List.range' 1 r.machine.control.failureCount.toNat
  spent : r.machine.state = .failed (.runtime .cycleLimitExceeded) →
    r.machine.control.cycles = 65535 ∧
      ∃ d, Instruction.decode r.machine.program.code r.machine.pc = .ok d ∧
        r.machine.transfers d.instruction = true ∧
        r.starts.getLast? = some ⟨r.machine.program.id, r.machine.pc, d.instruction.opcode⟩

theorem balanced_start (p : Program) (input : Bytes) (config : Config) :
    (ofMachine (Machine.start p input config)).Balanced :=
  ⟨nofun, rfl, rfl, rfl, nofun⟩

theorem Balanced.complexity_step (h : r.Balanced) (hg : r.machine.Guarded)
    (hu : r.machine.Unsaturated) (hr : r.machine.state = .running) (host : Resolver) :
    (r.step host).machine.control.complexity.toNat =
      ((r.step host).paid.map (·.cost.toNat)).sum := by
  have hsum : r.machine.control.complexity.toNat = (r.instructions.map (·.cost.toNat)).sum := by
    rw [h.complexity, paid, if_neg (by rw [hr]; nofun)]
  have hi := instructions_step h.named hg host
  rw [paid, machine_step]
  rcases (hg.accounts hr host).charged with ⟨hs, he, hc⟩ | ⟨d, hd, he, hcase⟩
  · rw [he, List.filterMap_nil, List.append_nil] at hi
    rw [if_neg hs, hi, hc, hsum]
  · rw [he, List.filterMap_cons_some (instruction?_started hg host hd _), List.filterMap_nil] at hi
    rcases hcase with ⟨hs, hc⟩ | ⟨hs, hc⟩
    · rw [if_pos hs, hi, List.dropLast_concat, hc, hsum]
    · rw [if_neg hs, hi, hc, hu.charge, hsum]
      simp

theorem Balanced.transfers_step (h : r.Balanced) (hg : r.machine.Guarded)
    (hr : r.machine.state = .running) (host : Resolver) :
    (r.step host).transfers.map (·.toNat) =
      List.range' 1 (r.step host).machine.control.cycles.toNat := by
  rw [Run.transfers_step, machine_step, List.map_append, h.transfers]
  rcases (hg.accounts hr host).transferred with ⟨he, hc⟩ | ⟨hn, he, hc⟩
  · rw [he, hc]
    simp
  · rw [he, hc, Control.toNat_next_cycle hn, List.range'_1_concat, List.map_singleton,
      Control.toNat_next_cycle hn, Nat.add_comm 1]

theorem Balanced.failures_step (h : r.Balanced) (hg : r.machine.Guarded)
    (hu : r.machine.Unsaturated) (hr : r.machine.state = .running) (host : Resolver) :
    (r.step host).failures.map (·.toNat) =
      List.range' 1 (r.step host).machine.control.failureCount.toNat := by
  rw [Run.failures_step, machine_step, List.map_append, h.failures]
  rcases (hg.accounts hr host).raised with ⟨he, hc⟩ | ⟨he, hc⟩
  · rw [he, hc]
    simp
  · rw [he, hc, hu.raise, List.range'_1_concat, List.map_singleton, hu.raise, Nat.add_comm 1]

theorem Balanced.step (h : r.Balanced) (hg : r.machine.Guarded) (hu : r.machine.Unsaturated)
    (host : Resolver) : (r.step host).Balanced := by
  by_cases hr : r.machine.state.isHalted = true
  · rw [step_of_isHalted host hr]
    exact h
  · have hr := RunState.eq_running hr
    refine ⟨h.named.step hg hr host, h.complexity_step hg hu hr host, h.transfers_step hg hr host,
      h.failures_step hg hu hr host, ?_⟩
    intro hs
    obtain ⟨hc, d, hd, ht, he⟩ := (hg.accounts hr host).refusedTransfer hs
    exact ⟨hc, d, hd, ht, by rw [starts_step, he, List.getLast?_concat, machine_step]⟩

end Run

namespace Machine

variable {hosts : Nat → Resolver} {m₀ : Machine} {p : Program} {code constants input : Bytes}
  {config : Config}

theorem balanced_after (hp : Program.load code constants = .ok p)
    (hm : Machine.load p input config = .ok m₀) (hh : ∀ k, (hosts k).Genuine) (n : Nat) :
    ((Run.ofMachine m₀).after hosts n).Balanced := by
  induction n with
  | zero =>
    rw [load_eq_ok hm]
    exact Run.balanced_start p input config
  | succ n ih =>
    have hmachine := Run.machine_after hosts (Run.ofMachine m₀) n
    refine ih.step ?_ ?_ (hosts n)
    · rw [hmachine]
      exact (guarded_load hp hm).after hh n
    · rw [hmachine]
      exact unsaturated_after hp hm hh n

theorem verdict?_eq_failure {m : Machine} {reason : Reason} {count complexity : UInt64}
    {used : UInt32} (h : m.verdict? = some (.failure reason count complexity used)) :
    m.state = .failed reason ∧ used = m.control.cyclesUsed reason.fault? := by
  unfold verdict? at h
  cases hs : m.state with
  | running =>
    rw [hs] at h
    cases h
  | succeeded =>
    rw [hs] at h
    cases h
  | failed reason' =>
    rw [hs] at h
    cases h
    exact ⟨rfl, rfl⟩

theorem cyclesUsed_cases (c : Control) (reason : Reason) :
    reason = .runtime .cycleLimitExceeded ∧ (c.cyclesUsed reason.fault?).toNat = 65536 ∨
      reason ≠ .runtime .cycleLimitExceeded ∧
        (c.cyclesUsed reason.fault?).toNat = c.cycles.toNat := by
  by_cases hr : reason = .runtime .cycleLimitExceeded
  · subst hr
    exact .inl ⟨rfl, rfl⟩
  · refine .inr ⟨hr, ?_⟩
    have hf : reason.fault? ≠ some .cycleLimitExceeded := by
      cases reason with
      | rejected => nofun
      | runtime f =>
        intro hf
        exact hr (congrArg Reason.runtime (Option.some.inj hf))
    rw [Control.cyclesUsed, if_neg hf]
    simp

/-- At every point of every run the meters are exact. The complexity is the sum of the prices of
the instructions started, less one that a limit refused; transfers and failures are counted one
by one; nothing saturates. A failure verdict reports the transfers taken, or the ceiling if the
transfer after the last possible one was attempted. -/
theorem meters_exact (hp : Program.load code constants = .ok p)
    (hm : Machine.load p input config = .ok m₀) (hh : ∀ k, (hosts k).Genuine) (n : Nat) :
    let r := (Run.ofMachine m₀).after hosts n
    let m := r.machine
    (∀ s ∈ r.starts, ∃ i, m.libraries.instruction? s = some i ∧ i.opcode = s.op) ∧
    m.control.complexity.toNat = (r.paid.map (·.cost.toNat)).sum ∧
    r.transfers.map (·.toNat) = List.range' 1 m.control.cycles.toNat ∧
    r.failures.map (·.toNat) = List.range' 1 m.control.failureCount.toNat ∧
    m.Unsaturated ∧
    ∀ reason count complexity used, m.verdict? = some (.failure reason count complexity used) →
      (used.toNat = 65536 ↔ reason = .runtime .cycleLimitExceeded) ∧
      (reason = .runtime .cycleLimitExceeded →
        r.transfers.length = 65535 ∧
          ∃ d, Instruction.decode m.program.code m.pc = .ok d ∧
            m.transfers d.instruction = true ∧
            r.starts.getLast? = some ⟨m.program.id, m.pc, d.instruction.opcode⟩) ∧
      (reason ≠ .runtime .cycleLimitExceeded →
        used.toNat = r.transfers.length ∧ used.toNat ≤ 65535) := by
  intro r m
  have hb : r.Balanced := balanced_after hp hm hh n
  have hu : m.Unsaturated := by
    rw [show m = m₀.after hosts n from Run.machine_after hosts _ n]
    exact unsaturated_after hp hm hh n
  have hlen : r.transfers.length = m.control.cycles.toNat := by
    simpa using congrArg List.length hb.transfers
  refine ⟨hb.named, hb.complexity, hb.transfers, hb.failures, hu, ?_⟩
  intro reason count complexity used hv
  obtain ⟨hs, rfl⟩ := verdict?_eq_failure hv
  have hlt := m.control.cycles.toNat_lt
  rcases cyclesUsed_cases m.control reason with ⟨hreason, hused⟩ | ⟨hreason, hused⟩
  · obtain ⟨hc, hd⟩ := hb.spent (hreason ▸ hs)
    refine ⟨⟨fun _ => hreason, fun _ => hused⟩, fun _ => ⟨?_, hd⟩, fun hne => absurd hreason hne⟩
    rw [hlen, show m.control.cycles = 65535 from hc]
    rfl
  · refine ⟨⟨?_, fun h => absurd h hreason⟩, fun h => absurd h hreason, fun _ => ⟨?_, ?_⟩⟩
    · intro h
      omega
    · rw [hused, hlen]
    · omega

/-- A loop that fails and jumps back. The limit refuses its third jump, which stays on record
but is neither paid for nor counted. -/
theorem meters_exact_refused :
    ∃ p m₀, Program.load [2, 4, 0, 0] [] = .ok p ∧
      Machine.load p [] { complexityLimit := some 7 } = .ok m₀ ∧
      let r := Run.advance Resolver.none 6 (Run.ofMachine m₀)
      r.starts.length = 6 ∧ (r.paid.map (·.cost.toNat)).sum = 7 ∧
        r.transfers.map (·.toNat) = [1, 2] ∧ r.failures.map (·.toNat) = [1, 2, 3] ∧
        ∃ used, r.machine.verdict? =
            some (.failure (.runtime .complexityLimitExceeded) 3 7 used) ∧
          used.toNat = 2 := by
  obtain ⟨p, m₀, hp, hm, hstarts, hs, hcomplexity, hcycles, hfailures⟩ :
      ∃ p m₀, Program.load [2, 4, 0, 0] [] = .ok p ∧
        Machine.load p [] { complexityLimit := some 7 } = .ok m₀ ∧
        ((Run.ofMachine m₀).after (fun _ => Resolver.none) 6).starts.length = 6 ∧
        ((Run.ofMachine m₀).after (fun _ => Resolver.none) 6).machine.state =
          .failed (.runtime .complexityLimitExceeded) ∧
        ((Run.ofMachine m₀).after (fun _ => Resolver.none) 6).machine.control.complexity = 7 ∧
        ((Run.ofMachine m₀).after (fun _ => Resolver.none) 6).machine.control.cycles = 2 ∧
        ((Run.ofMachine m₀).after (fun _ => Resolver.none) 6).machine.control.failureCount = 3 := by
    refine ⟨_, _, rfl, rfl, ?_, ?_, ?_, ?_, ?_⟩ <;> decide +kernel
  obtain ⟨-, hsum, htransfers, hraised, -, hverdict⟩ :=
    meters_exact hp hm (fun _ => Resolver.genuine_none) 6
  rw [hcomplexity] at hsum
  rw [hcycles] at htransfers
  rw [hfailures] at hraised
  obtain ⟨used, hv⟩ : ∃ used,
      ((Run.ofMachine m₀).after (fun _ => Resolver.none) 6).machine.verdict? =
        some (.failure (.runtime .complexityLimitExceeded) 3 7 used) := by
    rw [verdict?, hs, hcomplexity, hfailures]
    exact ⟨_, rfl⟩
  obtain ⟨-, -, hexact⟩ := hverdict _ _ _ _ hv
  refine ⟨p, m₀, hp, hm, ?_⟩
  rw [Run.advance_eq_after]
  refine ⟨hstarts, hsum.symm, htransfers, hraised, used, hv, ?_⟩
  rw [(hexact nofun).1, ← List.length_map (·.toNat), htransfers]
  rfl

end Machine

end VerdictMachine

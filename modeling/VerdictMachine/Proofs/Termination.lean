import VerdictMachine.Proofs.ControlFlow

/-!
# Every run ends

What is left of a run is bounded by the transfers not yet spent and, between
two transfers, by the bytes of code ahead. Both parts of this budget are below
65536, so a run has fewer than 4294967296 steps. A complexity limit bounds the
steps a second time, since no instruction is free.
-/

set_option autoImplicit false

namespace VerdictMachine

theorem Instruction.one_le_cost (i : Instruction) : 1 ≤ i.cost.toNat := by
  unfold cost
  cases i.costClass <;> decide

theorem Control.toNat_saturatingAdd (a b : UInt64) :
    (saturatingAdd a b).toNat = min (a.toNat + b.toNat) 18446744073709551615 := by
  rw [saturatingAdd, UInt64.toNat_ofNat_of_lt']
  · rfl
  · rw [Nat.min_def]
    split <;> simp only [UInt64.size] at * <;> omega

theorem Control.toNat_next_cycle {n : UInt16} (h : n ≠ 65535) : (n + 1).toNat = n.toNat + 1 := by
  have hne : n.toNat ≠ 65535 := fun he => h (UInt16.toNat_inj.mp he)
  have hlt := n.toNat_lt
  rw [UInt16.toNat_add, UInt16.toNat_one]
  omega

namespace Course

variable {host : Resolver} {d : Decoded} {c c' : Course}

/-- Along the code: the counter grows and stays inside, no cycle is spent. -/
structure Advances (c c' : Course) : Prop where
  program : c'.program = c.program
  cycles : c'.cycles = c.cycles
  ahead : c.pc.toNat < c'.pc.toNat
  inside : c'.pc.toNat ≤ c.program.code.size

theorem advances_next (hd : Instruction.decode c.program.code c.pc = .ok d) :
    c.Advances { c with pc := d.next } :=
  ⟨rfl, rfl, Instruction.lt_next_of_decode hd, Instruction.next_le_of_decode hd⟩

theorem Move.advances_or_spends (hd : Instruction.decode c.program.code c.pc = .ok d)
    (h : Move host d c c') : c.Advances c' ∨ c'.cycles.toNat = c.cycles.toNat + 1 := by
  cases h with
  | advance hi => exact .inl (advances_next hd)
  | jump hi ht hc => exact .inr (Control.toNat_next_cycle hc)
  | call hi hf hc => exact .inr (Control.toNat_next_cycle hc)
  | enter hi hp he hf hc => exact .inr (Control.toNat_next_cycle hc)
  | back hi hf hc => exact .inr (Control.toNat_next_cycle hc)
  | leave hi hf hp hc => exact .inr (Control.toNat_next_cycle hc)

/-- The cycles left come first, then the bytes ahead in the present program. -/
def budget (c : Course) : Nat :=
  (65535 - c.cycles.toNat) * 65536 + (c.program.code.size - c.pc.toNat)

theorem Sound.budget_lt (hs : c.Sound) : c.budget < 4294967296 := by
  have hz := hs.loaded.valid.size_le
  unfold budget
  omega

/-- Every move spends of the budget: a transfer may reset the bytes ahead, also in
another program, but no program is longer than what one cycle is worth. -/
theorem Move.budget_lt (hs' : c'.Sound)
    (hd : Instruction.decode c.program.code c.pc = .ok d) (h : Move host d c c') :
    c'.budget < c.budget := by
  unfold budget
  rcases h.advances_or_spends hd with ha | hc
  · have hahead := ha.ahead
    have hinside := ha.inside
    rw [ha.program, ha.cycles]
    omega
  · have hz := hs'.loaded.valid.size_le
    have hlt := c'.cycles.toNat_lt
    omega

end Course

namespace Machine

variable {hosts : Nat → Resolver} {m m₀ : Machine} {p : Program} {code constants input : Bytes}
  {config : Config}

theorem after_add_of_isHalted {n : Nat} (h : (m.after hosts n).state.isHalted = true) (k : Nat) :
    m.after hosts (n + k) = m.after hosts n := by
  induction k with
  | zero => rfl
  | succ k ih => rw [← Nat.add_assoc, after, ih, step_of_isHalted _ h]

theorem after_of_le {n k : Nat} (hk : n ≤ k) (h : (m.after hosts n).state.isHalted = true) :
    m.after hosts k = m.after hosts n := by
  obtain ⟨j, rfl⟩ := Nat.exists_eq_add_of_le hk
  exact after_add_of_isHalted h j

theorem isHalted_after_of_le {n k : Nat} (hk : n ≤ k)
    (h : (m.after hosts n).state.isHalted = true) : (m.after hosts k).state.isHalted = true := by
  rwa [after_of_le hk h]

/-- A machine that still runs after a step has retired an instruction in it. -/
theorem Guarded.retires {host : Resolver} (h : m.Guarded)
    (hr : (m.step host).machine.state = .running) : ∃ d, Retires host d m (m.step host) := by
  rcases h.step_cases host with hs | hs
  · have hn := hs.halted
    rw [hr] at hn
    cases hn
  · exact hs

/-- As long as a machine runs, its steps are paid from the budget. -/
theorem Guarded.budget_add_le (h : m.Guarded) (hh : ∀ k, (hosts k).Genuine) (n : Nat)
    (hr : (m.after hosts n).state = .running) :
    (m.after hosts n).course.budget + n ≤ m.course.budget := by
  induction n with
  | zero => simp [Machine.after]
  | succ n ih =>
    have hg := h.after hh n
    obtain ⟨d, hd⟩ := hg.retires hr
    have hlt := hd.move.budget_lt (hg.step (hh n)).sound hd.decoded
    have hle := ih hd.started
    rw [Machine.after]
    omega

theorem Guarded.isHalted_after (h : m.Guarded) (hh : ∀ k, (hosts k).Genuine) :
    (m.after hosts 4294967296).state.isHalted = true := by
  by_contra hn
  have hle := h.budget_add_le hh _ (RunState.eq_running hn)
  have hlt := h.sound.budget_lt
  omega

/-- Below the point where the meter saturates, every step adds to it. -/
theorem Guarded.le_complexity (h : m.Guarded) (hh : ∀ k, (hosts k).Genuine) {limit : UInt64}
    (hl : m.control.limit = some limit) (hlt : limit.toNat < 18446744073709551615) (n : Nat)
    (hr : (m.after hosts n).state = .running) :
    (m.after hosts n).control.limit = some limit ∧
      n ≤ (m.after hosts n).control.complexity.toNat := by
  induction n with
  | zero => exact ⟨hl, Nat.zero_le _⟩
  | succ n ih =>
    obtain ⟨d, hd⟩ := (h.after hh n).retires hr
    obtain ⟨hlim, hle⟩ := ih hd.started
    have hcov := UInt64.le_iff_toNat_le.mp (hd.covered limit hlim)
    have hcost := d.instruction.one_le_cost
    rw [hd.complexity, Control.toNat_saturatingAdd] at hcov
    refine ⟨hd.limit.trans hlim, ?_⟩
    rw [Machine.after, hd.complexity, Control.toNat_saturatingAdd]
    omega

theorem Guarded.isHalted_after_limit (h : m.Guarded) (hh : ∀ k, (hosts k).Genuine)
    {limit : UInt64} (hl : m.control.limit = some limit) :
    (m.after hosts (limit.toNat + 1)).state.isHalted = true := by
  by_cases hlt : limit.toNat < 18446744073709551615
  · by_contra hn
    have hr := RunState.eq_running hn
    obtain ⟨-, hle⟩ := h.le_complexity hh hl hlt _ hr
    obtain ⟨d, hd⟩ := (h.after hh limit.toNat).retires hr
    obtain ⟨hlim, -⟩ := h.le_complexity hh hl hlt _ hd.started
    have hcov := UInt64.le_iff_toNat_le.mp (hd.covered limit hlim)
    rw [Machine.after] at hle
    omega
  · -- The meter can stand still at the largest limit, but that is more than 4294967296 steps.
    exact isHalted_after_of_le (by omega) (h.isHalted_after hh)

end Machine

namespace Run

variable {host : Resolver} {r : Run}

theorem machine_step (host : Resolver) (r : Run) :
    (r.step host).machine = (r.machine.step host).machine := rfl

theorem advance_of_isHalted (host : Resolver) (h : r.machine.state.isHalted = true) (n : Nat) :
    advance host n r = r := by
  cases n with
  | zero => rfl
  | succ n => rw [advance, if_pos h]

theorem advance_succ (host : Resolver) (n : Nat) (r : Run) :
    advance host (n + 1) r =
      if (advance host n r).machine.state.isHalted then advance host n r
      else (advance host n r).step host := by
  induction n generalizing r with
  | zero => rfl
  | succ n ih =>
    by_cases hr : r.machine.state.isHalted = true
    · rw [advance_of_isHalted host hr, advance_of_isHalted host hr, if_pos hr]
    · rw [advance, if_neg hr, ih, advance, if_neg hr]

theorem machine_advance (host : Resolver) (n : Nat) (r : Run) :
    (advance host n r).machine = r.machine.after (fun _ => host) n := by
  induction n with
  | zero => rfl
  | succ n ih =>
    rw [advance_succ, Machine.after, ← ih]
    by_cases hr : (advance host n r).machine.state.isHalted = true
    · rw [if_pos hr, Machine.step_of_isHalted host hr]
    · rw [if_neg hr, machine_step]

theorem advance_of_le {n k : Nat} (hk : n ≤ k)
    (h : (advance host n r).machine.state.isHalted = true) :
    advance host k r = advance host n r := by
  obtain ⟨j, rfl⟩ := Nat.exists_eq_add_of_le hk
  induction j with
  | zero => rfl
  | succ j ih =>
    have hj := ih (Nat.le_add_right n j)
    rw [← Nat.add_assoc, advance_succ, hj, if_pos h]

end Run

namespace Machine

variable {m₀ : Machine} {p : Program} {code constants input : Bytes} {config : Config}

theorem exists_verdict {m : Machine} (h : m.state.isHalted = true) : ∃ v, m.verdict? = some v := by
  unfold verdict?
  cases hs : m.state with
  | running =>
    rw [hs] at h
    cases h
  | succeeded => exact ⟨_, rfl⟩
  | failed reason => exact ⟨_, rfl⟩

/-- What every step of a run that goes on is paid with: a transfer spends a cycle,
any other instruction moves the counter ahead in a code of at most 65535 bytes. -/
def Pays (m m' : Machine) : Prop :=
  m.program.code.size ≤ 65535 ∧
    ∃ d, Instruction.decode m.program.code m.pc = .ok d ∧
      (m.transfers d.instruction = true →
        m'.control.cycles.toNat = m.control.cycles.toNat + 1) ∧
      (m.transfers d.instruction = false → m.course.Advances m'.course)

theorem Guarded.pays {host : Resolver} {m : Machine} (h : m.Guarded)
    (hr : (m.step host).machine.state = .running) : m.Pays (m.step host).machine := by
  obtain ⟨d, hd⟩ := h.retires hr
  refine ⟨h.sound.loaded.valid.size_le, d, hd.decoded, ?_, ?_⟩
  · intro ht
    obtain ⟨hn, hc⟩ := hd.spends ht
    rw [hc, Control.toNat_next_cycle hn]
  · intro ht
    rw [hd.falls ht]
    exact Course.advances_next hd.decoded

/-- Every run halts within 4294967296 steps and, under a limit, within one more than
the limit. So a complete run has a verdict, and more steps would not change it. -/
theorem run_terminates (hp : Program.load code constants = .ok p)
    (hm : Machine.load p input config = .ok m₀) :
    (∀ hosts : Nat → Resolver, (∀ k, (hosts k).Genuine) →
      (∀ n, (m₀.after hosts (n + 1)).state = .running →
        (m₀.after hosts n).Pays (m₀.after hosts (n + 1))) ∧
      (m₀.after hosts 4294967296).state.isHalted = true ∧
      ∀ limit, config.complexityLimit = some limit →
        (m₀.after hosts (limit.toNat + 1)).state.isHalted = true) ∧
    ∀ host : Resolver, host.Genuine →
      (∃ v, (Run.complete host (Run.ofMachine m₀)).machine.verdict? = some v) ∧
      ∀ n, Run.maxSteps ≤ n →
        Run.advance host n (Run.ofMachine m₀) = Run.complete host (Run.ofMachine m₀) := by
  have hg : m₀.Guarded := guarded_load hp hm
  refine ⟨fun hosts hh => ⟨?_, hg.isHalted_after hh, ?_⟩, ?_⟩
  · intro n hr
    exact (hg.after hh n).pays hr
  · intro limit hl
    refine hg.isHalted_after_limit hh ?_
    rw [load_eq_ok hm]
    exact hl
  · intro host hh
    have hc : (Run.complete host (Run.ofMachine m₀)).machine.state.isHalted = true := by
      rw [Run.complete, Run.machine_advance]
      exact hg.isHalted_after fun _ => hh
    exact ⟨exists_verdict hc, fun n hn => Run.advance_of_le hn hc⟩

/-- A loop without an exit, under a limit. -/
theorem run_terminates_loop :
    ∃ p m₀, Program.load [4, 0, 0] [] = .ok p ∧
      Machine.load p [] { complexityLimit := some 7 } = .ok m₀ ∧
      (m₀.after (fun _ => Resolver.none) 4294967296).state.isHalted = true ∧
      (m₀.after (fun _ => Resolver.none) 8).state.isHalted = true ∧
      ∃ v, (Run.complete Resolver.none (Run.ofMachine m₀)).machine.verdict? = some v := by
  obtain ⟨p, m₀, hp, hm⟩ : ∃ p m₀, Program.load [4, 0, 0] [] = .ok p ∧
      Machine.load p [] { complexityLimit := some 7 } = .ok m₀ := ⟨_, _, rfl, rfl⟩
  obtain ⟨hruns, hcomplete⟩ := run_terminates hp hm
  obtain ⟨-, hhalted, hlimit⟩ := hruns (fun _ => Resolver.none) fun _ => Resolver.genuine_none
  exact ⟨p, m₀, hp, hm, hhalted, hlimit 7 rfl, (hcomplete _ Resolver.genuine_none).1⟩

end Machine

end VerdictMachine

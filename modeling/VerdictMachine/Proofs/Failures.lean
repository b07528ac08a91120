import VerdictMachine.Proofs.Denotation
import VerdictMachine.Proofs.Division
import VerdictMachine.Proofs.Footprint

/-!
# Failures stop a machine that is set to halt

A few instructions can fail: the one that does nothing else, a division by zero,
a verification that does not hold. A failure is noticed by comparing the count
of failures before and after the instruction, so none is missed as long as the
count does not saturate, and in no run it does. A machine that halts on failures
and is never told otherwise ends in success only if nothing has failed.
-/

set_option autoImplicit false

namespace VerdictMachine

theorem IntOp.apply_eq_none_iff {w : Nat} (op : IntOp) (x y : Word w) (signed : Bool) :
    op.apply x y signed = none ↔ (op = .div ∨ op = .rem) ∧ y.toNat = 0 := by
  rw [← Word.divMod_eq_none_iff x y signed]
  cases op <;> simp [IntOp.apply, Word.div, Word.mod]

namespace Machine

variable {host : Resolver} {d : Decoded} {m m' : Machine} {flow : Flow}

theorem toNat_word (m : Machine) (bank : IntBank) (r : Register) :
    (m.word bank r).toNat = Bytes.toNatLE (m.registers.slot bank.toBank r) := by
  have hlt := Bytes.toNatLE_lt (m.registers.slot bank.toBank r)
  rw [RegisterFile.length_slot] at hlt
  rw [word, Word.toNat_ofBytes]
  exact Nat.mod_eq_of_lt hlt

/-- The instruction raises a failure if the machine comes to execute it. -/
def Fails (m : Machine) : Instruction → Prop
  | .fail => True
  | .arith op _ bank _ _ b =>
    (op = .div ∨ op = .rem) ∧ Bytes.toNatLE (m.registers.slot bank.toBank b) = 0
  | .verifySchnorr key sig msg => m.schnorrHolds key sig msg = false
  | .verifyEcdsa key sig msg => m.ecdsaHolds key sig msg = false
  | .verifyMerkle root leaf seg addr =>
    m.merkleHolds root leaf seg (m.registers.a32 addr) = .ok false
  | _ => False

theorem fails_arith_iff {op : IntOp} {signed : Bool} {bank : IntBank} {dst a b : Register} :
    m.Fails (.arith op signed bank dst a b) ↔
      op.apply (m.word bank a) (m.word bank b) signed = none := by
  rw [IntOp.apply_eq_none_iff, toNat_word]
  rfl

theorem execute_of_fails (host : Resolver) (h : m.Fails d.instruction) :
    execute host d m = .done .next m.raiseFailure := by
  unfold execute
  cases hi : d.instruction with
  | fail => rfl
  | arith op signed bank dst a b =>
    rw [hi, fails_arith_iff] at h
    simp only [arith, h]
  | verifySchnorr key sig msg =>
    rw [hi] at h
    simp only [demand, show m.schnorrHolds key sig msg = false from h]
    rfl
  | verifyEcdsa key sig msg =>
    rw [hi] at h
    simp only [demand, show m.ecdsaHolds key sig msg = false from h]
    rfl
  | verifyMerkle root leaf seg addr =>
    rw [hi] at h
    simp only [demandMerkle, show m.merkleHolds root leaf seg _ = .ok false from h]
    rfl
  | _ =>
    rw [hi] at h
    exact h.elim

/-- Only a failure writes what raising one writes, but for the instruction that takes the flag
back. -/
theorem fails_of_mem_writes {i : Instruction} {part : Part} (hp : part ∈ Part.raised)
    (h : part ∈ m.writes i) : m.Fails i ∨ i = .succ ∧ part = .failure := by
  cases i with
  | fail => exact .inl trivial
  | succ => exact .inr ⟨rfl, List.mem_singleton.mp h⟩
  | arith op signed bank dst a b =>
    rw [fails_arith_iff]
    dsimp only [writes] at h
    grind [Part.raised]
  | st seg bank src addr =>
    cases seg <;> grind [writes, Part.raised, Part.addressed]
  | verifySchnorr | verifyEcdsa | verifyMerkle =>
    dsimp only [writes] at h
    grind [Part.raised, Fails]
  | _ =>
    dsimp only [writes] at h
    grind [Part.raised]

theorem failures_of_not_fails (hn : ¬ m.Fails d.instruction)
    (hx : execute host d m = .done flow m') :
    m'.control.failureCount = m.control.failureCount ∧
      (m'.control.failure = true → m.control.failure = true) := by
  have hconf := execute_confined host d m
  rw [hx] at hconf
  refine ⟨hconf .failureCount ?_, ?_⟩
  · intro hmem
    rcases fails_of_mem_writes (by decide) hmem with hf | ⟨-, he⟩
    · exact hn hf
    · cases he
  · intro hset
    by_cases hs : d.instruction = .succ
    · rw [execute, hs] at hx
      cases hx
      cases hset
    · have hkept : m'.control.failure = m.control.failure := by
        apply hconf .failure
        intro hmem
        rcases fails_of_mem_writes (by decide) hmem with hf | ⟨he, -⟩
        · exact hn hf
        · exact hs he
      exact hkept.symm.trans hset

theorem autoHalt_not_mem_writes {i : Instruction} (h : ∀ enabled, i ≠ .autoHalt enabled) :
    .autoHalt ∉ m.writes i := by
  cases i with
  | autoHalt enabled => exact absurd rfl (h enabled)
  | callLib library entry => simp [writes]
  | ret =>
    dsimp only [writes]
    split <;> simp
  | st seg bank src addr => cases seg <;> simp [writes, Part.addressed]
  | _ =>
    dsimp only [writes]
    grind [Part.raised]

theorem autoHalt_of_execute (hx : execute host d m = .done flow m') :
    m'.control.autoHalt = m.control.autoHalt ∨
      d.instruction = .autoHalt m'.control.autoHalt := by
  by_cases hi : ∃ enabled, d.instruction = .autoHalt enabled
  · obtain ⟨enabled, hi⟩ := hi
    rw [execute, hi] at hx
    cases hx
    exact .inr hi
  · have hconf := execute_confined host d m
    rw [hx] at hconf
    apply Or.inl
    apply hconf .autoHalt
    apply autoHalt_not_mem_writes
    intro enabled he
    exact hi ⟨enabled, he⟩

/-! ## The step that executes an instruction -/

theorem fails_pay (m : Machine) (cost : UInt64) (i : Instruction) :
    (m.pay cost).Fails i ↔ m.Fails i := by
  cases i <;> rfl

theorem Performs.step_eq (hd : m.Performs d) (host : Resolver) :
    m.step host = conclude d.next m.control.failureCount [m.startEvent d] (m.lookup? d.instruction)
      (execute host d (m.pay d.instruction.cost)) := by
  obtain ⟨control, hc⟩ := hd.paid
  obtain ⟨rfl, -⟩ := Control.charge_eq_ok hc
  exact step_of_decode host hd.running hd.decoded hc

theorem Performs.step_of_fails (hd : m.Performs d) (hu : m.Unsaturated)
    (hf : m.Fails d.instruction) (ha : m.control.autoHalt = true) (host : Resolver) :
    (m.step host).outcome = .halted (.failed .rejected) ∧
      (m.step host).machine.state = .failed .rejected ∧
      (m.step host).machine.pc = m.pc ∧ (m.step host).machine.program = m.program := by
  have hx : execute host d (m.pay d.instruction.cost) =
      .done .next (m.pay d.instruction.cost).raiseFailure :=
    execute_of_fails host ((fails_pay m _ _).mpr hf)
  have hne : Control.saturatingAdd m.control.failureCount 1 ≠ m.control.failureCount := by
    intro he
    have hraise := hu.raise
    rw [he] at hraise
    omega
  have hstop : ((m.pay d.instruction.cost).raiseFailure.control.failureCount !=
      m.control.failureCount && (m.pay d.instruction.cost).raiseFailure.control.autoHalt) = true :=
    Bool.and_eq_true_iff.mpr ⟨bne_iff_ne.mpr hne, ha⟩
  rw [hd.step_eq host, hx, conclude, settle, if_pos hstop]
  exact ⟨rfl, rfl, rfl, rfl⟩

/-! ## Runs in which no failure goes unnoticed -/

/-- The machine halts on failures, and none was raised but one that has halted it. -/
structure Vigilant (m : Machine) : Prop where
  armed : m.control.autoHalt = true
  clean : m.state ≠ .failed .rejected → m.control.failureCount = 0

theorem Vigilant.step (h : m.Vigilant) (hg : m.Guarded) (hu : m.Unsaturated)
    (hno : ∀ d, m.Performs d → d.instruction ≠ .autoHalt false) (host : Resolver) :
    (m.step host).machine.Vigilant := by
  by_cases hhalt : m.state.isHalted = true
  · rw [step_of_isHalted host hhalt]
    exact h
  · have hr := RunState.eq_running hhalt
    have hzero : m.control.failureCount = 0 := h.clean (by rw [hr]; nofun)
    have hstep := fun d (hd : m.Performs d) hf => hd.step_of_fails hu hf h.armed host
    have hstages := step_stages host hg.sound hr
    generalize m.step host = r at hstages hstep
    cases hstages with
    | ended | refused | faulted => exact ⟨h.armed, fun _ => hzero⟩
    | @settled d flow m' hd hc hx =>
      have hperforms : m.Performs d := ⟨hr, hd, _, hc⟩
      obtain ⟨pc, state, hm'⟩ := m'.settle_machine d.next flow m.control.failureCount
        [m.startEvent d] (m.lookup? d.instruction)
      refine ⟨?_, ?_⟩
      · rw [hm']
        rcases autoHalt_of_execute hx with hkept | hi
        · exact hkept.trans h.armed
        · cases hb : m'.control.autoHalt with
          | true => rfl
          | false =>
            rw [hb] at hi
            exact absurd hi (hno d hperforms)
      · intro hstate
        have hn : ¬ m.Fails d.instruction := fun hf => hstate (hstep d hperforms hf).2.1
        rw [hm']
        exact (failures_of_not_fails (mt (fails_pay m _ _).mp hn) hx).1.trans hzero

variable {hosts : Nat → Resolver} {m₀ : Machine} {p : Program} {code constants input : Bytes}
  {config : Config}

theorem vigilant_after (hp : Program.load code constants = .ok p)
    (hm : Machine.load p input config = .ok m₀) (hh : ∀ k, (hosts k).Genuine)
    (ha : config.autoHalt = true)
    (hno : ∀ k d, (m₀.after hosts k).Performs d → d.instruction ≠ .autoHalt false) (n : Nat) :
    (m₀.after hosts n).Vigilant := by
  induction n with
  | zero =>
    rw [load_eq_ok hm]
    exact ⟨ha, fun _ => rfl⟩
  | succ n ih =>
    exact ih.step ((guarded_load hp hm).after hh n) (unsaturated_after hp hm hh n) (hno n) (hosts n)

theorem not_fails_of_succeeded (hp : Program.load code constants = .ok p)
    (hm : Machine.load p input config = .ok m₀) (hh : ∀ k, (hosts k).Genuine)
    (ha : ∀ k, (m₀.after hosts k).control.autoHalt = true) {n k : Nat}
    (hs : (m₀.after hosts n).state = .succeeded) (hd : (m₀.after hosts k).Performs d) :
    ¬ (m₀.after hosts k).Fails d.instruction := by
  intro hf
  obtain ⟨-, hrej, -⟩ := hd.step_of_fails (unsaturated_after hp hm hh k) hf (ha k) (hosts k)
  change (m₀.after hosts (k + 1)).state = _ at hrej
  by_cases hk : n ≤ k
  · have hhalt := isHalted_after_of_le hk (show (m₀.after hosts n).state.isHalted = true by
      rw [hs]
      rfl)
    rw [hd.running] at hhalt
    cases hhalt
  · obtain ⟨j, rfl⟩ := Nat.exists_eq_add_of_lt (Nat.lt_of_not_le hk)
    rw [Nat.add_right_comm, after_add_of_isHalted (by rw [hrej]; rfl), hrej] at hs
    cases hs

/-- An instruction that fails halts a machine which is set to halt on failures, there and in
rejection. So if the machine is set so from the start and no instruction of any program takes it
back, success means that not one instruction has failed. -/
theorem auto_halt_never_missed (hp : Program.load code constants = .ok p)
    (hm : Machine.load p input config = .ok m₀) (hh : ∀ k, (hosts k).Genuine) :
    (∀ n d host, let m := m₀.after hosts n
      let r := m.step host
      m.control.autoHalt = true → m.Performs d → m.Fails d.instruction →
        r.outcome = .halted (.failed .rejected) ∧ r.machine.state = .failed .rejected ∧
          r.machine.pc = m.pc ∧ r.machine.program = m.program) ∧
    (config.autoHalt = true →
      (∀ n d, (m₀.after hosts n).Performs d → d.instruction ≠ .autoHalt false) →
      ∀ n output registers control,
        (m₀.after hosts n).verdict? = some (.success output registers control) →
        control.failureCount = 0 ∧
          ∀ k d, (m₀.after hosts k).Performs d → ¬ (m₀.after hosts k).Fails d.instruction) := by
  refine ⟨?_, ?_⟩
  · intro n d host m r ha hd hf
    exact hd.step_of_fails (unsaturated_after hp hm hh n) hf ha host
  · intro ha hno n output registers control hv
    have hvig := vigilant_after hp hm hh ha hno
    obtain ⟨hs, rfl⟩ : (m₀.after hosts n).state = .succeeded ∧
        control = (m₀.after hosts n).control := by
      unfold verdict? at hv
      split at hv <;> cases hv
      exact ⟨by assumption, rfl⟩
    refine ⟨(hvig n).clean (by rw [hs]; nofun), ?_⟩
    intro k d hd
    exact not_fails_of_succeeded hp hm hh (fun k => (hvig k).armed) hs hd

/-- A division by an empty register halts the machine. The same division after the register was
filled does not, and the run that follows succeeds without a failure. -/
theorem auto_halt_never_missed_division :
    (∃ p m₀, Program.load [0x23, 0, 0, 1, 2, 1] [] = .ok p ∧
      Machine.load p [] { autoHalt := true } = .ok m₀ ∧
      m₀.Performs ⟨.arith .div false .a8 0 1 2, 0, 5⟩ ∧ m₀.Fails (.arith .div false .a8 0 1 2) ∧
      (m₀.step Resolver.none).machine.state = .failed .rejected ∧
      (m₀.step Resolver.none).machine.pc = m₀.pc) ∧
    ∃ p m₀ output registers control,
      Program.load [0x10, 0, 2, 5, 0x23, 0, 0, 1, 2, 1] [] = .ok p ∧
      Machine.load p [] { autoHalt := true } = .ok m₀ ∧
      (m₀.after (fun _ => Resolver.none) 3).verdict? = some (.success output registers control) ∧
      control.failureCount = 0 := by
  refine ⟨?_, ?_⟩
  · obtain ⟨p, m₀, hp, hm, ha, hr, hd, hf⟩ :
        ∃ p m₀, Program.load [0x23, 0, 0, 1, 2, 1] [] = .ok p ∧
          Machine.load p [] { autoHalt := true } = .ok m₀ ∧ m₀.control.autoHalt = true ∧
          m₀.state = .running ∧
          Instruction.decode m₀.program.code m₀.pc = .ok ⟨.arith .div false .a8 0 1 2, 0, 5⟩ ∧
          Bytes.toNatLE (m₀.registers.slot .a8 2) = 0 := by
      exact ⟨_, _, rfl, rfl, by decide +kernel⟩
    have hperforms : m₀.Performs ⟨.arith .div false .a8 0 1 2, 0, 5⟩ := by
      refine ⟨hr, hd, ?_⟩
      rw [load_eq_ok hm]
      exact ⟨_, rfl⟩
    have hfails : m₀.Fails (.arith .div false .a8 0 1 2) := ⟨.inl rfl, hf⟩
    obtain ⟨hstep, -⟩ := auto_halt_never_missed hp hm fun _ => Resolver.genuine_none
    obtain ⟨-, hs, hpc, -⟩ := hstep 0 _ Resolver.none ha hperforms hfails
    exact ⟨p, m₀, hp, hm, hperforms, hfails, hs, hpc⟩
  · obtain ⟨p, m₀, hp, hm, hput, hdiv, hstop, hs⟩ :
        ∃ p m₀, Program.load [0x10, 0, 2, 5, 0x23, 0, 0, 1, 2, 1] [] = .ok p ∧
          Machine.load p [] { autoHalt := true } = .ok m₀ ∧
          Instruction.decode m₀.program.code m₀.pc =
            .ok ⟨.put .a8 2 (Block.fit 32 [5]), 0, 4⟩ ∧
          Instruction.decode (m₀.after (fun _ => Resolver.none) 1).program.code
            (m₀.after (fun _ => Resolver.none) 1).pc = .ok ⟨.arith .div false .a8 0 1 2, 4, 9⟩ ∧
          Instruction.decode (m₀.after (fun _ => Resolver.none) 2).program.code
            (m₀.after (fun _ => Resolver.none) 2).pc = .ok ⟨.stop, 9, 10⟩ ∧
          (m₀.after (fun _ => Resolver.none) 3).state = .succeeded := by
      exact ⟨_, _, rfl, rfl, by decide +kernel⟩
    have hno : ∀ n d, (m₀.after (fun _ => Resolver.none) n).Performs d →
        d.instruction ≠ .autoHalt false := by
      intro n d hd
      match n with
      | 0 => cases hput.symm.trans hd.decoded; nofun
      | 1 => cases hdiv.symm.trans hd.decoded; nofun
      | 2 => cases hstop.symm.trans hd.decoded; nofun
      | n + 3 =>
        have hhalt := isHalted_after_of_le (Nat.le_add_left 3 n)
          (show (m₀.after (fun _ => Resolver.none) 3).state.isHalted = true by rw [hs]; rfl)
        rw [hd.running] at hhalt
        cases hhalt
    obtain ⟨output, registers, control, hv⟩ : ∃ output registers control,
        (m₀.after (fun _ => Resolver.none) 3).verdict? =
          some (.success output registers control) := by
      rw [verdict?, hs]
      exact ⟨_, _, _, rfl⟩
    obtain ⟨-, hsuccess⟩ := auto_halt_never_missed hp hm fun _ => Resolver.genuine_none
    have ha : ({ autoHalt := true } : Config).autoHalt = true := rfl
    exact ⟨p, m₀, output, registers, control, hp, hm, hv, (hsuccess ha hno 3 _ _ _ hv).1⟩

end Machine

end VerdictMachine

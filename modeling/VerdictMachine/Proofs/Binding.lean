import Mathlib.Data.List.Nodup
import VerdictMachine.Proofs.CallDiscipline
import VerdictMachine.Proofs.Limit

/-!
# Libraries are bound once

A library is bound to its id by content when it is first called, and stays bound
for the whole run. So the host matters at one step for each library at most: at
the first call that is executed. A host that answers as at those steps, whatever
else it answers, gives the same run.
-/

set_option autoImplicit false

namespace VerdictMachine

theorem Program.Loaded.id_eq {p : Program} (h : p.Loaded) :
    p.id = ProgramId.ofContents p.code.toList p.constants.toList := by
  obtain ⟨code, constants, h⟩ := h
  have hl := Program.load_spec code constants
  rw [h] at hl
  cases hl with
  | accepted hc hk hd hs => rfl

theorem Course.Move.entered {host : Resolver} {d : Decoded} {c c' : Course}
    (h : Move host d c c') {id : ProgramId} {entry : UInt16}
    (hi : d.instruction = .callLib id entry) :
    c.libraries.Supplies host id c'.program ∧ c'.libraries.find? id = some c'.program := by
  cases h with
  | enter hi' hp he hf hc =>
    cases hi.symm.trans hi'
    exact ⟨hp, hp.find?_insertNew⟩
  | advance hi' =>
    rw [hi] at hi'
    cases hi'
  | jump hi' | call hi' | back hi' | leave hi' => cases hi.symm.trans hi'

namespace Machine

/-- The next step executes a call of a library: the call is there and is paid for. -/
def Calls (m : Machine) (id : ProgramId) : Prop :=
  m.state = .running ∧ ∃ d entry control, Instruction.decode m.program.code m.pc = .ok d ∧
    d.instruction = .callLib id entry ∧ m.control.charge d.instruction.cost = .ok control

/-- A run calls a library at a step and at no step before. -/
def FirstCall (hosts : Nat → Resolver) (m : Machine) (id : ProgramId) (k : Nat) : Prop :=
  (m.after hosts k).Calls id ∧ ∀ j, j < k → ¬ (m.after hosts j).Calls id

/-- A host that answers for each library as the run was answered at the first call of it. -/
def Replays (host : Resolver) (hosts : Nat → Resolver) (m : Machine) : Prop :=
  ∀ id k, m.FirstCall hosts id k → host id = hosts k id

/-- The libraries known are under the ids of their contents, the program that executes is one of
them. -/
structure Bound (m : Machine) : Prop where
  contents : ∀ id p, m.libraries.find? id = some p →
    p.id = id ∧ id = ProgramId.ofContents p.code.toList p.constants.toList
  current : m.libraries.find? m.program.id = some m.program

variable {host host' : Resolver} {hosts : Nat → Resolver} {d : Decoded} {m : Machine}
  {id : ProgramId}

theorem Guarded.bound (h : m.Guarded) : m.Bound := by
  refine ⟨?_, h.sound.known⟩
  intro id p hp
  obtain ⟨hl, rfl⟩ := h.sound.genuine id p hp
  exact ⟨rfl, hl.id_eq⟩

/-! ## Where the host is heard -/

theorem execute_congr_host (h : ∀ id entry, d.instruction = .callLib id entry →
    m.libraries.find? id = none → host id = host' id) :
    execute host d m = execute host' d m := by
  unfold execute
  cases hi : d.instruction with
  | callLib id entry =>
    have hr : m.resolve host id = m.resolve host' id := by
      unfold resolve
      cases hl : m.libraries.find? id with
      | some p => rfl
      | none => rw [h id entry hi hl]
    simp only [callLibrary, hr]
  | _ => rfl

theorem step_reaches (m : Machine) :
    (∃ r : Report, r.lookup = none ∧ ∀ host, m.step host = r) ∨
      ∃ d control, m.state = .running ∧ Instruction.decode m.program.code m.pc = .ok d ∧
        m.control.charge d.instruction.cost = .ok control := by
  by_cases hr : m.state.isHalted = true
  · exact .inl ⟨⟨m, .halted m.state, [], none⟩, rfl, fun host => if_pos hr⟩
  · replace hr := RunState.eq_running hr
    cases hd : Instruction.decode m.program.code m.pc with
    | error e => exact .inl ⟨_, rfl, fun host => step_of_decode_error host hr hd⟩
    | ok d =>
      cases hc : m.control.charge d.instruction.cost with
      | error f => exact .inl ⟨_, rfl, fun host => step_of_charge_error host hr hd hc⟩
      | ok control => exact .inr ⟨d, control, hr, rfl, hc⟩

/-- A step depends on the answer for a library that it calls and does not know, and on nothing
else of the host. -/
theorem step_congr_host
    (h : ∀ id, m.Calls id → m.libraries.find? id = none → host id = host' id) :
    m.step host = m.step host' := by
  rcases m.step_reaches with ⟨r, -, hr⟩ | ⟨d, control, hr, hd, hc⟩
  · rw [hr, hr]
  · have hx : execute host d { m with control := control } =
        execute host' d { m with control := control } := by
      apply execute_congr_host
      intro id entry hi hn
      exact h id ⟨hr, d, entry, control, hd, hi, hc⟩ hn
    rw [step_of_decode host hr hd hc, step_of_decode host' hr hd hc, hx]

theorem lookup_conclude (next : UInt16) (failures : UInt64) (events : List Event)
    (lookup : Option ProgramId) (e : Effect) :
    (conclude next failures events lookup e).lookup = lookup := by
  cases e with
  | fault f m => rfl
  | done flow m =>
    simp only [conclude, settle]
    generalize (m.control.failureCount != failures && m.control.autoHalt) = stopped
    cases stopped with
    | true => rfl
    | false => cases flow.target? next <;> rfl

theorem calls_of_lookup (h : (m.step host).lookup = some id) :
    m.Calls id ∧ m.libraries.find? id = none := by
  rcases m.step_reaches with ⟨r, hn, hr⟩ | ⟨d, control, hr, hd, hc⟩
  · rw [hr, hn] at h
    cases h
  · rw [step_of_decode host hr hd hc, lookup_conclude] at h
    cases hi : d.instruction with
    | callLib library entry =>
      rw [hi] at h
      cases hf : m.libraries.find? library with
      | some p => simp [lookup?, hf] at h
      | none =>
        simp only [lookup?, hf, Option.some.injEq] at h
        subst h
        exact ⟨⟨hr, d, entry, control, hd, hi, hc⟩, hf⟩
    | _ =>
      rw [hi] at h
      cases h

/-! ## After the first call -/

theorem Guarded.known_after (h : m.Guarded) (hh : ∀ k, (hosts k).Genuine) {j n : Nat} (hj : j < n)
    (hc : (m.after hosts j).Calls id) (hr : (m.after hosts n).state = .running) :
    ∃ q, (m.after hosts n).libraries.find? id = some q := by
  induction n with
  | zero => exact absurd hj (Nat.not_lt_zero j)
  | succ n ih =>
    have hg := h.after hh n
    rcases Nat.lt_succ_iff_lt_or_eq.mp hj with hlt | rfl
    · have hn : (m.after hosts n).state = .running := by
        apply RunState.eq_running
        intro hhalt
        have hhalted := isHalted_after_of_le (Nat.le_succ n) hhalt
        rw [hr] at hhalted
        cases hhalted
      obtain ⟨q, hq⟩ := ih hlt hn
      exact ⟨q, hg.find?_mono (hosts n) id q hq⟩
    · obtain ⟨-, d, entry, -, hd, hi, -⟩ := hc
      rcases hg.step_cases (hosts j) with hs | ⟨e, hs⟩
      · have hhalt := hs.halted
        rw [show ((m.after hosts j).step (hosts j)).machine.state = .running from hr] at hhalt
        cases hhalt
      · obtain rfl := Except.ok.inj (hs.decoded.symm.trans hd)
        exact ⟨_, (hs.move.entered hi).2⟩

theorem Guarded.firstCall (h : m.Guarded) (hh : ∀ k, (hosts k).Genuine) {n : Nat}
    (hc : (m.after hosts n).Calls id) (hn : (m.after hosts n).libraries.find? id = none) :
    m.FirstCall hosts id n := by
  refine ⟨hc, ?_⟩
  intro j hj hcall
  obtain ⟨q, hq⟩ := h.known_after hh hj hcall hc.1
  rw [hq] at hn
  cases hn

theorem FirstCall.unique {j k : Nat} (hj : m.FirstCall hosts id j) (hk : m.FirstCall hosts id k) :
    j = k := by
  apply Nat.le_antisymm
  · exact Nat.le_of_not_lt fun h => hj.2 k h hk.1
  · exact Nat.le_of_not_lt fun h => hk.2 j h hj.1

theorem exists_replays (hosts : Nat → Resolver) (m : Machine) (hh : ∀ k, (hosts k).Genuine) :
    ∃ host : Resolver, host.Genuine ∧ Replays host hosts m := by
  classical
  refine ⟨fun id => if h : ∃ k, m.FirstCall hosts id k then hosts h.choose id else none, ?_, ?_⟩
  · intro id p hp
    dsimp only at hp
    split_ifs at hp with h
    exact hh _ id p hp
  · intro id k hk
    have h : ∃ k, m.FirstCall hosts id k := ⟨k, hk⟩
    dsimp only
    rw [dif_pos h, h.choose_spec.unique hk]

theorem Guarded.step_of_replays (h : m.Guarded) (hh : ∀ k, (hosts k).Genuine)
    (hr : Replays host hosts m) (n : Nat) :
    (m.after hosts n).step host = (m.after hosts n).step (hosts n) := by
  apply step_congr_host
  intro id hc hn
  exact hr id n (h.firstCall hh hc hn)

end Machine

namespace Run

variable {host host' : Resolver} {hosts : Nat → Resolver} {m : Machine}

theorem step_congr {r : Run} (h : r.machine.step host = r.machine.step host') :
    r.step host = r.step host' := by
  obtain ⟨m, events, lookups⟩ := r
  simp only [step]
  rw [h]

theorem after_of_replays (hg : m.Guarded) (hh : ∀ k, (hosts k).Genuine)
    (hr : Machine.Replays host hosts m) (n : Nat) :
    (ofMachine m).after (fun _ => host) n = (ofMachine m).after hosts n := by
  induction n with
  | zero => rfl
  | succ n ih =>
    rw [after, after, ih]
    apply step_congr
    rw [machine_after]
    exact hg.step_of_replays hh hr n

theorem lookups_succ (hosts : Nat → Resolver) (m : Machine) (n : Nat) :
    ((ofMachine m).after hosts (n + 1)).lookups.toList =
      ((ofMachine m).after hosts n).lookups.toList ++
        ((m.after hosts n).step (hosts n)).lookup.toList := by
  have hm := machine_after hosts (ofMachine m) n
  change _ = m.after hosts n at hm
  rw [after, ← hm]
  generalize (ofMachine m).after hosts n = r
  obtain ⟨m, events, lookups⟩ := r
  simp [step, record]

theorem called_of_mem_lookups (hosts : Nat → Resolver) (m : Machine) {n : Nat} {id : ProgramId}
    (h : id ∈ ((ofMachine m).after hosts n).lookups.toList) :
    ∃ j, j < n ∧ (m.after hosts j).Calls id := by
  induction n with
  | zero => cases h
  | succ n ih =>
    rw [lookups_succ, List.mem_append, Option.mem_toList] at h
    rcases h with h | h
    · obtain ⟨j, hj, hc⟩ := ih h
      exact ⟨j, Nat.lt_succ_of_lt hj, hc⟩
    · exact ⟨n, Nat.lt_succ_self n, (Machine.calls_of_lookup h).1⟩

theorem nodup_lookups (hg : m.Guarded) (hh : ∀ k, (hosts k).Genuine) (n : Nat) :
    ((ofMachine m).after hosts n).lookups.toList.Nodup := by
  induction n with
  | zero => exact List.nodup_nil
  | succ n ih =>
    rw [lookups_succ]
    cases hl : ((m.after hosts n).step (hosts n)).lookup with
    | none => simpa using ih
    | some id =>
      obtain ⟨hc, hn⟩ := Machine.calls_of_lookup hl
      have hfirst := hg.firstCall hh hc hn
      apply List.nodup_append.mpr
      refine ⟨ih, List.nodup_singleton id, ?_⟩
      intro a ha b hb
      obtain rfl := List.mem_singleton.mp hb
      rintro rfl
      obtain ⟨j, hj, hcall⟩ := called_of_mem_lookups hosts m ha
      exact hfirst.2 j hj hcall

end Run

namespace Machine

variable {hosts : Nat → Resolver} {m₀ : Machine} {p : Program} {code constants input : Bytes}
  {config : Config}

/-- Whatever the hosts answer from step to step, a run binds each library once and by content.
The program in an entry has the id it is under, which is that of its contents; the program that
executes is an entry; no step removes or changes an entry; a library call that retires leads to
the program it names. Any one host that answers as the run was answered at the first call of each
library gives the same reports, states and records and so the same verdict, there is such a host,
and no host is asked for a library twice. -/
theorem libraries_bound_once (hp : Program.load code constants = .ok p)
    (hm : Machine.load p input config = .ok m₀) (hh : ∀ k, (hosts k).Genuine) :
    (∀ n, let m := m₀.after hosts n
      let m' := m₀.after hosts (n + 1)
      m.Bound ∧ (∀ id q, m.libraries.find? id = some q → m'.libraries.find? id = some q) ∧
        ∀ d id entry pc next, Instruction.decode m.program.code m.pc = .ok d →
          d.instruction = .callLib id entry →
          (m.step (hosts n)).outcome = .retired pc next → m'.program.id = id) ∧
    (∀ host : Resolver, Replays host hosts m₀ →
      (∀ n, (m₀.after (fun _ => host) n).step host = (m₀.after hosts n).step (hosts n) ∧
        (Run.ofMachine m₀).after (fun _ => host) n = (Run.ofMachine m₀).after hosts n) ∧
      Run.complete host (Run.ofMachine m₀) = (Run.ofMachine m₀).after hosts Run.maxSteps) ∧
    (∃ host : Resolver, host.Genuine ∧ Replays host hosts m₀) ∧
    ∀ n, ((Run.ofMachine m₀).after hosts n).lookups.toList.Nodup := by
  have hg := guarded_load hp hm
  refine ⟨?_, ?_, exists_replays hosts m₀ hh, Run.nodup_lookups hg hh⟩
  · intro n m m'
    have hgn : m.Guarded := hg.after hh n
    refine ⟨hgn.bound, hgn.find?_mono (hosts n), ?_⟩
    intro d id entry pc next hd hi ho
    have hret := hgn.retires_of_outcome hd ho
    exact (hgn.sound.supplied (hh n) (hret.move.entered hi).1).2
  · intro host hr
    have hrun : ∀ n, (Run.ofMachine m₀).after (fun _ => host) n =
        (Run.ofMachine m₀).after hosts n := Run.after_of_replays hg hh hr
    refine ⟨fun n => ⟨?_, hrun n⟩, by rw [Run.complete_eq_after, hrun]⟩
    have hmachine := congrArg Run.machine (hrun n)
    rw [Run.machine_after, Run.machine_after] at hmachine
    rw [show m₀.after (fun _ => host) n = m₀.after hosts n from hmachine]
    exact hg.step_of_replays hh hr n

/-- The hosts after the first have forgotten the library, and it is called again and entered. A
host that remembers it gives the same run. -/
theorem libraries_bound_once_forgotten :
    ∃ lib p m₀, Program.load callThenReturn [] = .ok lib ∧
      Program.load (twoCalls lib.id) [] = .ok p ∧ Machine.load p [] {} = .ok m₀ ∧
      let hosts := forgetful lib
      m₀.FirstCall hosts lib.id 0 ∧ (m₀.after hosts 1).program = lib ∧
        (m₀.after hosts 4).Calls lib.id ∧ hosts 4 lib.id = none ∧
        (m₀.after hosts 5).program.id = lib.id ∧
        ∀ n, (Run.ofMachine m₀).after (fun _ => Resolver.single lib) n =
          (Run.ofMachine m₀).after hosts n := by
  obtain ⟨lib, p, m₀, hlib, hp, hm, hrun⟩ := exists_two_visits
  have h := hrun (forgetful lib) (if_pos rfl)
  have hcalls : m₀.Calls lib.id := ⟨h.at0.running, _, 0, _, h.decoded0, rfl,
    Control.charge_of_unlimited h.at0.unlimited _⟩
  have hagain : (m₀.after (forgetful lib) 4).Calls lib.id := ⟨h.at4.running, _, 0, _, h.decoded4,
    rfl, Control.charge_of_unlimited h.at4.unlimited _⟩
  have hreplays : Replays (Resolver.single lib) (forgetful lib) m₀ := by
    intro id k hk
    by_cases hzero : k = 0
    · exact congrFun (if_pos hzero).symm id
    · have hne : lib.id ≠ id := by
        rintro rfl
        exact hk.2 0 (Nat.pos_of_ne_zero hzero) hcalls
      rw [forgetful, if_neg hzero]
      exact if_neg hne
  obtain ⟨hbound, hreplay, -⟩ :=
    libraries_bound_once hp hm (genuine_forgetful ⟨_, _, hlib⟩)
  obtain ⟨-, -, hentered⟩ := hbound 4
  exact ⟨lib, p, m₀, hlib, hp, hm, ⟨hcalls, fun j hj => absurd hj (Nat.not_lt_zero j)⟩,
    h.at1.program, hagain, rfl, hentered _ _ _ _ _ h.decoded4 rfl h.outcome4,
    fun n => ((hreplay _ hreplays).1 n).2⟩

end Machine

end VerdictMachine

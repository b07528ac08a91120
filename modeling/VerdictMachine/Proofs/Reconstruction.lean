import VerdictMachine.Proofs.Causes
import VerdictMachine.Proofs.Trace

/-!
# The record reconstructs the control flow

A step of a running machine records the start of its instruction, then what the
instruction leads to: a failure, a transfer with the library boundary that it
crosses, or the end of the run. Between steps the record accounts for the place
where the machine stands, and the library calls that it leaves open are the
library frames of the call stack. From this every later event is accounted for.
-/

set_option autoImplicit false

namespace VerdictMachine

open Trace

/-- What a transfer records when it crosses into a library or back out of one. -/
def Course.crossing (c : Course) (d : Decoded) : List Event :=
  match d.instruction with
  | .callLib library entry => [.libraryCalled library entry]
  | .ret =>
    match c.stack.peek with
    | some (.library caller ret) => [.libraryReturned caller ret]
    | _ => []
  | _ => []

theorem Course.crossing_spec {c : Course} {d : Decoded} {e : Event} (h : e ∈ c.crossing d) :
    e.start? = none ∧ e.jump? = none ∧ e.isHalt = false := by
  unfold crossing at h
  split at h
  · rw [List.mem_singleton.mp h]
    exact ⟨rfl, rfl, rfl⟩
  · split at h
    · rw [List.mem_singleton.mp h]
      exact ⟨rfl, rfl, rfl⟩
    · cases h
  · cases h

/-- A transfer and the calls that are open: a library call opens one, the return from it closes
that one, and the record of the transfer is accounted for. -/
theorem Course.Move.traced {host : Resolver} {d : Decoded} {c c' : Course} {l : Library}
    {es : List Event} {fs : List Frame} {op : Opcode} (hs : c.Sound)
    (hh : host.Genuine) (hd : Instruction.decode c.program.code c.pc = .ok d)
    (hi : l.instruction? ⟨c.program.id, c.pc, op⟩ = some d.instruction)
    (h : Move host d c c') (hc : c'.cycles ≠ c.cycles) (hf : c.stack.Holds fs)
    (hp : Pending l es (fs.filterMap Frame.call?)) (cycles : UInt16) :
    let s : Start := ⟨c.program.id, c.pc, op⟩
    let between := c.crossing d ++ [.transferred c.pc c'.pc cycles]
    Tells l (es ++ [s.event]) between ∧
      (between.filterMap Event.entered? = [c'.program.id] ∨
        between.filterMap Event.entered? = [] ∧ c'.program.id = c.program.id) ∧
      ∃ gs, c'.stack.Holds gs ∧
        Pending l (es ++ s.event :: between) (gs.filterMap Frame.call?) := by
  intro s between
  -- Without a boundary to cross there is only the transfer itself.
  have hlocal : c.crossing d = [] → Tells l (es ++ [s.event]) between ∧
      between.filterMap Event.entered? = [] ∧
      Pending l (es ++ s.event :: between) (fs.filterMap Frame.call?) := by
    intro hx
    have hb : between = [.transferred c.pc c'.pc cycles] := by simp only [between, hx]; rfl
    rw [hb]
    exact ⟨⟨trivial, trivial⟩, rfl, hp.append (.skip rfl (.skip rfl .nil))⟩
  cases h with
  | advance => exact absurd rfl hc
  | jump hi' ht =>
    obtain ⟨htells, hentered, hpending⟩ := hlocal (by rw [Course.crossing, hi'])
    exact ⟨htells, .inr ⟨hentered, rfl⟩, fs, hf, hpending⟩
  | call hi' hfit =>
    obtain ⟨htells, hentered, hpending⟩ := hlocal (by rw [Course.crossing, hi'])
    exact ⟨htells, .inr ⟨hentered, rfl⟩, _, hf.store hfit, hpending⟩
  | back hi' hpeek =>
    obtain ⟨htells, hentered, hpending⟩ := hlocal (by simp only [Course.crossing, hi', hpeek])
    obtain ⟨gs, rfl⟩ := hf.of_peek hpeek
    exact ⟨htells, .inr ⟨hentered, rfl⟩, gs, hf.drop, hpending⟩
  | @enter library entry p hi' hsupplies hentry hfit =>
    have hb : between = [.libraryCalled library entry, .transferred c.pc entry cycles] := by
      simp only [between, Course.crossing, hi']
      rfl
    rw [hi'] at hi
    rw [hb]
    -- The frame that is pushed is the call that the record leaves open.
    refine ⟨⟨trivial, trivial, trivial⟩, .inl ?_, _, hf.store hfit, ?_⟩
    · rw [(hs.supplied hh hsupplies).2]
      rfl
    · obtain ⟨-, -, hnext, -⟩ := Instruction.decode_eq_ok_iff.mp hd
      rw [hi'] at hnext
      exact .call hp hi hnext (.skip rfl .nil)
  | @leave caller ret p hi' hpeek hcaller =>
    have hb : between = [.libraryReturned caller ret, .transferred c.pc ret cycles] := by
      simp only [between, Course.crossing, hi', hpeek]
      rfl
    obtain ⟨gs, rfl⟩ := hf.of_peek hpeek
    have hopen : Pending l (es ++ [s.event]) ((caller, ret) :: gs.filterMap Frame.call?) :=
      hp.append (.skip rfl .nil)
    rw [hb]
    refine ⟨⟨hopen.answers, trivial, trivial⟩, .inl ?_, gs, hf.drop, ?_⟩
    · rw [(hs.genuine _ _ hcaller).2]
      rfl
    · have hclosed := hopen.close (.skip (e := .transferred c.pc ret cycles) rfl .nil)
      rw [List.append_assoc] at hclosed
      exact hclosed

def Verdict.reason? : Verdict → Option Reason
  | .success .. => none
  | .failure reason .. => some reason

namespace Machine

variable {host : Resolver} {d : Decoded} {m : Machine} {r : Report}

theorem pushFrame_flow {frame : Frame} {flow flow' : Flow} {m' : Machine}
    (h : m.pushFrame frame flow = .done flow' m') : flow' = flow := by
  rw [pushFrame_eq] at h
  split_ifs at h
  cases hc : m.control.recordCycle with
  | error f =>
    rw [hc] at h
    cases h
  | ok control =>
    rw [hc] at h
    cases h
    rfl

theorem callLibrary_flow {library : ProgramId} {entry ret : UInt16} {flow : Flow} {m' : Machine}
    (h : m.callLibrary host library entry ret = .done flow m') : flow = .enter library entry := by
  unfold callLibrary at h
  cases hr : m.resolve host library with
  | error f =>
    rw [hr] at h
    cases h
  | ok p =>
    simp only [hr] at h
    split_ifs at h
    cases hp : m.pushFrame (.library m.program.id ret) (.enter library entry) with
    | fault f m'' =>
      rw [hp] at h
      cases h
    | done flow' m'' =>
      rw [hp] at h
      cases h
      exact pushFrame_flow hp

theorem jump_flow {guard : Option Condition} {target : Option UInt16} {flow : Flow} {m' : Machine}
    (h : m.jump guard target = .done flow m') (hf : flow ≠ .next) : ∃ t, flow = .jump t := by
  unfold jump at h
  dsimp only at h
  split_ifs at h
  · cases h
    exact absurd rfl hf
  · cases target with
    | none => cases h
    | some t =>
      cases hc : m.control.recordCycle with
      | error f =>
        simp only [hc] at h
        cases h
      | ok control =>
        simp only [hc] at h
        cases h
        exact ⟨t, rfl⟩

theorem ret_flow {flow : Flow} {m' : Machine} (h : m.ret = .done flow m') :
    (∃ ret, m.stack.peek = some (.plain ret) ∧ flow = .jump ret) ∨
      ∃ caller ret, m.stack.peek = some (.library caller ret) ∧ flow = .leave caller ret := by
  rw [ret_eq] at h
  split_ifs at h
  cases hc : m.control.recordCycle with
  | error f =>
    rw [hc] at h
    cases h
  | ok control =>
    simp only [hc] at h
    cases hp : m.stack.peek with
    | none =>
      rw [hp] at h
      cases h
    | some frame =>
      simp only [hp] at h
      cases frame with
      | plain ret =>
        cases h
        exact .inl ⟨ret, rfl, rfl⟩
      | library caller ret =>
        dsimp only [returnTo] at h
        cases hl : m.libraries.find? caller with
        | none =>
          rw [hl] at h
          cases h
        | some p =>
          rw [hl] at h
          cases h
          exact .inr ⟨caller, ret, rfl, rfl⟩

theorem events_of_execute {flow : Flow} {m' : Machine} {t : UInt16}
    (hx : execute host d m = .done flow m') (hi : m.transfers d.instruction = true)
    (hf : flow ≠ .next) (ht : flow.target? d.next = some t) (pc cycles : UInt16) :
    flow.events pc cycles = m.course.crossing d ++ [.transferred pc t cycles] := by
  unfold execute at hx
  unfold Course.crossing
  cases hd : d.instruction with
  | jump guard dest =>
    rw [hd] at hx
    obtain ⟨t', rfl⟩ := jump_flow hx hf
    cases ht
    rfl
  | call t' =>
    rw [hd] at hx
    obtain rfl := pushFrame_flow hx
    cases ht
    rfl
  | callLib library entry =>
    rw [hd] at hx
    obtain rfl := callLibrary_flow hx
    cases ht
    rfl
  | ret =>
    rw [hd] at hx
    rcases ret_flow hx with ⟨ret, hp, rfl⟩ | ⟨caller, ret, hp, rfl⟩
    · cases ht
      simp only [course, hp]
      rfl
    · cases ht
      simp only [course, hp]
      rfl
  | _ =>
    rw [hd] at hi
    cases hi

theorem settle_logs (m : Machine) (next : UInt16) (flow : Flow) (failures : UInt64)
    (events : List Event) (lookup : Option ProgramId) :
    let r := m.settle next flow failures events lookup
    ∃ raised, Failures raised ∧ (m.control.failureCount = failures → raised = []) ∧
      (r.machine.state.isHalted = true ∧
          r.events = events ++ raised ++ [.halted m.pc r.machine.state.reason?] ∨
        r.machine.state = m.state ∧ flow.target? next = some r.machine.pc ∧
          r.events = events ++ raised ++ flow.events m.pc m.control.cycles) := by
  unfold settle
  dsimp only
  refine ⟨if m.control.failureCount = failures then [] else
    [.failureRaised m.pc m.control.failureCount], ?_, fun h => if_pos h, ?_⟩
  · split_ifs
    · exact failures_nil
    · intro e he
      exact ⟨_, _, List.mem_singleton.mp he⟩
  · by_cases hs : (m.control.failureCount != failures && m.control.autoHalt) = true
    · rw [if_pos hs]
      refine .inl ⟨rfl, ?_⟩
      by_cases hf : m.control.failureCount = failures <;> simp [haltWith, hf]
    · rw [if_neg hs]
      cases flow.target? next with
      | none =>
        refine .inl ⟨isHalted_stopState _, ?_⟩
        by_cases hf : m.control.failureCount = failures <;> simp [haltWith, hf]
      | some t =>
        refine .inr ⟨rfl, rfl, ?_⟩
        by_cases hf : m.control.failureCount = failures <;> simp [hf]

/-- What a step of a running machine puts on record. -/
inductive Logs (host : Resolver) (m : Machine) (r : Report) : Prop
  | ended (hh : Halts m r) (he : r.events = [.halted m.pc r.machine.state.reason?])
  | halted {d : Decoded} {raised : List Event} (hh : Halts m r)
      (hd : Instruction.decode m.program.code m.pc = .ok d) (hf : Failures raised)
      (he : r.events = m.startEvent d :: raised ++ [.halted m.pc r.machine.state.reason?])
  | passed {d : Decoded} {raised : List Event} (hr : Retires host d m r)
      (ht : m.transfers d.instruction = false) (hf : Failures raised)
      (he : r.events = m.startEvent d :: raised)
  | transferred {d : Decoded} {cycles : UInt16} (hr : Retires host d m r)
      (ht : m.transfers d.instruction = true)
      (he : r.events =
        m.startEvent d :: m.course.crossing d ++ [.transferred m.pc r.machine.pc cycles])

theorem Executes.pc_eq {flow : Flow} {m' : Machine} (h : Executes host d m (.done flow m')) :
    m'.pc = m.pc := by
  cases h with
  | next hi h => exact congrArg Course.pc h.course
  | halt => rfl
  | transfer hi hf ht hm hpc hs hn hc => exact hpc

theorem Guarded.step_logs (h : m.Guarded) (hr : m.state = .running) (host : Resolver) :
    Logs host m (m.step host) := by
  have hhalts : (m.step host).machine.state.isHalted = true → Halts m (m.step host) := by
    intro hs
    rcases h.step_cases host with hh | ⟨d, hret⟩
    · exact hh
    · rw [hret.running] at hs
      cases hs
  have hretires : (m.step host).machine.state = .running → ∃ d, Retires host d m (m.step host) :=
    h.retires
  have hspec : ∀ d, Instruction.decode m.program.code m.pc = .ok d →
      Executes host d (m.pay d.instruction.cost) (execute host d (m.pay d.instruction.cost)) :=
    fun d hd => execute_spec h.sound hd
  have hstages := step_stages host h.sound hr
  generalize m.step host = r at hhalts hretires hstages
  cases hstages with
  | ended hd => exact .ended (hhalts rfl) rfl
  | refused hd hc => exact .halted (hhalts rfl) hd failures_nil rfl
  | faulted hd hc hx => exact .halted (hhalts rfl) hd failures_nil rfl
  | @settled d flow m' hd hc hx =>
    have hexec := hspec d hd
    rw [hx] at hexec
    have hpc : m'.pc = m.pc := hexec.pc_eq
    obtain ⟨raised, hf, hnone, hlogs⟩ := m'.settle_logs d.next flow m.control.failureCount
      [m.startEvent d] (m.lookup? d.instruction)
    generalize m'.settle d.next flow m.control.failureCount [m.startEvent d]
      (m.lookup? d.instruction) = r at hhalts hretires hlogs ⊢
    rw [hpc] at hlogs
    rcases hlogs with ⟨hs, he⟩ | ⟨hs, ht, he⟩
    · exact .halted (hhalts hs) hd hf he
    · obtain ⟨d', hret⟩ := hretires (hs.trans (hexec.state_eq.trans hr))
      obtain rfl := Except.ok.inj (hd.symm.trans hret.decoded)
      cases hexec with
      | next hi hsame => exact .passed hret hi hf (he.trans (List.append_nil _))
      | halt => cases ht
      | transfer hi hflow ht' hm hpc' hs' hn hc' =>
        -- A transfer counts no failure, so nothing is logged before it.
        obtain rfl := hnone (by rw [hc']; rfl)
        rw [events_of_execute hx hi hflow ht] at he
        exact .transferred hret hi he

/-- The record accounts for where a running machine stands. -/
structure Located (l : Library) (es : List Event) (m : Machine) : Prop where
  position : ∀ op, Justified l es (.started m.program.id m.pc op)
  calls : ∃ fs, m.stack.Holds fs ∧ Pending l es (fs.filterMap Frame.call?)
  unended : ∀ e ∈ es, e.isHalt = false

/-- The record says last, and only there, how and where the machine came to its end. -/
def Ended (es : List Event) (m : Machine) : Prop :=
  ∃ es', es = es' ++ [.halted m.pc m.state.reason?] ∧ ∀ e ∈ es', e.isHalt = false

/-- The invariant of every record. -/
structure Tracks (l : Library) (es : List Event) (m : Machine) : Prop where
  tells : Tells l [] es
  running : m.state = .running → Located l es m
  halted : m.state.isHalted = true → Ended es m

variable {l : Library} {es : List Event}

theorem Halts.tracks (hh : Halts m r) (ht : Tells l [] es) (hn : ∀ e ∈ es, e.isHalt = false)
    (front : List Event)
    (he : r.events = front ++ [.halted m.pc r.machine.state.reason?]) (hfront : Tells l es front)
    (hnone : ∀ e ∈ front, e.isHalt = false) : Tracks l (es ++ r.events) r.machine := by
  have hpc : r.machine.pc = m.pc := congrArg Course.pc hh.course
  rw [he]
  refine ⟨?_, ?_, fun _ => ⟨es ++ front, ?_, ?_⟩⟩
  · rw [tells_append, tells_append]
    exact ⟨ht, hfront, trivial, trivial⟩
  · intro hr
    have hs := hh.halted
    rw [hr] at hs
    cases hs
  · rw [hpc, List.append_assoc]
  · intro e hmem
    exact (List.mem_append.mp hmem).elim (hn e) (hnone e)

theorem Located.tracks {m' : Machine} {between : List Event} (h : Located l es m)
    (ht : Tells l [] es) (hr : m'.state = .running)
    (hb : ∀ e ∈ between, e.start? = none ∧ e.isHalt = false)
    (hbetween : Tells l (es ++ [m.startEvent d]) between)
    (hfollows : Follows l ⟨m.program.id, m.pc, d.instruction.opcode⟩ between m'.program.id m'.pc)
    (hcalls : ∃ fs, m'.stack.Holds fs ∧
      Pending l (es ++ m.startEvent d :: between) (fs.filterMap Frame.call?)) :
    Tracks l (es ++ m.startEvent d :: between) m' := by
  refine ⟨?_, fun _ => ⟨?_, hcalls, ?_⟩, ?_⟩
  · rw [tells_append]
    exact ⟨ht, h.position _, hbetween⟩
  · exact hfollows.justified (List.filterMap_eq_nil_iff.mpr fun e he => (hb e he).1) es
  · intro e he
    rcases List.mem_append.mp he with he | he
    · exact h.unended e he
    · rcases List.mem_cons.mp he with rfl | he
      · rfl
      · exact (hb e he).2
  · rw [hr]
    nofun

theorem Retires.tracks_passed {host : Resolver} {raised : List Event} (hret : Retires host d m r)
    (h : Located l es m) (ht : Tells l [] es)
    (hi : l.instruction? ⟨m.program.id, m.pc, d.instruction.opcode⟩ = some d.instruction)
    (hfalls : m.transfers d.instruction = false) (hf : Failures raised) :
    Tracks l (es ++ m.startEvent d :: raised) r.machine := by
  have hcourse := hret.falls hfalls
  have hprogram : r.machine.program = m.program := congrArg Course.program hcourse
  have hpc : r.machine.pc = d.next := congrArg Course.pc hcourse
  have hstack : r.machine.stack = m.stack := congrArg Course.stack hcourse
  obtain ⟨-, -, hnext, -⟩ := Instruction.decode_eq_ok_iff.mp hret.decoded
  obtain ⟨fs, hfs, hp⟩ := h.calls
  refine h.tracks ht hret.running ?_ (hf.tells _)
    ⟨.inr ⟨?_, ?_, d.instruction, hi, ?_⟩, .inr ⟨?_, ?_⟩⟩ ⟨fs, ?_, ?_⟩
  · intro e he
    obtain ⟨pc, count, rfl⟩ := hf e he
    exact ⟨rfl, rfl⟩
  · exact hf.filterMap_eq_nil fun _ _ => rfl
  · rw [hprogram]
  · rw [hpc, hnext]
  · exact hf.filterMap_eq_nil fun _ _ => rfl
  · rw [hprogram]
  · rw [hstack]
    exact hfs
  · exact hp.append (.skip rfl (matched_of_entered (hf.filterMap_eq_nil fun _ _ => rfl)))

theorem Retires.tracks_transferred {host : Resolver} {cycles : UInt16} (hg : m.Guarded)
    (hh : host.Genuine) (hret : Retires host d m r) (h : Located l es m) (ht : Tells l [] es)
    (hi : l.instruction? ⟨m.program.id, m.pc, d.instruction.opcode⟩ = some d.instruction)
    (hmoves : m.transfers d.instruction = true) :
    Tracks l (es ++ m.startEvent d :: (m.course.crossing d ++
      [.transferred m.pc r.machine.pc cycles])) r.machine := by
  obtain ⟨fs, hfs, hp⟩ := h.calls
  have hcycles : r.machine.course.cycles ≠ m.course.cycles := by
    obtain ⟨hn, hc⟩ := hret.spends hmoves
    intro he
    have hnat := Control.toNat_next_cycle hn
    rw [← hc, show r.machine.control.cycles = m.control.cycles from he] at hnat
    omega
  obtain ⟨htells, hentered, hcalls⟩ :=
    hret.move.traced hg.sound hh hret.decoded hi hcycles hfs hp cycles
  refine h.tracks ht hret.running ?_ htells ⟨.inl ?_, hentered⟩ hcalls
  · intro e he
    rcases List.mem_append.mp he with he | he
    · exact ⟨(Course.crossing_spec he).1, (Course.crossing_spec he).2.2⟩
    · rw [List.mem_singleton.mp he]
      exact ⟨rfl, rfl⟩
  · rw [List.filterMap_append,
      List.filterMap_eq_nil_iff.mpr fun e he => (Course.crossing_spec he).2.1]
    rfl

theorem Tracks.step (h : Tracks l es m) (hg : m.Guarded) (hh : host.Genuine)
    (hl : ∀ id p, m.libraries.find? id = some p → l.find? id = some p) :
    Tracks l (es ++ (m.step host).events) (m.step host).machine := by
  by_cases hhalt : m.state.isHalted = true
  · rw [Machine.step, if_pos hhalt, List.append_nil]
    exact h
  · have hr := RunState.eq_running hhalt
    have hloc := h.running hr
    have hi : ∀ {d}, Instruction.decode m.program.code m.pc = .ok d →
        l.instruction? ⟨m.program.id, m.pc, d.instruction.opcode⟩ = some d.instruction :=
      fun hd => Library.instruction?_eq_some_iff.mpr ⟨m.program, _, hl _ _ hg.sound.known, hd, rfl⟩
    cases hg.step_logs hr host with
    | ended hh he => exact hh.tracks h.tells hloc.unended [] he trivial (List.forall_mem_nil _)
    | halted hh hd hf he =>
      refine hh.tracks h.tells hloc.unended _ he ⟨hloc.position _, hf.tells _⟩ ?_
      intro e hmem
      rcases List.mem_cons.mp hmem with rfl | hmem
      · rfl
      · obtain ⟨pc, count, rfl⟩ := hf e hmem
        rfl
    | passed hret hfalls hf he =>
      rw [he]
      exact hret.tracks_passed hloc h.tells (hi hret.decoded) hfalls hf
    | transferred hret hmoves he =>
      rw [he]
      exact hret.tracks_transferred hg hh hloc h.tells (hi hret.decoded) hmoves

variable {hosts : Nat → Resolver} {m₀ : Machine} {p : Program} {code constants input : Bytes}
  {config : Config}

theorem Guarded.find?_after_of_le (h : m.Guarded) (hh : ∀ k, (hosts k).Genuine) {k n : Nat}
    (hk : k ≤ n) {id : ProgramId} {q : Program}
    (hq : (m.after hosts k).libraries.find? id = some q) :
    (m.after hosts n).libraries.find? id = some q := by
  induction hk with
  | refl => exact hq
  | step _ ih => exact (h.after hh _).find?_mono (hosts _) id q ih

theorem tracks_start (l : Library) (p : Program) (input : Bytes) (config : Config) :
    Tracks l [] (start p input config) := by
  refine ⟨trivial, fun _ => ⟨?_, ⟨[], CallStack.holds_initial _, .none .nil⟩, nofun⟩, nofun⟩
  intro op earlier s between he
  simp at he

theorem tracks_after (hp : Program.load code constants = .ok p)
    (hm : Machine.load p input config = .ok m₀) (hh : ∀ k, (hosts k).Genuine) (l : Library)
    (n : Nat) (hl : ∀ k, k ≤ n → ∀ id q, (m₀.after hosts k).libraries.find? id = some q →
      l.find? id = some q) :
    Tracks l ((Run.ofMachine m₀).after hosts n).events.toList (m₀.after hosts n) := by
  induction n with
  | zero =>
    rw [load_eq_ok hm]
    exact tracks_start l p input config
  | succ n ih =>
    have htracks := (ih fun k hk => hl k (Nat.le_succ_of_le hk)).step
      ((guarded_load hp hm).after hh n) (hh n) (hl n (Nat.le_succ n))
    rw [Run.after, Run.events_step, Run.machine_after, Array.toList_appendList]
    exact htracks

def upcoming? (m : Machine) : Option Start :=
  if m.state.isHalted then none
  else
    match Instruction.decode m.program.code m.pc with
    | .error _ => none
    | .ok d => some ⟨m.program.id, m.pc, d.instruction.opcode⟩

theorem Guarded.starts_step (h : m.Guarded) (host : Resolver) :
    (m.step host).events.filterMap Event.start? = m.upcoming?.toList := by
  unfold upcoming?
  by_cases hhalt : m.state.isHalted = true
  · rw [Machine.step, if_pos hhalt, if_pos hhalt]
    rfl
  · rw [if_neg hhalt]
    cases h.accounts (RunState.eq_running hhalt) host with
    | ended hd he =>
      rw [he, hd]
      rfl
    | refused hd hc he =>
      rw [he, hd]
      rfl
    | faulted hd hc hf he =>
      rw [he, hd]
      rfl
    | completed hd hc h =>
      rw [h.started, hd]
      rfl

theorem Guarded.starts_after (h : m₀.Guarded) (hh : ∀ k, (hosts k).Genuine) (n : Nat) :
    ((Run.ofMachine m₀).after hosts n).starts =
      (List.range n).filterMap fun k => (m₀.after hosts k).upcoming? := by
  induction n with
  | zero => rfl
  | succ n ih =>
    have hmachine : ((Run.ofMachine m₀).after hosts n).machine = m₀.after hosts n :=
      Run.machine_after hosts _ n
    rw [Run.after, Run.starts_step, ih, hmachine, (h.after hh n).starts_step, List.range_succ,
      List.filterMap_append]
    cases hu : (m₀.after hosts n).upcoming? <;> simp [hu]

theorem reason?_of_verdict? {v : Verdict} (h : m.verdict? = some v) :
    v.reason? = m.state.reason? := by
  unfold verdict? at h
  cases hs : m.state <;> rw [hs] at h <;> cases h <;> rfl

/-- The record of a run reconstructs its control flow. Every run comes to its end, and says so
once, last, with the place and the reason of its verdict. The starts are the instructions that
the machine came to. Each follows from the one before it and what lies between, and so does the
place where a machine stands that still runs. Every return from a library answers the last call
that is still open, and goes back behind it. -/
theorem trace_reconstructs_control_flow (hp : Program.load code constants = .ok p)
    (hm : Machine.load p input config = .ok m₀) (hh : ∀ k, (hosts k).Genuine) (n : Nat) :
    let r := (Run.ofMachine m₀).after hosts n
    let m := r.machine
    let es := r.events.toList
    (Run.maxSteps ≤ n → m.state.isHalted = true) ∧
    (m.state.isHalted = true →
      ∃ v es', m.verdict? = some v ∧ es = es' ++ [.halted m.pc v.reason?] ∧
        ∀ e ∈ es', e.isHalt = false) ∧
    (m.state = .running →
      (∀ e ∈ es, e.isHalt = false) ∧
        ∀ before (s : Start) between, es = before ++ s.event :: between →
          between.filterMap Event.start? = [] →
          Follows m.libraries s between m.program.id m.pc) ∧
    r.starts = ((List.range n).filterMap fun k => (m₀.after hosts k).upcoming?) ∧
    (∀ before (s : Start) between (t : Start) after,
      es = before ++ s.event :: between ++ t.event :: after →
        between.filterMap Event.start? = [] → Follows m.libraries s between t.program t.pc) ∧
    ∀ before caller ret after, es = before ++ .libraryReturned caller ret :: after →
      Answers m.libraries before caller ret := by
  intro r m es
  have hg := guarded_load hp hm
  have hmachine : m = m₀.after hosts n := Run.machine_after hosts _ n
  have htracks : Tracks m.libraries es m := by
    rw [hmachine]
    exact tracks_after hp hm hh _ n fun k hk id q hq => hg.find?_after_of_le hh hk hq
  refine ⟨?_, ?_, ?_, hg.starts_after hh n, ?_, ?_⟩
  · intro hn
    rw [hmachine]
    exact isHalted_after_of_le hn (hg.isHalted_after hh)
  · intro hs
    obtain ⟨v, hv⟩ := exists_verdict hs
    obtain ⟨es', he, hnone⟩ := htracks.halted hs
    exact ⟨v, es', hv, by rw [reason?_of_verdict? hv, he], hnone⟩
  · intro hs
    have hloc := htracks.running hs
    exact ⟨hloc.unended, fun before s between => hloc.position .nop before s between⟩
  · intro before s between t after he hb
    have htells := htracks.tells
    rw [he] at htells
    exact htells.justified before s between rfl hb
  · intro before caller ret after he
    have htells := htracks.tells
    rw [he] at htells
    exact htells.justified

/-- A library is called and returns, and the program then stops. Its return is on record and goes
back behind the call. -/
theorem trace_reconstructs_control_flow_library :
    ∃ lib p m₀, Program.load [0x0A] [] = .ok lib ∧
      Program.load (Instruction.assemble [.callLib lib.id 0, .stop]) [] = .ok p ∧
      Machine.load p [] { stackCapacity := 35 } = .ok m₀ ∧
      let r := (Run.ofMachine m₀).after (fun _ => Resolver.single lib) 3
      r.machine.state = .succeeded ∧
        (∃ v es', r.machine.verdict? = some v ∧
          r.events.toList = es' ++ [.halted r.machine.pc v.reason?] ∧
          ∀ e ∈ es', e.isHalt = false) ∧
        ∃ before after, r.events.toList = before ++ .libraryReturned p.id 35 :: after ∧
          Answers r.machine.libraries before p.id 35 := by
  -- Whether the library is the program itself is decided by their digests.
  have hrun : (do
      let lib ← Program.load [0x0A] []
      let p ← Program.load (Instruction.assemble [.callLib lib.id 0, .stop]) []
      let m₀ ← Machine.load p [] { stackCapacity := 35 }
      let r := (Run.ofMachine m₀).after (fun _ => Resolver.single lib) 3
      return r.machine.state = .succeeded ∧
        r.events.toList[4]? = some (.libraryReturned p.id 35) : Except LoadError Bool).toOption =
        some true := by
    decide +kernel
  cases hlib : Program.load [0x0A] [] with
  | error e =>
    rw [hlib] at hrun
    cases hrun
  | ok lib =>
    cases hp : Program.load (Instruction.assemble [.callLib lib.id 0, .stop]) [] with
    | error e =>
      simp only [hlib, hp, bind, Except.bind] at hrun
      cases hrun
    | ok p =>
      cases hm : Machine.load p [] { stackCapacity := 35 } with
      | error e =>
        simp only [hlib, hp, hm, bind, Except.bind] at hrun
        cases hrun
      | ok m₀ =>
        simp only [hlib, hp, hm, bind, Except.bind, pure, Except.pure] at hrun
        obtain ⟨hs, hreturned⟩ := of_decide_eq_true (Option.some.inj hrun)
        obtain ⟨-, hhalted, -, -, -, hanswers⟩ := trace_reconstructs_control_flow hp hm
          (fun _ => Resolver.genuine_single ⟨_, _, hlib⟩) 3
        obtain ⟨before, after, hes⟩ := List.mem_iff_append.mp (List.mem_of_getElem? hreturned)
        refine ⟨lib, p, m₀, rfl, hp, hm, hs, hhalted ?_, before, after, hes, ?_⟩
        · rw [hs]
          rfl
        · exact hanswers before p.id 35 after hes

end Machine

end VerdictMachine

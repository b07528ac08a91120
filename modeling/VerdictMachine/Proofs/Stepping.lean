import VerdictMachine.Machine.Run
import VerdictMachine.Proofs.Course

/-!
# What one step does

Executing an instruction comes to one of four things: the machine goes on
behind it with the same course, it stops, it faults and is left as it was, or
it transfers. From this follows what a step of a sound machine does: it retires
an instruction and moves the course, or it halts and leaves the course alone.
-/

set_option autoImplicit false

namespace VerdictMachine

/-- Whether a fault can come from executing an instruction. The other faults come before:
from the code or from the charge. -/
def Fault.ofExecution : Fault → Bool
  | .illegalInstruction | .endOfCode | .complexityLimitExceeded => false
  | _ => true

namespace Control

variable {c c' : Control}

theorem charge_eq_ok {cost : UInt64} (h : c.charge cost = .ok c') :
    c' = { c with complexity := saturatingAdd c.complexity cost } ∧
      ∀ limit, c.limit = some limit → saturatingAdd c.complexity cost ≤ limit := by
  unfold charge at h
  cases hl : c.limit with
  | none =>
    simp only [hl, Except.ok.injEq] at h
    exact ⟨h.symm, nofun⟩
  | some limit =>
    simp only [hl] at h
    split_ifs at h with hlt
    refine ⟨(Except.ok.inj h).symm, ?_⟩
    rintro _ ⟨⟩
    exact UInt64.not_lt.mp hlt

theorem charge_eq_error {cost : UInt64} {f : Fault} (h : c.charge cost = .error f) :
    f = .complexityLimitExceeded := by
  unfold charge at h
  cases hl : c.limit with
  | none => simp [hl] at h
  | some limit =>
    simp only [hl] at h
    split_ifs at h with hlt
    exact (Except.error.inj h).symm

theorem recordCycle_cases (c : Control) :
    c.cycles = 65535 ∧ c.recordCycle = .error .cycleLimitExceeded ∨
      c.cycles ≠ 65535 ∧ c.recordCycle = .ok { c with cycles := c.cycles + 1 } := by
  unfold recordCycle
  by_cases hc : c.cycles = 65535
  · exact .inl ⟨hc, if_pos hc⟩
  · exact .inr ⟨hc, if_neg hc⟩

end Control

namespace Memory

theorem read_eq_error {m : Memory} {constants : Region} {seg : Segment} {address : UInt32}
    {len : Nat} {f : Fault} (h : m.read constants seg address len = .error f) :
    f = .segmentOutOfBounds := by
  unfold read at h
  cases hc : m.readable? constants seg with
  | none =>
    simp only [hc] at h
    exact (Except.error.inj h).symm
  | some cells =>
    cases hr : Segment.range? cells.size address len with
    | none =>
      simp only [hc, hr] at h
      exact (Except.error.inj h).symm
    | some r =>
      simp only [hc, hr] at h
      cases h

end Memory

namespace Machine

/-- Whether an instruction goes elsewhere than to the next one: calls and returns
do, and jumps whose guard holds. -/
def transfers (m : Machine) : Instruction → Bool
  | .jump guard _ => guard.all (·.holds m.control.carry m.control.failure)
  | .call _ | .callLib .. | .ret => true
  | _ => false

theorem movesStack_of_transfers {m : Machine} {i : Instruction} (h : m.transfers i = false) :
    i.movesStack = false := by
  cases i <;> first | rfl | cases h

structure SameMeter (m m' : Machine) : Prop where
  complexity : m'.control.complexity = m.control.complexity
  limit : m'.control.limit = m.control.limit

/-- Machines that differ at most in registers, data memory and flags, and by one failure. -/
structure SameCourse (m m' : Machine) : Prop extends SameMeter m m' where
  course : m'.course = m.course
  state : m'.state = m.state
  failures : m'.control.failureCount = m.control.failureCount ∨
    m'.control.failureCount = Control.saturatingAdd m.control.failureCount 1

/-- What a fault of an instruction presupposes. The cycle limit stops transfers only, and
only the one after the last that the counter can hold. -/
structure Raises (m : Machine) (i : Instruction) (f : Fault) : Prop where
  ofExecution : f.ofExecution = true
  spent : f = .cycleLimitExceeded → m.control.cycles = 65535 ∧ m.transfers i = true

theorem raises_of_ne {m : Machine} {i : Instruction} {f : Fault} (hf : f.ofExecution = true)
    (hc : f ≠ .cycleLimitExceeded) : Raises m i f :=
  ⟨hf, fun h => absurd h hc⟩

/-- What executing an instruction at a sound course comes to. -/
inductive Executes (host : Resolver) (d : Decoded) (m : Machine) : Effect → Prop
  | next {m' : Machine} (hi : m.transfers d.instruction = false) (h : SameCourse m m') :
      Executes host d m (.done .next m')
  | halt : Executes host d m (.done .halt m)
  | fault {f : Fault} (hf : Raises m d.instruction f) : Executes host d m (.fault f m)
  | transfer {flow : Flow} {t : UInt16} {m' : Machine} (hi : m.transfers d.instruction = true)
      (hf : flow ≠ .next) (ht : flow.target? d.next = some t)
      (hm : Course.Move host d m.course { m'.course with pc := t })
      (hpc : m'.pc = m.pc) (hs : m'.state = m.state) (hn : m.control.cycles ≠ 65535)
      (hc : m'.control = { m.control with cycles := m.control.cycles + 1 }) :
      Executes host d m (.done flow m')

variable {host : Resolver} {d : Decoded} {m : Machine}

theorem merkleHolds_eq_error {root leaf : Register} {seg : Segment} {address : UInt32} {f : Fault}
    (h : m.merkleHolds root leaf seg address = .error f) : f = .segmentOutOfBounds := by
  unfold merkleHolds at h
  cases hr : m.memory.read m.program.constants seg address proofHeaderBytes with
  | error g =>
    simp only [hr, bind, Except.bind] at h
    rw [← Except.error.inj h]
    exact Memory.read_eq_error hr
  | ok header =>
    simp only [hr, bind, Except.bind, pure, Except.pure] at h
    split_ifs at h
    · exact (Except.error.inj h).symm
    · split at h
      · next hr' =>
        rw [← Except.error.inj h]
        exact Memory.read_eq_error hr'
      · cases h

theorem executes_loadRegister (seg : Segment) (bank : Bank) (dst : Register) (address : UInt32)
    (hi : m.transfers d.instruction = false) :
    Executes host d m (m.loadRegister seg bank dst address) := by
  unfold loadRegister
  cases hr : m.memory.read m.program.constants seg address bank.bytes with
  | error f =>
    obtain rfl := Memory.read_eq_error hr
    exact .fault (raises_of_ne rfl nofun)
  | ok bs => exact .next hi ⟨⟨rfl, rfl⟩, rfl, rfl, .inl rfl⟩

theorem executes_storeRegister (seg : Segment) (bank : Bank) (src : Register) (address : UInt32)
    (hi : m.transfers d.instruction = false) :
    Executes host d m (m.storeRegister seg bank src address) := by
  rw [storeRegister_eq]
  split_ifs
  · exact .next hi ⟨⟨rfl, rfl⟩, rfl, rfl, .inl rfl⟩
  · exact .fault (raises_of_ne rfl nofun)

theorem executes_hashRange (seg : Segment) (dst addr size : Register)
    (hi : m.transfers d.instruction = false) :
    Executes host d m (m.hashRange seg dst addr size) := by
  unfold hashRange
  dsimp only
  cases hr : m.memory.read m.program.constants seg (m.registers.a32 addr)
      (m.registers.a32 size).toNat with
  | error f =>
    obtain rfl := Memory.read_eq_error hr
    exact .fault (raises_of_ne rfl nofun)
  | ok bs => exact .next hi ⟨⟨rfl, rfl⟩, rfl, rfl, .inl rfl⟩

theorem sameCourse_demand (valid : Bool) : SameCourse m (m.demand valid) := by
  cases valid with
  | true => exact ⟨⟨rfl, rfl⟩, rfl, rfl, .inl rfl⟩
  | false => exact ⟨⟨rfl, rfl⟩, rfl, rfl, .inr rfl⟩

theorem executes_demandMerkle (root leaf : Register) (seg : Segment) (address : UInt32)
    (hi : m.transfers d.instruction = false) :
    Executes host d m (m.demandMerkle root leaf seg address) := by
  unfold demandMerkle
  cases hr : m.merkleHolds root leaf seg address with
  | error f =>
    obtain rfl := merkleHolds_eq_error hr
    exact .fault (raises_of_ne rfl nofun)
  | ok valid => exact .next hi (sameCourse_demand valid)

theorem sameCourse_arith (op : IntOp) (signed : Bool) (bank : IntBank) (dst a b : Register) :
    SameCourse m (m.arith op signed bank dst a b) := by
  unfold arith
  split
  · exact ⟨⟨rfl, rfl⟩, rfl, rfl, .inl rfl⟩
  · exact ⟨⟨rfl, rfl⟩, rfl, rfl, .inr rfl⟩

theorem sameCourse_shift (op : ShiftOp) (bank : IntBank) (dst src amount : Register) :
    SameCourse m (m.shift op bank dst src amount) := by
  cases op <;> exact ⟨⟨rfl, rfl⟩, rfl, rfl, .inl rfl⟩

theorem jump_cases (m : Machine) (guard : Option Condition) (dest : Destination) (t : UInt16) :
    m.transfers (.jump guard dest) = false ∧ m.jump guard (some t) = .done .next m ∨
      m.transfers (.jump guard dest) = true ∧
        m.jump guard (some t) = match m.control.recordCycle with
          | .error f => .fault f m
          | .ok control => .done (.jump t) { m with control := control } := by
  cases guard with
  | none => exact .inr ⟨rfl, rfl⟩
  | some c =>
    cases hc : c.holds m.control.carry m.control.failure with
    | false => exact .inl ⟨hc, by simp only [jump, hc]; rfl⟩
    | true => exact .inr ⟨hc, by simp only [jump, hc]; rfl⟩

theorem executes_jump (hs : m.course.Sound) (hd : Instruction.decode m.program.code m.pc = .ok d)
    {guard : Option Condition} {dest : Destination} (hi : d.instruction = .jump guard dest) :
    Executes host d m (m.jump guard d.localTarget) := by
  obtain ⟨t, ht⟩ : ∃ t, d.instruction.target? d.next.toNat = some t := by
    rw [hi]
    cases dest <;> exact ⟨_, rfl⟩
  obtain ⟨target, ht, -⟩ := Decoded.exists_localTarget hd hs.loaded.valid.size_le ht
  rw [ht]
  rcases m.jump_cases guard dest target with ⟨hf, h⟩ | ⟨hf, h⟩
  · rw [h]
    exact .next (hi ▸ hf) ⟨⟨rfl, rfl⟩, rfl, rfl, .inl rfl⟩
  · rw [h]
    rcases m.control.recordCycle_cases with ⟨hc, hr⟩ | ⟨hc, hr⟩
    · rw [hr]
      exact .fault ⟨rfl, fun _ => ⟨hc, hi ▸ hf⟩⟩
    · rw [hr]
      exact .transfer (hi ▸ hf) nofun rfl (.jump hi ht hc) rfl rfl hc rfl

theorem pushFrame_cases (m : Machine) (frame : Frame) (flow : Flow) {i : Instruction}
    (hi : m.transfers i = true) :
    (∃ f, Raises m i f ∧ m.pushFrame frame flow = .fault f m) ∨
      m.stack.fits frame = true ∧ m.control.cycles ≠ 65535 ∧
        m.pushFrame frame flow = .done flow { m with
          control := { m.control with cycles := m.control.cycles + 1 }
          stack := m.stack.store frame } := by
  rw [pushFrame_eq]
  by_cases hf : m.stack.fits frame = true
  · rw [if_neg (by simp [hf])]
    rcases m.control.recordCycle_cases with ⟨hc, hr⟩ | ⟨hc, hr⟩
    · exact .inl ⟨.cycleLimitExceeded, ⟨rfl, fun _ => ⟨hc, hi⟩⟩, by rw [hr]⟩
    · exact .inr ⟨hf, hc, by rw [hr]⟩
  · rw [if_pos (by simp [hf])]
    exact .inl ⟨.stackOverflow, raises_of_ne rfl nofun, rfl⟩

theorem executes_call {t : UInt16} (hi : d.instruction = .call t) :
    Executes host d m (m.call t d.next) := by
  have htr : m.transfers d.instruction = true := by
    rw [hi]
    rfl
  unfold call
  rcases m.pushFrame_cases (.plain d.next) (.jump t) htr with ⟨f, hf, h⟩ | ⟨hf, hc, h⟩
  · rw [h]
    exact .fault hf
  · rw [h]
    exact .transfer htr nofun rfl (.call hi hf hc) rfl rfl hc rfl

theorem resolve_cases (m : Machine) (host : Resolver) (id : ProgramId) (i : Instruction) :
    (∃ f, Raises m i f ∧ m.resolve host id = .error f) ∨
      ∃ p, m.libraries.Supplies host id p ∧ m.resolve host id = .ok p := by
  unfold resolve
  cases hl : m.libraries.find? id with
  | some p => exact .inr ⟨p, .inl hl, rfl⟩
  | none =>
    cases hh : host id with
    | none => exact .inl ⟨.libraryNotFound, raises_of_ne rfl nofun, rfl⟩
    | some p =>
      by_cases hp : p.id = id
      · exact .inr ⟨p, .inr ⟨hl, hh, hp⟩, if_pos hp⟩
      · exact .inl ⟨.libraryMismatch, raises_of_ne rfl nofun, if_neg hp⟩

theorem executes_callLibrary {id : ProgramId} {entry : UInt16}
    (hi : d.instruction = .callLib id entry) :
    Executes host d m (m.callLibrary host id entry d.next) := by
  have htr : m.transfers d.instruction = true := by
    rw [hi]
    rfl
  unfold callLibrary
  rcases m.resolve_cases host id d.instruction with ⟨f, hf, h⟩ | ⟨p, hp, h⟩
  · rw [h]
    exact .fault hf
  · rw [h]
    dsimp only
    by_cases he : p.isBoundary entry = true
    · rw [if_neg (by simp [he])]
      rcases m.pushFrame_cases (.library m.program.id d.next) (.enter id entry) htr with
        ⟨f, hf, h⟩ | ⟨hf, hc, h⟩
      · rw [h]
        exact .fault hf
      · rw [h]
        exact .transfer htr nofun rfl (.enter hi hp he hf hc) rfl rfl hc rfl
    · rw [if_pos (by simp [he])]
      exact .fault (raises_of_ne rfl nofun)

theorem executes_ret (hs : m.course.Sound) (hi : d.instruction = .ret) :
    Executes host d m m.ret := by
  obtain ⟨fs, entry, hf, hu⟩ := hs.unwinds
  change m.stack.Holds fs at hf
  have ht : m.transfers d.instruction = true := by
    rw [hi]
    rfl
  rw [ret_eq]
  cases fs with
  | nil =>
    rw [if_pos (hf.isEmpty_iff.mpr rfl)]
    exact .fault (raises_of_ne rfl nofun)
  | cons f fs =>
    have he : ¬ m.stack.isEmpty = true := fun h => List.cons_ne_nil _ _ (hf.isEmpty_iff.mp h)
    have hp : m.stack.peek = some f := hf.peek
    rw [if_neg he]
    rcases m.control.recordCycle_cases with ⟨hc, hr⟩ | ⟨hc, hr⟩
    · rw [hr]
      exact .fault ⟨rfl, fun _ => ⟨hc, ht⟩⟩
    · rw [hr]
      dsimp only
      rw [hp]
      cases f with
      | plain ret => exact .transfer ht nofun rfl (.back hi hp hc) rfl rfl hc rfl
      | library caller ret =>
        cases hu with
        | library hl _ _ =>
          dsimp only [returnTo]
          rw [show m.libraries.find? caller = some _ from hl]
          exact .transfer ht nofun rfl (.leave hi hp hl hc) rfl rfl hc rfl

/-- One specification for every instruction. -/
theorem execute_spec (hs : m.course.Sound) (hd : Instruction.decode m.program.code m.pc = .ok d) :
    Executes host d m (execute host d m) := by
  unfold execute
  cases hi : d.instruction with
  | stop => exact .halt
  | fail => exact .next (by rw [hi]; rfl) ⟨⟨rfl, rfl⟩, rfl, rfl, .inr rfl⟩
  | jump guard dest => exact executes_jump hs hd hi
  | call t => exact executes_call hi
  | callLib id entry => exact executes_callLibrary hi
  | ret => exact executes_ret hs hi
  | ldc | ld => exact executes_loadRegister _ _ _ _ (by rw [hi]; rfl)
  | st => exact executes_storeRegister _ _ _ _ (by rw [hi]; rfl)
  | sha3Mem => exact executes_hashRange _ _ _ _ (by rw [hi]; rfl)
  | verifyMerkle => exact executes_demandMerkle _ _ _ _ (by rw [hi]; rfl)
  | arith => exact .next (by rw [hi]; rfl) (sameCourse_arith _ _ _ _ _ _)
  | shift => exact .next (by rw [hi]; rfl) (sameCourse_shift _ _ _ _ _)
  | verifySchnorr | verifyEcdsa => exact .next (by rw [hi]; rfl) (sameCourse_demand _)
  | _ => exact .next (by rw [hi]; rfl) ⟨⟨rfl, rfl⟩, rfl, rfl, .inl rfl⟩

/-- A step that halts leaves the course as it was. -/
structure Halts (m : Machine) (r : Report) : Prop where
  course : r.machine.course = m.course
  halted : r.machine.state.isHalted = true
  legal : r.machine.state ≠ .failed (.runtime .illegalInstruction)
  outcome : r.outcome = .halted r.machine.state

/-- A step that goes on. What is no transfer goes on behind the instruction. -/
structure Passes (host : Resolver) (d : Decoded) (m : Machine) (r : Report) : Prop where
  move : Course.Move host d m.course r.machine.course
  running : r.machine.state = .running
  outcome : r.outcome = .retired m.pc r.machine.pc
  falls : m.transfers d.instruction = false → r.machine.course = { m.course with pc := d.next }
  spends : m.transfers d.instruction = true →
    m.control.cycles ≠ 65535 ∧ r.machine.control.cycles = m.control.cycles + 1

/-- A step that retires an instruction, with what it costs. -/
structure Retires (host : Resolver) (d : Decoded) (m : Machine) (r : Report) : Prop
    extends Passes host d m r where
  started : m.state = .running
  decoded : Instruction.decode m.program.code m.pc = .ok d
  complexity : r.machine.control.complexity =
    Control.saturatingAdd m.control.complexity d.instruction.cost
  limit : r.machine.control.limit = m.control.limit
  covered : ∀ limit, m.control.limit = some limit → r.machine.control.complexity ≤ limit

theorem halts_haltWith {f : Fault} (hf : f ≠ .illegalInstruction) (events : List Event)
    (lookup : Option ProgramId) : Halts m (m.haltWith (.failed (.runtime f)) events lookup) := by
  refine ⟨rfl, rfl, ?_, rfl⟩
  rintro ⟨⟩
  exact hf rfl

theorem isHalted_stopState (m : Machine) : m.stopState.isHalted = true := by
  unfold stopState
  split <;> rfl

theorem stopState_ne_runtime (m : Machine) (f : Fault) : m.stopState ≠ .failed (.runtime f) := by
  unfold stopState
  split <;> nofun

theorem settle_cases (m : Machine) (next : UInt16) (flow : Flow) (failures : UInt64)
    (events : List Event) (lookup : Option ProgramId) :
    ((flow.target? next = none ∨ m.control.failureCount ≠ failures) ∧
        Halts m (m.settle next flow failures events lookup)) ∨
      ∃ t es, flow.target? next = some t ∧
        m.settle next flow failures events lookup =
          ⟨{ m with
              pc := t
              control := { m.control with stackPointer := UInt32.ofNat m.stack.top } },
            .retired m.pc t, es, lookup⟩ := by
  unfold settle
  by_cases hr : (m.control.failureCount != failures && m.control.autoHalt) = true
  · refine .inl ⟨.inr ?_, ?_⟩
    · simpa using (Bool.and_eq_true_iff.mp hr).1
    · rw [if_pos hr]
      exact ⟨rfl, rfl, nofun, rfl⟩
  · rw [if_neg hr]
    cases ht : flow.target? next with
    | none =>
      exact .inl ⟨.inl rfl, rfl, isHalted_stopState _, stopState_ne_runtime _ _, rfl⟩
    | some t => exact .inr ⟨t, _, rfl, rfl⟩

theorem settle_next {m' : Machine} (hr : m.state = .running)
    (hi : m.transfers d.instruction = false) (h : SameCourse m m') (events : List Event)
    (lookup : Option ProgramId) {r : Report}
    (hs : r = m'.settle d.next .next m.control.failureCount events lookup) :
    Halts m r ∨ Passes host d m r ∧ SameMeter m r.machine := by
  subst hs
  rcases m'.settle_cases d.next .next m.control.failureCount events lookup with
    ⟨-, hh⟩ | ⟨t, es, ht, he⟩
  · exact .inl ⟨hh.course.trans h.course, hh.halted, hh.legal, hh.outcome⟩
  · rw [he]
    obtain rfl := Option.some.inj ht
    have hc : { m'.course with pc := d.next } = { m.course with pc := d.next } := by
      rw [h.course]
    refine .inr ⟨⟨?_, h.state.trans hr, ?_, fun _ => hc, ?_⟩, h.complexity, h.limit⟩
    · change Course.Move host d m.course { m'.course with pc := d.next }
      rw [hc]
      exact .advance (movesStack_of_transfers hi)
    · rw [show m'.pc = m.pc from congrArg Course.pc h.course]
    · rw [hi]
      nofun

theorem settle_transfer {m' : Machine} {flow : Flow} {t : UInt16} (hr : m.state = .running)
    (hi : m.transfers d.instruction = true) (ht : flow.target? d.next = some t)
    (hm : Course.Move host d m.course { m'.course with pc := t }) (hpc : m'.pc = m.pc)
    (hs : m'.state = m.state) (hn : m.control.cycles ≠ 65535)
    (hc : m'.control = { m.control with cycles := m.control.cycles + 1 })
    (events : List Event) (lookup : Option ProgramId) {r : Report}
    (hset : r = m'.settle d.next flow m.control.failureCount events lookup) :
    Passes host d m r ∧ SameMeter m r.machine := by
  subst hset
  rcases m'.settle_cases d.next flow m.control.failureCount events lookup with
    ⟨hx | hx, -⟩ | ⟨t', es, ht', he⟩
  · rw [ht] at hx
    cases hx
  · rw [hc] at hx
    exact absurd rfl hx
  · rw [he]
    obtain rfl := Option.some.inj (ht.symm.trans ht')
    refine ⟨⟨hm, hs.trans hr, by rw [hpc], ?_, fun _ => ⟨hn, ?_⟩⟩, ?_, ?_⟩
    · rw [hi]
      nofun
    · rw [hc]
    · rw [hc]
    · rw [hc]

theorem settle_halt (next : UInt16) (events : List Event) (lookup : Option ProgramId) :
    Halts m (m.settle next .halt m.control.failureCount events lookup) := by
  rcases m.settle_cases next .halt m.control.failureCount events lookup with
    ⟨-, h⟩ | ⟨t, es, ht, -⟩
  · exact h
  · cases ht

/-- How the effect of an instruction that has been paid for ends the step. -/
def conclude (next : UInt16) (failures : UInt64) (events : List Event)
    (lookup : Option ProgramId) : Effect → Report
  | .fault f m => m.haltWith (.failed (.runtime f)) events lookup
  | .done flow m => m.settle next flow failures events lookup

theorem step_of_decode_error (host : Resolver) {e : DecodeError} (hr : m.state = .running)
    (hd : Instruction.decode m.program.code m.pc = .error e) :
    m.step host = m.haltWith (.failed (.runtime (decodeFault e))) [] none := by
  simp only [step, hr, RunState.isHalted, Bool.false_eq_true, if_false, hd]

theorem step_of_charge_error (host : Resolver) {f : Fault} (hr : m.state = .running)
    (hd : Instruction.decode m.program.code m.pc = .ok d)
    (hc : m.control.charge d.instruction.cost = .error f) :
    m.step host = m.haltWith (.failed (.runtime f))
      [.started m.program.id m.pc d.instruction.opcode] none := by
  simp only [step, hr, RunState.isHalted, Bool.false_eq_true, if_false, hd, hc]

theorem step_of_decode (host : Resolver) {control : Control} (hr : m.state = .running)
    (hd : Instruction.decode m.program.code m.pc = .ok d)
    (hc : m.control.charge d.instruction.cost = .ok control) :
    m.step host =
      conclude d.next control.failureCount [.started m.program.id m.pc d.instruction.opcode]
        (m.lookup? d.instruction) (execute host d { m with control := control }) := by
  simp only [step, hr, RunState.isHalted, Bool.false_eq_true, if_false, hd, hc]
  cases execute host d { m with control := control } with
  | fault f m => rfl
  | done flow m => rfl

theorem Executes.conclude {e : Effect} (h : Executes host d m e) (hr : m.state = .running)
    (events : List Event) (lookup : Option ProgramId) {r : Report}
    (hs : r = Machine.conclude d.next m.control.failureCount events lookup e) :
    Halts m r ∨ Passes host d m r ∧ SameMeter m r.machine := by
  cases h with
  | next hi h => exact settle_next hr hi h events lookup hs
  | halt =>
    rw [hs]
    exact .inl (settle_halt d.next events lookup)
  | fault hf =>
    rw [hs]
    refine .inl (halts_haltWith ?_ events lookup)
    rintro rfl
    cases hf.ofExecution
  | transfer hi _ ht hm hpc hst hn hc =>
    exact .inr (settle_transfer hr hi ht hm hpc hst hn hc events lookup hs)

/-- What a machine that is sound and running does next: it halts where it is, or
it retires the instruction at its counter. -/
theorem step_spec (host : Resolver) (hs : m.course.Sound) (hr : m.state = .running) :
    Halts m (m.step host) ∨ ∃ d, Retires host d m (m.step host) := by
  rcases hs.decode_cases with ⟨-, d, hd⟩ | ⟨-, hd⟩
  · change Instruction.decode m.program.code m.pc = .ok d at hd
    cases hc : m.control.charge d.instruction.cost with
    | error f =>
      rw [step_of_charge_error host hr hd hc]
      refine .inl (halts_haltWith ?_ _ _)
      rw [Control.charge_eq_error hc]
      decide
    | ok control =>
      have hstep := step_of_decode host hr hd hc
      obtain ⟨rfl, hl⟩ := Control.charge_eq_ok hc
      have hx : Executes host d _ (execute host d { m with control := { m.control with
        complexity := Control.saturatingAdd m.control.complexity d.instruction.cost } }) :=
        execute_spec hs hd
      rcases hx.conclude hr _ _ hstep with h | ⟨h, hmeter⟩
      · exact .inl ⟨h.course, h.halted, h.legal, h.outcome⟩
      · refine .inr ⟨d, ⟨h.move, h.running, h.outcome, h.falls, h.spends⟩, hr, hd,
          hmeter.complexity, hmeter.limit, ?_⟩
        intro limit hlim
        rw [hmeter.complexity]
        exact hl limit hlim
  · change Instruction.decode m.program.code m.pc = .error _ at hd
    rw [step_of_decode_error host hr hd]
    exact .inl (halts_haltWith (by simp [decodeFault]) _ _)

theorem step_of_isHalted (host : Resolver) (h : m.state.isHalted = true) :
    (m.step host).machine = m := by
  rw [step, if_pos h]

end Machine

end VerdictMachine

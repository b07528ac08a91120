import VerdictMachine.Proofs.Footprint

/-!
# Machines that an instruction cannot tell apart

Of memory and call stack a machine sees only what its instructions read: the
bytes of readable segments, the lengths of segments, the frame on top, and
whether there is room for what is stored. A likeness relates memories and stacks
that give the same answers and go on to do so. Machines that are alike, and equal
in all else, take the same step as long as both have room or neither has.
-/

set_option autoImplicit false

namespace VerdictMachine

namespace Memory

variable {a b : Memory}

/-- What can be read lies in the static segment, the input and the constants. -/
theorem read_congr (hs : b.static = a.static) (hi : b.input = a.input) (constants : Region)
    (seg : Segment) (address : UInt32) (len : Nat) :
    b.read constants seg address len = a.read constants seg address len := by
  have hcells : b.readable? constants seg = a.readable? constants seg := by
    cases seg with
    | static => exact congrArg some hs
    | input => exact congrArg some hi
    | _ => rfl
  rw [read, read, hcells]

theorem length_congr (hs : b.static = a.static) (hi : b.input = a.input)
    (ho : b.outputLength = a.outputLength) (constants : Region) (seg : Segment) :
    b.length constants seg = a.length constants seg := by
  cases seg with
  | static => exact congrArg Array.size hs
  | input => exact congrArg Array.size hi
  | output => exact ho
  | _ => rfl

end Memory

/-- A relation between memories and one between stacks, under which nothing that is read differs
and which stores and returns keep. -/
structure Likeness where
  memory : Memory → Memory → Prop
  stack : CallStack → CallStack → Prop
  read_eq {a b : Memory} (h : memory a b) (constants : Region) (seg : Segment) (address : UInt32)
    (len : Nat) : b.read constants seg address len = a.read constants seg address len
  length_eq {a b : Memory} (h : memory a b) (constants : Region) (seg : Segment) :
    b.length constants seg = a.length constants seg
  memory_store {a b : Memory} (h : memory a b) {seg : Segment} {address : UInt32} {bs : Bytes}
    (ha : a.admits seg address bs.length = true) :
    memory (a.store seg address bs) (b.store seg address bs)
  top_eq {s t : CallStack} (h : stack s t) : t.top = s.top
  peek_eq {s t : CallStack} (h : stack s t) : t.peek = s.peek
  stack_store {s t : CallStack} (h : stack s t) {f : Frame} (hf : s.fits f = true) :
    stack (s.store f) (t.store f)
  stack_drop {s t : CallStack} (h : stack s t) (f : Frame) : stack (s.drop f) (t.drop f)

namespace Likeness

/-- Machines that are equal but for memories and stacks, and these are alike. -/
inductive Alike (L : Likeness) (m : Machine) : Machine → Prop
  | intro {memory : Memory} {stack : CallStack} (hm : L.memory m.memory memory)
      (hs : L.stack m.stack stack) : Alike L m { m with memory := memory, stack := stack }

/-- Effects of one kind on machines that are alike. -/
inductive SameEffect (L : Likeness) : Effect → Effect → Prop
  | done {flow : Flow} {m m' : Machine} (h : L.Alike m m') :
      SameEffect L (.done flow m) (.done flow m')
  | fault {f : Fault} {m m' : Machine} (h : L.Alike m m') :
      SameEffect L (.fault f m) (.fault f m')

/-- Steps that look the same from outside and lead to machines that are alike. -/
structure SameReport (L : Likeness) (r r' : Report) : Prop where
  machine : L.Alike r.machine r'.machine
  outcome : r'.outcome = r.outcome
  events : r'.events = r.events
  lookup : r'.lookup = r.lookup

/-- Either both machines have room for what an instruction stores, or neither has. -/
def SameRoom (m m' : Machine) (d : Decoded) : Prop :=
  match d.instruction with
  | .st seg bank _ addr =>
    m'.memory.admits seg (m.registers.a32 addr) bank.bytes =
      m.memory.admits seg (m.registers.a32 addr) bank.bytes
  | .call _ => m'.stack.fits (.plain d.next) = m.stack.fits (.plain d.next)
  | .callLib .. =>
    m'.stack.fits (.library m.program.id d.next) = m.stack.fits (.library m.program.id d.next)
  | _ => True

variable {L : Likeness} {host : Resolver} {d : Decoded} {m m' : Machine}

namespace Alike

theorem program (h : L.Alike m m') : m'.program = m.program := by
  cases h
  rfl

theorem libraries (h : L.Alike m m') : m'.libraries = m.libraries := by
  cases h
  rfl

theorem pc (h : L.Alike m m') : m'.pc = m.pc := by
  cases h
  rfl

theorem registers (h : L.Alike m m') : m'.registers = m.registers := by
  cases h
  rfl

theorem control (h : L.Alike m m') : m'.control = m.control := by
  cases h
  rfl

theorem state (h : L.Alike m m') : m'.state = m.state := by
  cases h
  rfl

end Alike

theorem loadRegister_same (h : L.Alike m m') (seg : Segment) (bank : Bank) (dst : Register)
    (address : UInt32) :
    L.SameEffect (m.loadRegister seg bank dst address) (m'.loadRegister seg bank dst address) := by
  cases h with
  | intro hm hs =>
    dsimp only [Machine.loadRegister]
    rw [L.read_eq hm]
    cases m.memory.read m.program.constants seg address bank.bytes with
    | error f => exact .fault (.intro hm hs)
    | ok bs => exact .done (.intro hm hs)

theorem hashRange_same (h : L.Alike m m') (seg : Segment) (dst addr size : Register) :
    L.SameEffect (m.hashRange seg dst addr size) (m'.hashRange seg dst addr size) := by
  cases h with
  | intro hm hs =>
    dsimp only [Machine.hashRange]
    rw [L.read_eq hm]
    cases m.memory.read m.program.constants seg (m.registers.a32 addr)
        (m.registers.a32 size).toNat with
    | error f => exact .fault (.intro hm hs)
    | ok bs => exact .done (.intro hm hs)

theorem storeRegister_same (h : L.Alike m m') (seg : Segment) (bank : Bank) (src addr : Register)
    (hr : m'.memory.admits seg (m.registers.a32 addr) bank.bytes =
      m.memory.admits seg (m.registers.a32 addr) bank.bytes) :
    L.SameEffect (m.storeRegister seg bank src (m.registers.a32 addr))
      (m'.storeRegister seg bank src (m'.registers.a32 addr)) := by
  cases h with
  | intro hm hs =>
    have hlen := m.registers.length_slot bank src
    dsimp only at hr
    rw [Machine.storeRegister_eq, Machine.storeRegister_eq]
    dsimp only
    rw [hlen, hr]
    by_cases ha : m.memory.admits seg (m.registers.a32 addr) bank.bytes = true
    · rw [if_pos ha, if_pos ha]
      refine .done (.intro (L.memory_store hm ?_) hs)
      rw [hlen]
      exact ha
    · rw [if_neg ha, if_neg ha]
      exact .fault (.intro hm hs)

theorem segmentLength_alike (h : L.Alike m m') (seg : Segment) (dst : Register) :
    L.Alike (m.segmentLength seg dst) (m'.segmentLength seg dst) := by
  cases h with
  | intro hm hs =>
    dsimp only [Machine.segmentLength]
    rw [L.length_eq hm]
    exact .intro hm hs

theorem demand_alike (h : L.Alike m m') (valid : Bool) :
    L.Alike (m.demand valid) (m'.demand valid) := by
  cases h with
  | intro hm hs => cases valid <;> exact .intro hm hs

theorem merkleHolds_eq (h : L.Alike m m') (root leaf : Register) (seg : Segment)
    (address : UInt32) :
    m'.merkleHolds root leaf seg address = m.merkleHolds root leaf seg address := by
  cases h with
  | intro hm hs =>
    unfold Machine.merkleHolds
    simp only [L.read_eq hm]
    rfl

theorem demandMerkle_same (h : L.Alike m m') (root leaf : Register) (seg : Segment)
    (address : UInt32) :
    L.SameEffect (m.demandMerkle root leaf seg address)
      (m'.demandMerkle root leaf seg address) := by
  unfold Machine.demandMerkle
  rw [merkleHolds_eq h]
  cases m.merkleHolds root leaf seg address with
  | error f => exact .fault h
  | ok valid => exact .done (demand_alike h valid)

theorem arith_alike (h : L.Alike m m') (op : IntOp) (signed : Bool) (bank : IntBank)
    (dst a b : Register) :
    L.Alike (m.arith op signed bank dst a b) (m'.arith op signed bank dst a b) := by
  unfold Machine.arith Machine.word
  rw [h.registers]
  cases h with
  | intro hm hs => split <;> exact .intro hm hs

theorem shift_alike (h : L.Alike m m') (op : ShiftOp) (bank : IntBank) (dst src amount : Register) :
    L.Alike (m.shift op bank dst src amount) (m'.shift op bank dst src amount) := by
  cases h with
  | intro hm hs => cases op <;> exact .intro hm hs

/-- Spending a cycle is the same on both sides, so what follows it decides. -/
theorem recordCycle_same (h : L.Alike m m') {e e' : Control → Effect}
    (hok : ∀ control, L.SameEffect (e control) (e' control)) :
    L.SameEffect
      (match m.control.recordCycle with
        | .error f => .fault f m
        | .ok control => e control)
      (match m'.control.recordCycle with
        | .error f => .fault f m'
        | .ok control => e' control) := by
  rw [h.control]
  cases m.control.recordCycle with
  | error f => exact .fault h
  | ok control => exact hok control

theorem jump_same (h : L.Alike m m') (guard : Option Condition) (target : Option UInt16) :
    L.SameEffect (m.jump guard target) (m'.jump guard target) := by
  cases h with
  | intro hm hs =>
    dsimp only [Machine.jump]
    split_ifs
    · exact .done (.intro hm hs)
    · cases target with
      | none => exact .fault (.intro hm hs)
      | some t => exact recordCycle_same (.intro hm hs) fun control => .done (.intro hm hs)

theorem pushFrame_same (h : L.Alike m m') (frame : Frame) (flow : Flow)
    (hr : m'.stack.fits frame = m.stack.fits frame) :
    L.SameEffect (m.pushFrame frame flow) (m'.pushFrame frame flow) := by
  rw [Machine.pushFrame_eq, Machine.pushFrame_eq, hr]
  cases hf : m.stack.fits frame with
  | false => exact .fault h
  | true =>
    apply recordCycle_same h
    intro control
    cases h with
    | intro hm hs => exact .done (.intro hm (L.stack_store hs hf))

theorem callLibrary_same (h : L.Alike m m') (library : ProgramId) (entry ret : UInt16)
    (hr : m'.stack.fits (.library m.program.id ret) = m.stack.fits (.library m.program.id ret)) :
    L.SameEffect (m.callLibrary host library entry ret)
      (m'.callLibrary host library entry ret) := by
  unfold Machine.callLibrary
  rw [show m'.resolve host library = m.resolve host library by
    unfold Machine.resolve
    rw [h.libraries], h.program]
  cases m.resolve host library with
  | error f => exact .fault h
  | ok p =>
    dsimp only
    split_ifs
    · exact .fault h
    · have hpush := pushFrame_same h (.library m.program.id ret) (.enter library entry) hr
      generalize m.pushFrame (.library m.program.id ret) (.enter library entry) = e at hpush
      generalize m'.pushFrame (.library m.program.id ret) (.enter library entry) = e' at hpush
      cases hpush with
      | fault h => exact .fault h
      | done h =>
        cases h with
        | intro hm hs => exact .done (.intro hm hs)

theorem returnTo_same (h : L.Alike m m') (frame : Frame) :
    L.SameEffect (m.returnTo frame) (m'.returnTo frame) := by
  cases frame with
  | plain ret => exact .done h
  | library caller ret =>
    cases h with
    | intro hm hs =>
      dsimp only [Machine.returnTo]
      cases m.libraries.find? caller with
      | none => exact .fault (.intro hm hs)
      | some p => exact .done (.intro hm hs)

theorem ret_same (h : L.Alike m m') : L.SameEffect m.ret m'.ret := by
  have hpeek : m'.stack.peek = m.stack.peek := by
    cases h with
    | intro hm hs => exact L.peek_eq hs
  have hempty : m'.stack.isEmpty = m.stack.isEmpty := by
    cases h with
    | intro hm hs => exact congrArg (· == 0) (L.top_eq hs)
  rw [Machine.ret_eq, Machine.ret_eq, hempty]
  split_ifs
  · exact .fault h
  · apply recordCycle_same h
    intro control
    rw [hpeek]
    cases h with
    | intro hm hs =>
      cases m.stack.peek with
      | none => exact .fault (.intro hm hs)
      | some frame =>
        exact returnTo_same (m := { m with control := control, stack := m.stack.drop frame })
          (.intro hm (L.stack_drop hs frame)) frame

/-- Instructions see no difference between machines that are alike. -/
theorem execute_same (h : L.Alike m m') (host : Resolver) (d : Decoded)
    (hr : SameRoom m m' d) :
    L.SameEffect (Machine.execute host d m) (Machine.execute host d m') := by
  unfold Machine.execute
  unfold SameRoom at hr
  cases hi : d.instruction with
  | jump guard dest => exact jump_same h guard d.localTarget
  | call t =>
    rw [hi] at hr
    exact pushFrame_same h _ _ hr
  | callLib library entry =>
    rw [hi] at hr
    exact callLibrary_same h library entry d.next hr
  | ret => exact ret_same h
  | ldc bank dst offset => exact loadRegister_same h _ _ _ _
  | ld seg bank dst addr =>
    have hl := loadRegister_same h seg bank dst (m.registers.a32 addr)
    cases h with
    | intro hm hs => exact hl
  | st seg bank src addr =>
    rw [hi] at hr
    exact storeRegister_same h seg bank src addr hr
  | len seg dst => exact .done (segmentLength_alike h seg dst)
  | arith op signed bank dst a b => exact .done (arith_alike h op signed bank dst a b)
  | shift op bank dst src amount => exact .done (shift_alike h op bank dst src amount)
  | sha3Mem seg dst addr size => exact hashRange_same h seg dst addr size
  | verifySchnorr key sig msg =>
    have hd := demand_alike h (m.schnorrHolds key sig msg)
    cases h with
    | intro hm hs => exact .done hd
  | verifyEcdsa key sig msg =>
    have hd := demand_alike h (m.ecdsaHolds key sig msg)
    cases h with
    | intro hm hs => exact .done hd
  | verifyMerkle root leaf seg addr =>
    have hd := demandMerkle_same h root leaf seg (m.registers.a32 addr)
    cases h with
    | intro hm hs => exact hd
  | _ =>
    cases h with
    | intro hm hs => exact .done (.intro hm hs)

theorem haltWith_same (h : L.Alike m m') (state : RunState) (events : List Event)
    (lookup : Option ProgramId) :
    L.SameReport (m.haltWith state events lookup) (m'.haltWith state events lookup) := by
  cases h with
  | intro hm hs => exact ⟨.intro hm hs, rfl, rfl, rfl⟩

theorem settle_same (h : L.Alike m m') (next : UInt16) (flow : Flow) (failures : UInt64)
    (events : List Event) (lookup : Option ProgramId) :
    L.SameReport (m.settle next flow failures events lookup)
      (m'.settle next flow failures events lookup) := by
  cases h with
  | intro hm hs =>
    unfold Machine.settle
    dsimp only
    rw [L.top_eq hs]
    by_cases hstop : (m.control.failureCount != failures && m.control.autoHalt) = true
    · rw [if_pos hstop, if_pos hstop]
      exact ⟨.intro hm hs, rfl, rfl, rfl⟩
    · rw [if_neg hstop, if_neg hstop]
      cases flow.target? next with
      | none => exact ⟨.intro hm hs, rfl, rfl, rfl⟩
      | some target => exact ⟨.intro hm hs, rfl, rfl, rfl⟩

theorem conclude_same {e e' : Effect} (h : L.SameEffect e e') (next : UInt16) (failures : UInt64)
    (events : List Event) (lookup : Option ProgramId) :
    L.SameReport (Machine.conclude next failures events lookup e)
      (Machine.conclude next failures events lookup e') := by
  cases h with
  | done h => exact settle_same h next _ failures events lookup
  | fault h => exact haltWith_same h _ _ _

/-- Machines that are alike take the same step if the instruction at hand has the same effect
on both. -/
theorem step_same_of_execute (h : L.Alike m m') (host : Resolver)
    (he : ∀ d control, m.Performs d → m.control.charge d.instruction.cost = .ok control →
      L.SameEffect (Machine.execute host d { m with control := control })
        (Machine.execute host d { m' with control := control })) :
    L.SameReport (m.step host) (m'.step host) := by
  by_cases hhalt : m.state.isHalted = true
  · rw [Machine.step, if_pos hhalt, Machine.step, if_pos (h.state ▸ hhalt)]
    exact ⟨h, congrArg Outcome.halted h.state, rfl, rfl⟩
  · have hrun := RunState.eq_running hhalt
    have hrun' := h.state.trans hrun
    cases hd : Instruction.decode m.program.code m.pc with
    | error e =>
      have hd' : Instruction.decode m'.program.code m'.pc = .error e := by
        rw [h.program, h.pc, hd]
      rw [Machine.step_of_decode_error host hrun hd, Machine.step_of_decode_error host hrun' hd']
      exact haltWith_same h _ _ _
    | ok d =>
      have hd' : Instruction.decode m'.program.code m'.pc = .ok d := by
        rw [h.program, h.pc, hd]
      cases hc : m.control.charge d.instruction.cost with
      | error f =>
        have hc' : m'.control.charge d.instruction.cost = .error f := by rw [h.control, hc]
        rw [Machine.step_of_charge_error host hrun hd hc,
          Machine.step_of_charge_error host hrun' hd' hc', h.program, h.pc]
        exact haltWith_same h _ _ _
      | ok control =>
        have hc' : m'.control.charge d.instruction.cost = .ok control := by rw [h.control, hc]
        have hlookup : m'.lookup? d.instruction = m.lookup? d.instruction := by
          unfold Machine.lookup?
          rw [h.libraries]
        have hevent : Event.started m'.program.id m'.pc d.instruction.opcode =
            Event.started m.program.id m.pc d.instruction.opcode := by rw [h.program, h.pc]
        rw [Machine.step_of_decode host hrun hd hc, Machine.step_of_decode host hrun' hd' hc',
          hevent, hlookup]
        exact conclude_same (he d control ⟨hrun, hd, control, hc⟩ hc) _ _ _ _

theorem Alike.withControl (h : L.Alike m m') (control : Control) :
    L.Alike { m with control := control } { m' with control := control } := by
  cases h with
  | intro hm hs => exact .intro hm hs

/-- Machines that are alike, with the same room, take the same step. -/
theorem step_same (h : L.Alike m m') (hr : ∀ d, m.Performs d → SameRoom m m' d)
    (host : Resolver) : L.SameReport (m.step host) (m'.step host) := by
  apply step_same_of_execute h
  intro d control hd _
  exact execute_same (h.withControl control) host d (hr d hd)

end Likeness

end VerdictMachine

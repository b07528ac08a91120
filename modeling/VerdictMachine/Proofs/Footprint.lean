import VerdictMachine.Proofs.Accounts

/-!
# What an instruction may write

The state of a machine falls into parts: the registers one by one, the flags and
meters, the bytes of the data segments, the call stack, the program and the
libraries. An instruction declares which of them it may write, and a step leaves
all others alone. The counter, the state of the run and the complexity are no
parts; every step may change them.

All registers lie in one image, so a write to one of them spares the others only
because no two slots overlap.
-/

set_option autoImplicit false

namespace VerdictMachine

namespace Region

theorem getElem?_read (cells : Region) (start len i : Nat) :
    (cells.read start len)[i]? = if i < len then cells[start + i]? else none := by
  by_cases hi : i < len
  · rw [if_pos hi, read, Array.getElem?_toList, Array.getElem?_extract]
    by_cases hc : start + i < cells.size
    · rw [if_pos (by omega)]
    · rw [if_neg (by omega), Array.getElem?_eq_none (Nat.le_of_not_lt hc)]
  · rw [if_neg hi]
    apply List.getElem?_eq_none
    rw [length_read]
    omega

/-- A write outside of it does not change what is read. -/
theorem read_overwrite_of_disjoint (cells : Region) {start i len : Nat} {bs : Bytes}
    (h : start + bs.length ≤ i ∨ i + len ≤ start) :
    (cells.overwrite start bs).read i len = cells.read i len := by
  apply List.ext_getElem?
  intro k
  rw [getElem?_read, getElem?_read]
  by_cases hk : k < len
  · rw [if_pos hk, if_pos hk, overwrite_frame _ _ _ _ (by omega)]
  · rw [if_neg hk, if_neg hk]

end Region

namespace Bank

theorem slot_le_of_lt (b : Bank) {r s : Register} (h : r < s) :
    b.slotStart r + b.bytes ≤ b.slotStart s := by
  have hm : b.bytes * (r.val + 1) ≤ b.bytes * s.val := Nat.mul_le_mul_left _ h
  rw [Nat.mul_succ] at hm
  unfold slotStart
  omega

theorem offset_le_of_ne {b c : Bank} (h : b ≠ c) :
    b.offset + 32 * b.bytes ≤ c.offset ∨ c.offset + 32 * c.bytes ≤ b.offset := by
  cases b <;> cases c <;> first | exact absurd rfl h | decide

/-- No two slots overlap. -/
theorem slots_disjoint {b c : Bank} {r s : Register} (h : (b, r) ≠ (c, s)) :
    b.slotStart r + b.bytes ≤ c.slotStart s ∨ c.slotStart s + c.bytes ≤ b.slotStart r := by
  by_cases hb : b = c
  · subst hb
    have hr : r.val ≠ s.val := fun he => h (by rw [Fin.ext he])
    rcases Nat.lt_or_gt_of_ne hr with hlt | hlt
    · exact .inl (b.slot_le_of_lt hlt)
    · exact .inr (b.slot_le_of_lt hlt)
  · have hbr := b.slot_bounds r
    have hcs := c.slot_bounds s
    rcases offset_le_of_ne hb with ho | ho
    · exact .inl (by omega)
    · exact .inr (by omega)

end Bank

namespace RegisterFile

theorem length_slot (rf : RegisterFile) (bank : Bank) (r : Register) :
    (rf.slot bank r).length = bank.bytes := by
  have he := bank.slot_end_le r
  rw [slot, Region.length_read, rf.size_image]
  omega

theorem slot_write_of_ne (rf : RegisterFile) {bank other : Bank} {r s : Register} (bs : Bytes)
    (h : (bank, r) ≠ (other, s)) : (rf.write bank r bs).slot other s = rf.slot other s := by
  apply Region.read_overwrite_of_disjoint
  rw [(Block.fit bank.bytes bs).length_bytes]
  exact Bank.slots_disjoint h

end RegisterFile

/-- The parts of a machine that an instruction may write or has to leave alone. -/
inductive Part where
  | slot (bank : Bank) (r : Register)
  | carry | failure | failureCount | autoHalt | cycles | limit | stackPointer
  | stack | program | libraries
  | input | static (i : Nat) | output (i : Nat) | outputLength | staticSize | outputSize
  deriving DecidableEq

namespace Part

/-- What raising a failure writes. -/
def raised : List Part := [.failure, .failureCount]

/-- What a store of `len` bytes at an address writes. -/
def addressed (seg : Segment) (start len : Nat) : List Part :=
  match seg with
  | .static => (List.range' start len).map .static
  | .output => .outputLength :: (List.range' start len).map .output
  | .code | .constant | .callStack | .input => []

/-- The parts that no instruction may write: the limit, the input and the sizes of the segments. -/
def fixed : Part → Bool
  | .limit | .input | .staticSize | .outputSize => true
  | _ => false

theorem not_mem_addressed {part : Part} (h : part.fixed = true ∨ part = .stack) (seg : Segment)
    (start len : Nat) : part ∉ addressed seg start len := by
  cases seg <;> grind [addressed, fixed]

end Part

namespace Machine

/-- The parts that an instruction declares. Where this depends on the machine, it is the
machine before the instruction. -/
def writes (m : Machine) : Instruction → List Part
  | .nop | .stop => []
  | .put bank dst _ | .mov bank dst _ | .clr bank dst | .ldc bank dst _ | .ld _ bank dst _ =>
    [.slot bank dst]
  | .float _ bank dst _ _ | .floatNeg bank dst _ => [.slot bank.toBank dst]
  | .bitwise _ bank dst _ _ | .not bank dst _ => [.slot bank.toBank dst]
  | .swp bank a b => [.slot bank a, .slot bank b]
  | .len _ dst => [.slot .a32 dst]
  | .sha3 _ dst _ | .sha3Mem _ dst _ _ => [.slot .r256 dst]
  | .conv bank dst _ _ _ | .neg bank dst _ => [.slot bank.toBank dst, .carry]
  | .shift op bank dst _ _ =>
    match op with
    | .shl | .shr => [.slot bank.toBank dst, .carry]
    | .rol | .ror => [.slot bank.toBank dst]
  | .arith op signed bank dst a b =>
    match op.apply (m.word bank a) (m.word bank b) signed with
    | some _ => [.slot bank.toBank dst, .carry]
    | none => Part.raised
  | .fail => Part.raised
  | .verifySchnorr key sig msg => if m.schnorrHolds key sig msg then [] else Part.raised
  | .verifyEcdsa key sig msg => if m.ecdsaHolds key sig msg then [] else Part.raised
  | .verifyMerkle root leaf seg addr =>
    match m.merkleHolds root leaf seg (m.registers.a32 addr) with
    | .ok false => Part.raised
    | .ok true | .error _ => []
  | .succ => [.failure]
  | .compare .. | .floatCompare .. | .invCarry | .clearCarry => [.carry]
  | .autoHalt _ => [.autoHalt]
  | .st seg bank _ addr => Part.addressed seg (m.registers.a32 addr).toNat bank.bytes
  | .jump guard dest => if m.transfers (.jump guard dest) then [.cycles] else []
  | .call _ => [.cycles, .stack, .stackPointer]
  | .callLib .. => [.cycles, .stack, .stackPointer, .program, .libraries]
  | .ret =>
    match m.stack.peek with
    | some (.library ..) => [.cycles, .stack, .stackPointer, .program]
    | some (.plain _) | none => [.cycles, .stack, .stackPointer]

/-- Whether two machines agree in a part. -/
def Agree (m m' : Machine) : Part → Prop
  | .slot bank r => m'.registers.slot bank r = m.registers.slot bank r
  | .carry => m'.control.carry = m.control.carry
  | .failure => m'.control.failure = m.control.failure
  | .failureCount => m'.control.failureCount = m.control.failureCount
  | .autoHalt => m'.control.autoHalt = m.control.autoHalt
  | .cycles => m'.control.cycles = m.control.cycles
  | .limit => m'.control.limit = m.control.limit
  | .stackPointer => m'.control.stackPointer = m.control.stackPointer
  | .stack => m'.stack = m.stack
  | .program => m'.program = m.program
  | .libraries => m'.libraries = m.libraries
  | .input => m'.memory.input = m.memory.input
  | .static i => m'.memory.static[i]? = m.memory.static[i]?
  | .output i => m'.memory.outputCells[i]? = m.memory.outputCells[i]?
  | .outputLength => m'.memory.outputLength = m.memory.outputLength
  | .staticSize => m'.memory.static.size = m.memory.static.size
  | .outputSize => m'.memory.outputCells.size = m.memory.outputCells.size

/-- The second machine differs from the first in these parts at most. -/
def Confined (parts : List Part) (m m' : Machine) : Prop := ∀ part, part ∉ parts → m.Agree m' part

variable {host : Resolver} {d : Decoded} {m m' m'' : Machine} {ps qs : List Part}

theorem agree_trans {part : Part} (h : m.Agree m' part) (h' : m'.Agree m'' part) :
    m.Agree m'' part := by
  cases part <;> exact Eq.trans h' h

theorem confined_refl (ps : List Part) (m : Machine) : Confined ps m m := by
  intro part _
  cases part <;> rfl

theorem Confined.trans (h : Confined ps m m') (h' : Confined qs m' m'') :
    Confined (ps ++ qs) m m'' := by
  intro part hpart
  rw [List.mem_append, not_or] at hpart
  exact agree_trans (h part hpart.1) (h' part hpart.2)

theorem confined_writeRegister (m : Machine) (bank : Bank) (r : Register) (bs : Bytes) :
    Confined [.slot bank r] m (m.writeRegister bank r bs) := by
  intro part h
  cases part with
  | slot other s =>
    apply RegisterFile.slot_write_of_ne
    rintro ⟨⟩
    exact h (List.mem_singleton_self _)
  | _ => rfl

theorem confined_setCarry (m : Machine) (carry : Bool) :
    Confined [.carry] m (m.setCarry carry) := by
  intro part h
  cases part with
  | carry => exact absurd (List.mem_singleton_self _) h
  | _ => rfl

theorem confined_raiseFailure (m : Machine) : Confined Part.raised m m.raiseFailure := by
  intro part h
  cases part with
  | failure => exact absurd List.mem_cons_self h
  | failureCount => exact absurd (List.mem_cons_of_mem _ List.mem_cons_self) h
  | _ => rfl

theorem confined_setFlagged (m : Machine) (bank : IntBank) (r : Register)
    (x : Word bank.bits × Bool) :
    Confined [.slot bank.toBank r, .carry] m (m.setFlagged bank r x) :=
  (m.confined_writeRegister bank.toBank r x.1.toBytes).trans (confined_setCarry _ x.2)

theorem confined_swap (m : Machine) (bank : Bank) (a b : Register) :
    Confined [.slot bank a, .slot bank b] m { m with registers := m.registers.swap bank a b } :=
  (m.confined_writeRegister bank a (m.registers.slot bank b)).trans
    (confined_writeRegister _ bank b (m.registers.slot bank a))

theorem confined_store (m : Machine) (seg : Segment) (address : UInt32) (bs : Bytes) :
    Confined (Part.addressed seg address.toNat bs.length) m
      { m with memory := m.memory.store seg address bs } := by
  intro part h
  cases seg with
  | static =>
    simp only [Part.addressed, List.mem_map, List.mem_range'_1, not_exists, not_and] at h
    cases part with
    | static i =>
      apply Region.overwrite_frame
      by_contra hi
      exact h i (by omega) rfl
    | staticSize => exact Region.size_overwrite _ _ _
    | _ => rfl
  | output =>
    simp only [Part.addressed, List.mem_cons, List.mem_map, List.mem_range'_1, not_or, not_exists,
      not_and] at h
    cases part with
    | output i =>
      apply Region.overwrite_frame
      by_contra hi
      exact h.2 i (by omega) rfl
    | outputLength => exact absurd rfl h.1
    | outputSize => exact Region.size_overwrite _ _ _
    | _ => rfl
  | _ => exact confined_refl _ m part h

end Machine

/-- An instruction that runs to its end changes these parts at most. -/
def Effect.Confined (ps : List Part) (m : Machine) : Effect → Prop
  | .done _ m' => m.Confined ps m'
  | .fault .. => True

namespace Machine

variable {host : Resolver} {d : Decoded} {m m' : Machine}

theorem loadRegister_confined (m : Machine) (seg : Segment) (bank : Bank) (dst : Register)
    (address : UInt32) : (m.loadRegister seg bank dst address).Confined [.slot bank dst] m := by
  unfold loadRegister
  cases m.memory.read m.program.constants seg address bank.bytes with
  | error f => trivial
  | ok bs => exact m.confined_writeRegister bank dst bs

theorem storeRegister_confined (m : Machine) (seg : Segment) (bank : Bank) (src : Register)
    (address : UInt32) :
    (m.storeRegister seg bank src address).Confined
      (Part.addressed seg address.toNat bank.bytes) m := by
  rw [storeRegister_eq]
  split_ifs
  · rw [← m.registers.length_slot bank src]
    exact m.confined_store seg address (m.registers.slot bank src)
  · trivial

theorem hashRange_confined (m : Machine) (seg : Segment) (dst addr size : Register) :
    (m.hashRange seg dst addr size).Confined [.slot .r256 dst] m := by
  unfold hashRange
  dsimp only
  split
  · trivial
  · exact m.confined_writeRegister .r256 dst _

theorem demand_confined (m : Machine) (valid : Bool) :
    Confined (if valid then [] else Part.raised) m (m.demand valid) := by
  cases valid with
  | true => exact confined_refl _ m
  | false => exact m.confined_raiseFailure

theorem demandMerkle_confined (m : Machine) (root leaf : Register) (seg : Segment)
    (addr : Register) :
    (m.demandMerkle root leaf seg (m.registers.a32 addr)).Confined
      (m.writes (.verifyMerkle root leaf seg addr)) m := by
  unfold demandMerkle
  dsimp only [writes]
  cases m.merkleHolds root leaf seg (m.registers.a32 addr) with
  | error f => trivial
  | ok valid =>
    cases valid with
    | true => exact m.demand_confined true
    | false => exact m.demand_confined false

theorem arith_confined (m : Machine) (op : IntOp) (signed : Bool) (bank : IntBank)
    (dst a b : Register) :
    Confined (m.writes (.arith op signed bank dst a b)) m (m.arith op signed bank dst a b) := by
  dsimp only [writes]
  unfold arith
  cases op.apply (m.word bank a) (m.word bank b) signed with
  | some result => exact m.confined_setFlagged bank dst result
  | none => exact m.confined_raiseFailure

theorem shift_confined (m : Machine) (op : ShiftOp) (bank : IntBank) (dst src amount : Register) :
    Confined (m.writes (.shift op bank dst src amount)) m (m.shift op bank dst src amount) := by
  cases op with
  | shl => exact m.confined_setFlagged bank dst _
  | shr => exact m.confined_setFlagged bank dst _
  | rol => exact m.confined_writeRegister bank.toBank dst _
  | ror => exact m.confined_writeRegister bank.toBank dst _

/-- A cycle is spent in one part. -/
theorem confined_recordCycle {control : Control} (m : Machine)
    (h : m.control.recordCycle = .ok control) :
    Confined [.cycles] m { m with control := control } := by
  rcases m.control.recordCycle_cases with ⟨-, he⟩ | ⟨-, he⟩
  · rw [he] at h
    cases h
  · rw [he] at h
    cases h
    intro part hpart
    cases part with
    | cycles => exact absurd (List.mem_singleton_self _) hpart
    | _ => rfl

theorem confined_stack (m : Machine) (stack : CallStack) :
    Confined [.stack, .stackPointer] m { m with stack := stack } := by
  intro part h
  cases part with
  | stack => exact absurd List.mem_cons_self h
  | _ => rfl

theorem confined_program (m : Machine) (program : Program) :
    Confined [.program] m { m with program := program } := by
  intro part h
  cases part with
  | program => exact absurd (List.mem_singleton_self _) h
  | _ => rfl

theorem confined_libraries (m : Machine) (libraries : Library) :
    Confined [.libraries] m { m with libraries := libraries } := by
  intro part h
  cases part with
  | libraries => exact absurd (List.mem_singleton_self _) h
  | _ => rfl

theorem jump_confined (m : Machine) (guard : Option Condition) (dest : Destination)
    (target : Option UInt16) :
    (m.jump guard target).Confined (m.writes (.jump guard dest)) m := by
  cases target with
  | none =>
    unfold jump
    dsimp only
    split_ifs
    · exact confined_refl _ m
    · trivial
  | some t =>
    rcases m.jump_cases guard dest t with ⟨hf, h⟩ | ⟨hf, h⟩
    · rw [h]
      exact confined_refl _ m
    · rw [h, show m.writes (.jump guard dest) = [.cycles] from if_pos hf]
      cases hr : m.control.recordCycle with
      | error f => trivial
      | ok control => exact m.confined_recordCycle hr

theorem pushFrame_confined (m : Machine) (frame : Frame) (flow : Flow) :
    (m.pushFrame frame flow).Confined [.cycles, .stack, .stackPointer] m := by
  rw [pushFrame_eq]
  split_ifs
  · trivial
  · cases hr : m.control.recordCycle with
    | error f => trivial
    | ok control =>
      exact (m.confined_recordCycle hr).trans (confined_stack _ (m.stack.store frame))

theorem callLibrary_confined (m : Machine) (host : Resolver) (library : ProgramId)
    (entry ret : UInt16) :
    (m.callLibrary host library entry ret).Confined
      (m.writes (.callLib library entry)) m := by
  unfold callLibrary
  cases m.resolve host library with
  | error f => trivial
  | ok p =>
    dsimp only
    split_ifs
    · trivial
    · have hpush := m.pushFrame_confined (.library m.program.id ret) (.enter library entry)
      cases hp : m.pushFrame (.library m.program.id ret) (.enter library entry) with
      | fault f m' => trivial
      | done flow m' =>
        rw [hp] at hpush
        exact (Confined.trans hpush (m'.confined_program p)).trans (confined_libraries _ _)

theorem ret_confined (m : Machine) : m.ret.Confined (m.writes .ret) m := by
  rw [ret_eq]
  split_ifs
  · trivial
  · cases hr : m.control.recordCycle with
    | error f => trivial
    | ok control =>
      dsimp only [writes]
      cases hp : m.stack.peek with
      | none => trivial
      | some frame =>
        have hdrop := (m.confined_recordCycle hr).trans (confined_stack _ (m.stack.drop frame))
        cases frame with
        | plain ret => exact hdrop
        | library caller ret =>
          dsimp only [returnTo]
          cases m.libraries.find? caller with
          | none => trivial
          | some p => exact hdrop.trans (confined_program _ p)

/-- Every instruction keeps to the parts that it declares. -/
theorem execute_confined (host : Resolver) (d : Decoded) (m : Machine) :
    (execute host d m).Confined (m.writes d.instruction) m := by
  unfold execute
  cases d.instruction with
  | nop | stop => exact confined_refl _ m
  | fail => exact m.confined_raiseFailure
  | succ =>
    intro part h
    cases part with
    | failure => exact absurd (List.mem_singleton_self _) h
    | _ => rfl
  | autoHalt enabled =>
    intro part h
    cases part with
    | autoHalt => exact absurd (List.mem_singleton_self _) h
    | _ => rfl
  | jump guard dest => exact m.jump_confined guard dest d.localTarget
  | call t => exact m.pushFrame_confined (.plain d.next) (.jump t)
  | callLib library entry => exact m.callLibrary_confined host library entry d.next
  | ret => exact m.ret_confined
  | invCarry | clearCarry | compare | floatCompare => exact m.confined_setCarry _
  | put bank dst | mov bank dst | clr bank dst => exact m.confined_writeRegister bank dst _
  | swp bank a b => exact m.confined_swap bank a b
  | conv bank dst => exact m.confined_setFlagged bank dst _
  | ldc bank dst offset => exact m.loadRegister_confined .constant bank dst offset.toUInt32
  | ld seg bank dst addr => exact m.loadRegister_confined seg bank dst (m.registers.a32 addr)
  | st seg bank src addr => exact m.storeRegister_confined seg bank src (m.registers.a32 addr)
  | len seg dst => exact m.confined_writeRegister .a32 dst _
  | arith op signed bank dst a b => exact m.arith_confined op signed bank dst a b
  | neg bank dst src => exact m.confined_setFlagged bank dst _
  | bitwise op bank dst | not bank dst => exact m.confined_writeRegister bank.toBank dst _
  | shift op bank dst src amount => exact m.shift_confined op bank dst src amount
  | float op bank dst | floatNeg bank dst => exact m.confined_writeRegister bank.toBank dst _
  | sha3 bank dst => exact m.confined_writeRegister .r256 dst _
  | sha3Mem seg dst addr size => exact m.hashRange_confined seg dst addr size
  | verifySchnorr | verifyEcdsa => exact m.demand_confined _
  | verifyMerkle root leaf seg addr => exact m.demandMerkle_confined root leaf seg addr

/-- The pointer in the control registers shows how far the stack is used. -/
def Mirrored (m : Machine) : Prop := m.control.stackPointer = UInt32.ofNat m.stack.top

theorem settle_machine (m : Machine) (next : UInt16) (flow : Flow) (failures : UInt64)
    (events : List Event) (lookup : Option ProgramId) :
    ∃ pc state, (m.settle next flow failures events lookup).machine = { m with
      pc := pc
      control := { m.control with stackPointer := UInt32.ofNat m.stack.top }
      state := state } := by
  unfold settle
  dsimp only
  generalize (m.control.failureCount != failures && m.control.autoHalt) = stopped
  cases stopped with
  | true => exact ⟨_, _, rfl⟩
  | false =>
    cases flow.target? next with
    | none => exact ⟨_, _, rfl⟩
    | some target => exact ⟨_, _, rfl⟩

theorem mirrored_settle (m : Machine) (next : UInt16) (flow : Flow) (failures : UInt64)
    (events : List Event) (lookup : Option ProgramId) :
    (m.settle next flow failures events lookup).machine.Mirrored := by
  obtain ⟨pc, state, h⟩ := m.settle_machine next flow failures events lookup
  rw [h]
  rfl

/-- Settling writes the pointer to the stack and no other part. -/
theorem settle_agree (m : Machine) (next : UInt16) (flow : Flow) (failures : UInt64)
    (events : List Event) (lookup : Option ProgramId) :
    Confined [.stackPointer] m (m.settle next flow failures events lookup).machine := by
  obtain ⟨pc, state, h⟩ := m.settle_machine next flow failures events lookup
  rw [h]
  intro part hpart
  cases part with
  | stackPointer => exact absurd (List.mem_singleton_self _) hpart
  | _ => rfl

theorem writes_pay (m : Machine) (cost : UInt64) (i : Instruction) :
    (m.pay cost).writes i = m.writes i := by
  cases i <;> rfl

theorem confined_pay (m : Machine) (cost : UInt64) : Confined [] m (m.pay cost) := by
  intro part _
  cases part <;> rfl

theorem confined_state (m : Machine) (state : RunState) :
    Confined [] m { m with state := state } := by
  intro part _
  cases part <;> rfl

/-- Whatever may write the stack may write the pointer to it. -/
theorem stackPointer_mem_writes {i : Instruction} (h : .stack ∈ m.writes i) :
    .stackPointer ∈ m.writes i := by
  cases i with
  | call t => simp [writes]
  | callLib library entry => simp [writes]
  | ret =>
    dsimp only [writes]
    split <;> simp
  | st seg bank src addr => exact absurd h (Part.not_mem_addressed (.inr rfl) _ _ _)
  | _ =>
    dsimp only [writes] at h
    grind [Part.raised]

theorem not_mem_writes_of_fixed {part : Part} (h : part.fixed = true) (m : Machine)
    (i : Instruction) : part ∉ m.writes i := by
  cases i with
  | st seg bank src addr => exact Part.not_mem_addressed (.inl h) _ _ _
  | _ =>
    dsimp only [writes]
    grind [Part.raised, Part.fixed]

/-- A step keeps to the parts that its instruction declares, also when it faults or halts. -/
theorem Guarded.step_confined (h : m.Guarded) (hm : m.Mirrored) (hr : m.state = .running)
    (hd : Instruction.decode m.program.code m.pc = .ok d) (host : Resolver) :
    Confined (m.writes d.instruction) m (m.step host).machine := by
  have hstages := step_stages host h.sound hr
  generalize m.step host = r at hstages
  intro part hpart
  cases hstages with
  | ended hd' =>
    rw [hd] at hd'
    cases hd'
  | refused => exact m.confined_state _ part List.not_mem_nil
  | @faulted e =>
    exact agree_trans (m.confined_pay e.instruction.cost part List.not_mem_nil)
      (confined_state _ _ part List.not_mem_nil)
  | @settled e flow m' hd' hc hx =>
    obtain rfl := Except.ok.inj (hd.symm.trans hd')
    have hexec := execute_confined host d (m.pay d.instruction.cost)
    rw [hx, writes_pay] at hexec
    have hdone : ∀ part, part ∉ m.writes d.instruction → m.Agree m' part := fun part hpart =>
      agree_trans (m.confined_pay d.instruction.cost part List.not_mem_nil) (hexec part hpart)
    by_cases hpointer : part = .stackPointer
    · -- The pointer is refreshed in any case, but from a stack that is as before.
      subst hpointer
      have hstack : m'.stack = m.stack :=
        hdone .stack fun hmem => hpart (stackPointer_mem_writes hmem)
      have hkept := settle_agree m' d.next flow m.control.failureCount [m.startEvent d]
        (m.lookup? d.instruction) .stack (by decide)
      have hpoints := mirrored_settle m' d.next flow m.control.failureCount [m.startEvent d]
        (m.lookup? d.instruction)
      generalize m'.settle d.next flow m.control.failureCount [m.startEvent d]
        (m.lookup? d.instruction) = r at hkept hpoints ⊢
      calc r.machine.control.stackPointer
        _ = UInt32.ofNat r.machine.stack.top := hpoints
        _ = UInt32.ofNat m.stack.top := by rw [show r.machine.stack = m'.stack from hkept, hstack]
        _ = m.control.stackPointer := hm.symm
    · exact agree_trans (hdone part hpart)
        (settle_agree m' _ _ _ _ _ part (by simpa using hpointer))

theorem Guarded.mirrored_step (h : m.Guarded) (hm : m.Mirrored) (host : Resolver) :
    (m.step host).machine.Mirrored := by
  by_cases hr : m.state.isHalted = true
  · rw [step_of_isHalted host hr]
    exact hm
  · have hstages := step_stages host h.sound (RunState.eq_running hr)
    generalize m.step host = r at hstages
    cases hstages with
    | ended | refused | faulted => exact hm
    | settled => exact mirrored_settle _ _ _ _ _ _

variable {hosts : Nat → Resolver} {m₀ : Machine} {p : Program} {code constants input : Bytes}
  {config : Config}

theorem mirrored_after (hp : Program.load code constants = .ok p)
    (hm : Machine.load p input config = .ok m₀) (hh : ∀ k, (hosts k).Genuine) (n : Nat) :
    (m₀.after hosts n).Mirrored := by
  induction n with
  | zero =>
    rw [load_eq_ok hm]
    rfl
  | succ n ih => exact ((guarded_load hp hm).after hh n).mirrored_step ih (hosts n)

/-- What no instruction may write stays as it was at the start. -/
theorem agree_after_of_fixed (hp : Program.load code constants = .ok p)
    (hm : Machine.load p input config = .ok m₀) (hh : ∀ k, (hosts k).Genuine) {part : Part}
    (h : part.fixed = true) (n : Nat) : m₀.Agree (m₀.after hosts n) part := by
  induction n with
  | zero => exact confined_refl [] m₀ part List.not_mem_nil
  | succ n ih =>
    have hg := (guarded_load hp hm).after hh n
    refine agree_trans ih ?_
    by_cases hr : (m₀.after hosts n).state.isHalted = true
    · rw [after, step_of_isHalted _ hr]
      exact confined_refl [] _ part List.not_mem_nil
    · have hr := RunState.eq_running hr
      rcases hg.sound.decode_cases with ⟨-, d, hd⟩ | ⟨-, hd⟩
      · exact hg.step_confined (mirrored_after hp hm hh n) hr hd (hosts n) part
          (not_mem_writes_of_fixed h _ _)
      · rw [after, step_of_decode_error (hosts n) hr hd]
        exact confined_state _ _ part List.not_mem_nil

/-- At every point of every run, a step changes the parts that its instruction declares and no
other part: no other register of any bank, no other flag or meter, no other byte of memory. -/
theorem step_writes_declared (hp : Program.load code constants = .ok p)
    (hm : Machine.load p input config = .ok m₀) (hh : ∀ k, (hosts k).Genuine) {n : Nat}
    (host : Resolver) (hr : (m₀.after hosts n).state = .running)
    (hd : Instruction.decode (m₀.after hosts n).program.code (m₀.after hosts n).pc = .ok d) :
    let m := m₀.after hosts n
    ∀ part, part ∉ m.writes d.instruction → m.Agree (m.step host).machine part :=
  ((guarded_load hp hm).after hh n).step_confined (mirrored_after hp hm hh n) hr hd host

/-- A negation in the narrowest bank: the register beside it and those of the next bank keep
their bytes. -/
theorem step_writes_declared_negation :
    ∃ p m₀, Program.load [16, 0, 0, 1, 42, 0, 0, 0] [] = .ok p ∧ Machine.load p [] {} = .ok m₀ ∧
      let m := m₀.after (fun _ => Resolver.none) 1
      let m' := (m.step Resolver.none).machine
      m.registers.slot .a8 0 = [1] ∧ m'.registers.slot .a8 0 = [255] ∧
        (∀ r, r ≠ 0 → m'.registers.slot .a8 r = m.registers.slot .a8 r) ∧
        (∀ r, m'.registers.slot .a16 r = m.registers.slot .a16 r) ∧
        m'.control.failure = m.control.failure ∧ m'.memory.input = m.memory.input := by
  obtain ⟨p, m₀, hp, hm, hr, hd, hold, hnew⟩ :
      ∃ p m₀, Program.load [16, 0, 0, 1, 42, 0, 0, 0] [] = .ok p ∧
        Machine.load p [] {} = .ok m₀ ∧
        (m₀.after (fun _ => Resolver.none) 1).state = .running ∧
        Instruction.decode (m₀.after (fun _ => Resolver.none) 1).program.code
          (m₀.after (fun _ => Resolver.none) 1).pc = .ok ⟨.neg .a8 0 0, 4, 8⟩ ∧
        (m₀.after (fun _ => Resolver.none) 1).registers.slot .a8 0 = [1] ∧
        ((m₀.after (fun _ => Resolver.none) 1).step Resolver.none).machine.registers.slot .a8 0 =
          [255] := by
    refine ⟨_, _, rfl, rfl, ?_, ?_, ?_, ?_⟩ <;> decide +kernel
  have h := step_writes_declared hp hm (fun _ => Resolver.genuine_none) Resolver.none hr hd
  refine ⟨p, m₀, hp, hm, hold, hnew, ?_, ?_, h .failure (by simp [writes]),
    h .input (by simp [writes])⟩
  · intro r hne
    exact h (.slot .a8 r) (by simpa [writes, IntBank.toBank] using hne)
  · intro r
    exact h (.slot .a16 r) (by simp [writes, IntBank.toBank])

end Machine

end VerdictMachine

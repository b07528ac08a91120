import VerdictMachine.Instruction.Basic

/-!
# Decoding instructions

A decoder step reads operands at a position of the code and moves past them.
The first operand that is missing or not admitted decides the error. Jumps must
land inside the code; whether they land on an instruction is checked later, for
the whole program.
-/

set_option autoImplicit false

namespace VerdictMachine

inductive DecodeError where
  | endOfCode (offset : UInt16)
  | unknownOpcode (byte : UInt8)
  | truncated (op : Opcode)
  | invalidRegister (index : UInt8)
  | invalidBank (op : Opcode) (code : UInt8)
  | invalidSegment (op : Opcode) (code : UInt8)
  | invalidCondition (code : UInt8)
  | invalidFlag (op : Opcode) (value : UInt8)
  | jumpOutOfCode (target : Int)
  deriving DecidableEq, Repr

namespace DecodeError

def hexByte (b : UInt8) : String := "0x" ++ Bytes.hex [b]

def message : DecodeError → String
  | .endOfCode offset => s!"offset {offset} is past the end of the code segment"
  | .unknownOpcode byte => "unassigned opcode " ++ hexByte byte
  | .truncated op => "`" ++ op.mnemonic ++ "` is truncated by the end of the code segment"
  | .invalidRegister index => s!"register index {index} is out of range"
  | .invalidBank op code =>
    "bank selector " ++ hexByte code ++ " is not valid for `" ++ op.mnemonic ++ "`"
  | .invalidSegment op code =>
    s!"segment selector {code} is not valid for `" ++ op.mnemonic ++ "`"
  | .invalidCondition code => s!"condition selector {code} is invalid"
  | .invalidFlag op value =>
    "`" ++ op.mnemonic ++ s!"` flag operand {value} is not 0 or 1"
  | .jumpOutOfCode target => s!"jump target {target} is outside the code segment"

end DecodeError

/-- An instruction found in the code, with its own offset and that of the next one. -/
structure Decoded where
  instruction : Instruction
  offset : UInt16
  next : UInt16
  deriving DecidableEq

namespace Decoded

/-- Where a jump or a call inside the program goes. -/
def localTarget (d : Decoded) : Option UInt16 :=
  match d.instruction with
  | .jump _ (.absolute target) | .call target => some target
  | .jump _ (.relative offset) =>
    let target := (d.next.toNat : Int) + offset.toInt
    if 0 ≤ target ∧ target < 65536 then some (UInt16.ofNat target.toNat) else none
  | _ => none

end Decoded

/-- Reads at a position of the code and gives the position after what it read. -/
abbrev Decoder := StateT Nat (Except DecodeError)

namespace Decoder

variable (code : Region) (op : Opcode)

def byte : Decoder UInt8 := fun i =>
  match code[i]? with
  | some b => .ok (b, i + 1)
  | none => .error (.truncated op)

def bytes (n : Nat) : Decoder Bytes := fun i =>
  if i + n ≤ code.size then .ok (code.read i n, i + n) else .error (.truncated op)

def offset16 : Decoder UInt16 := do
  return UInt16.ofNat (Bytes.toNatLE (← bytes code op 2))

def register : Decoder Register := do
  let b ← byte code op
  if h : b.toNat < 32 then return ⟨b.toNat, h⟩ else throw (.invalidRegister b)

def flag : Decoder Bool := do
  let b ← byte code op
  if b = 0 then return false else if b = 1 then return true else throw (.invalidFlag op b)

def condition : Decoder Condition := do
  let b ← byte code op
  match Condition.ofCode? b with
  | some c => return c
  | none => throw (.invalidCondition b)

/-- A bank of the kind that `select` admits. -/
def bankOf {β : Type} (select : Bank → Option β) : Decoder β := do
  let b ← byte code op
  match (Bank.ofCode? b).bind select with
  | some bank => return bank
  | none => throw (.invalidBank op b)

def bank : Decoder Bank := bankOf code op some
def intBank : Decoder IntBank := bankOf code op IntBank.ofBank?
def floatBank : Decoder FloatBank := bankOf code op FloatBank.ofBank?
def wideBank : Decoder WideBank := bankOf code op WideBank.ofBank?

/-- A bank whose registers are no wider than an immediate. -/
def immediateBank : Decoder Bank :=
  bankOf code op fun b => if b.bytes ≤ 32 then some b else none

def segment (admits : Segment → Bool) : Decoder Segment := do
  let b ← byte code op
  match (Segment.ofSelector? b).filter admits with
  | some s => return s
  | none => throw (.invalidSegment op b)

def absolute : Decoder UInt16 := do
  let target ← offset16 code op
  if target.toNat < code.size then return target else throw (.jumpOutOfCode target.toNat)

def relative : Decoder Int8 := do
  let offset := (← byte code op).toInt8
  let target := ((← get : Nat) : Int) + offset.toInt
  if 0 ≤ target ∧ target < code.size then return offset else throw (.jumpOutOfCode target)

def arith (intOp : IntOp) (signed : Bool) : Decoder Instruction := do
  return .arith intOp signed (← intBank code op) (← register code op) (← register code op)
    (← register code op)

def compare (rel : IntRelation) : Decoder Instruction := do
  return .compare rel (← intBank code op) (← register code op) (← register code op)

def bitwise (bitOp : BitOp) : Decoder Instruction := do
  return .bitwise bitOp (← intBank code op) (← register code op) (← register code op)
    (← register code op)

def shift (shiftOp : ShiftOp) : Decoder Instruction := do
  return .shift shiftOp (← intBank code op) (← register code op) (← register code op)
    (← register code op)

def float (floatOp : FloatOp) : Decoder Instruction := do
  return .float floatOp (← floatBank code op) (← register code op) (← register code op)
    (← register code op)

def floatCompare (rel : FloatRelation) : Decoder Instruction := do
  return .floatCompare rel (← floatBank code op) (← register code op) (← register code op)

def put : Decoder Instruction := do
  let bank ← immediateBank code op
  return .put bank (← register code op) (Block.fit 32 (← bytes code op bank.bytes))

/-- The operands of an opcode, and the instruction they complete. -/
def operands : Decoder Instruction := do
  match op with
  | .nop => return .nop
  | .stop => return .stop
  | .fail => return .fail
  | .succ => return .succ
  | .jmp => return .jump none (.absolute (← absolute code op))
  | .jmpr => return .jump none (.relative (← relative code op))
  | .jif => return .jump (some (← condition code op)) (.absolute (← absolute code op))
  | .jifr => return .jump (some (← condition code op)) (.relative (← relative code op))
  | .call => return .call (← absolute code op)
  | .callLib => return .callLib ⟨Block.fit 32 (← bytes code op 32)⟩ (← offset16 code op)
  | .ret => return .ret
  | .autoHalt => return .autoHalt (← flag code op)
  | .invCarry => return .invCarry
  | .clearCarry => return .clearCarry
  | .put => put code op
  | .mov => return .mov (← bank code op) (← register code op) (← register code op)
  | .swp => return .swp (← bank code op) (← register code op) (← register code op)
  | .clr => return .clr (← bank code op) (← register code op)
  | .conv =>
    return .conv (← intBank code op) (← register code op) (← intBank code op) (← register code op)
      (← flag code op)
  | .ldc => return .ldc (← bank code op) (← register code op) (← offset16 code op)
  | .ld =>
    return .ld (← segment code op Segment.readable) (← bank code op) (← register code op)
      (← register code op)
  | .st =>
    return .st (← segment code op Segment.writable) (← bank code op) (← register code op)
      (← register code op)
  | .len => return .len (← segment code op fun _ => true) (← register code op)
  | .add => arith code op .add false
  | .sub => arith code op .sub false
  | .mul => arith code op .mul false
  | .div => arith code op .div false
  | .rem => arith code op .rem false
  | .addS => arith code op .add true
  | .subS => arith code op .sub true
  | .mulS => arith code op .mul true
  | .divS => arith code op .div true
  | .remS => arith code op .rem true
  | .neg => return .neg (← intBank code op) (← register code op) (← register code op)
  | .eq => compare code op .eq
  | .lt => compare code op .lt
  | .ltS => compare code op .ltSigned
  | .and => bitwise code op .and
  | .or => bitwise code op .or
  | .xor => bitwise code op .xor
  | .not => return .not (← intBank code op) (← register code op) (← register code op)
  | .shl => shift code op .shl
  | .shr => shift code op .shr
  | .rol => shift code op .rol
  | .ror => shift code op .ror
  | .fAdd => float code op .add
  | .fSub => float code op .sub
  | .fMul => float code op .mul
  | .fDiv => float code op .div
  | .fNeg => return .floatNeg (← floatBank code op) (← register code op) (← register code op)
  | .fEq => floatCompare code op .eq
  | .fLt => floatCompare code op .lt
  | .sha3 => return .sha3 (← wideBank code op) (← register code op) (← register code op)
  | .sha3Mem =>
    return .sha3Mem (← segment code op Segment.readable) (← register code op)
      (← register code op) (← register code op)
  | .verifySchnorr =>
    return .verifySchnorr (← register code op) (← register code op) (← register code op)
  | .verifyEcdsa =>
    return .verifyEcdsa (← register code op) (← register code op) (← register code op)
  | .verifyMerkle =>
    return .verifyMerkle (← register code op) (← register code op)
      (← segment code op Segment.readable) (← register code op)

end Decoder

/-- The instruction at an offset of the code. -/
def Instruction.decode (code : Region) (offset : UInt16) : Except DecodeError Decoded :=
  match code[offset.toNat]? with
  | none => .error (.endOfCode offset)
  | some b =>
    match Opcode.ofByte? b with
    | none => .error (.unknownOpcode b)
    | some op =>
      match Decoder.operands code op (offset.toNat + 1) with
      | .error e => .error e
      | .ok (i, next) =>
        if next < 65536 then .ok ⟨i, offset, UInt16.ofNat next⟩ else .error (.truncated op)

end VerdictMachine

import VerdictMachine.Bank
import VerdictMachine.Opcode
import VerdictMachine.Program.Identity
import VerdictMachine.Segment

/-!
# Instructions

The instruction set of the machine. Addresses and lengths are held in registers
of the bank `a32`, shift amounts in `a16`; keys, signatures and digests live in
`r256` and `r512`.
-/

set_option autoImplicit false

namespace VerdictMachine

/-- What a guarded jump tests. -/
inductive Condition where
  | carrySet | carryClear | failureSet | failureClear
  deriving DecidableEq, Repr

namespace Condition

def all : List Condition := [.carrySet, .carryClear, .failureSet, .failureClear]

def code : Condition → UInt8
  | .carrySet => 0 | .carryClear => 1 | .failureSet => 2 | .failureClear => 3

def ofCode? (c : UInt8) : Option Condition := all.find? (·.code == c)

def holds (c : Condition) (carry failure : Bool) : Bool :=
  match c with
  | .carrySet => carry
  | .carryClear => !carry
  | .failureSet => failure
  | .failureClear => !failure

theorem ofCode?_code (c : Condition) : ofCode? c.code = some c := by
  cases c <;> rfl

theorem code_ofCode? {b : UInt8} {c : Condition} (h : ofCode? b = some c) : c.code = b := by
  simpa using List.find?_some h

end Condition

inductive IntOp where
  | add | sub | mul | div | rem
  deriving DecidableEq, Repr

inductive IntRelation where
  | eq | lt | ltSigned
  deriving DecidableEq, Repr

inductive BitOp where
  | and | or | xor
  deriving DecidableEq, Repr

inductive ShiftOp where
  | shl | shr | rol | ror
  deriving DecidableEq, Repr

/-- Where a jump goes: an offset in the code, or a distance from the next instruction. -/
inductive Destination where
  | absolute (target : UInt16)
  | relative (offset : Int8)
  deriving DecidableEq

/-- The immediate operand of `put`; a narrower register takes its first bytes. -/
abbrev Immediate := Block 32

inductive Instruction where
  | nop
  | stop
  | fail
  | succ
  | jump (guard : Option Condition) (dest : Destination)
  | call (target : UInt16)
  | callLib (library : ProgramId) (entry : UInt16)
  | ret
  | autoHalt (enabled : Bool)
  | invCarry
  | clearCarry
  | put (bank : Bank) (dst : Register) (imm : Immediate)
  | mov (bank : Bank) (dst src : Register)
  | swp (bank : Bank) (a b : Register)
  | clr (bank : Bank) (dst : Register)
  | conv (dstBank : IntBank) (dst : Register) (srcBank : IntBank) (src : Register) (signed : Bool)
  | ldc (bank : Bank) (dst : Register) (offset : UInt16)
  | ld (seg : Segment) (bank : Bank) (dst addr : Register)
  | st (seg : Segment) (bank : Bank) (src addr : Register)
  | len (seg : Segment) (dst : Register)
  | arith (op : IntOp) (signed : Bool) (bank : IntBank) (dst a b : Register)
  | neg (bank : IntBank) (dst src : Register)
  | compare (rel : IntRelation) (bank : IntBank) (a b : Register)
  | bitwise (op : BitOp) (bank : IntBank) (dst a b : Register)
  | not (bank : IntBank) (dst src : Register)
  | shift (op : ShiftOp) (bank : IntBank) (dst src amount : Register)
  | float (op : FloatOp) (bank : FloatBank) (dst a b : Register)
  | floatNeg (bank : FloatBank) (dst src : Register)
  | floatCompare (rel : FloatRelation) (bank : FloatBank) (a b : Register)
  | sha3 (bank : WideBank) (dst src : Register)
  | sha3Mem (seg : Segment) (dst addr size : Register)
  | verifySchnorr (key sig msg : Register)
  | verifyEcdsa (key sig msg : Register)
  | verifyMerkle (root leaf : Register) (seg : Segment) (addr : Register)
  deriving DecidableEq

namespace Instruction

def opcode : Instruction → Opcode
  | .nop => .nop
  | .stop => .stop
  | .fail => .fail
  | .succ => .succ
  | .jump none (.absolute _) => .jmp
  | .jump none (.relative _) => .jmpr
  | .jump (some _) (.absolute _) => .jif
  | .jump (some _) (.relative _) => .jifr
  | .call .. => .call
  | .callLib .. => .callLib
  | .ret => .ret
  | .autoHalt .. => .autoHalt
  | .invCarry => .invCarry
  | .clearCarry => .clearCarry
  | .put .. => .put
  | .mov .. => .mov
  | .swp .. => .swp
  | .clr .. => .clr
  | .conv .. => .conv
  | .ldc .. => .ldc
  | .ld .. => .ld
  | .st .. => .st
  | .len .. => .len
  | .arith .add false .. => .add
  | .arith .sub false .. => .sub
  | .arith .mul false .. => .mul
  | .arith .div false .. => .div
  | .arith .rem false .. => .rem
  | .arith .add true .. => .addS
  | .arith .sub true .. => .subS
  | .arith .mul true .. => .mulS
  | .arith .div true .. => .divS
  | .arith .rem true .. => .remS
  | .neg .. => .neg
  | .compare .eq .. => .eq
  | .compare .lt .. => .lt
  | .compare .ltSigned .. => .ltS
  | .bitwise .and .. => .and
  | .bitwise .or .. => .or
  | .bitwise .xor .. => .xor
  | .not .. => .not
  | .shift .shl .. => .shl
  | .shift .shr .. => .shr
  | .shift .rol .. => .rol
  | .shift .ror .. => .ror
  | .float .add .. => .fAdd
  | .float .sub .. => .fSub
  | .float .mul .. => .fMul
  | .float .div .. => .fDiv
  | .floatNeg .. => .fNeg
  | .floatCompare .eq .. => .fEq
  | .floatCompare .lt .. => .fLt
  | .sha3 .. => .sha3
  | .sha3Mem .. => .sha3Mem
  | .verifySchnorr .. => .verifySchnorr
  | .verifyEcdsa .. => .verifyEcdsa
  | .verifyMerkle .. => .verifyMerkle

end Instruction

end VerdictMachine

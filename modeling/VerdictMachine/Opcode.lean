/-!
# Opcodes

The assigned opcode bytes with their mnemonics. The high digit of the byte is
the family of the opcode.
-/

set_option autoImplicit false

namespace VerdictMachine

inductive OpcodeFamily where
  | control | register | integer | bitwise | float | crypto
  deriving DecidableEq, Repr

namespace OpcodeFamily

def all : List OpcodeFamily := [.control, .register, .integer, .bitwise, .float, .crypto]

def ofDigit? (n : Nat) : Option OpcodeFamily := all[n]?

end OpcodeFamily

inductive Opcode where
  | nop | stop | fail | succ | jmp | jmpr | jif | jifr | call | callLib | ret | autoHalt
  | invCarry | clearCarry
  | put | mov | swp | clr | conv | ldc | ld | st | len
  | add | sub | mul | div | rem | addS | subS | mulS | divS | remS | neg | eq | lt | ltS
  | and | or | xor | not | shl | shr | rol | ror
  | fAdd | fSub | fMul | fDiv | fNeg | fEq | fLt
  | sha3 | sha3Mem | verifySchnorr | verifyEcdsa | verifyMerkle
  deriving DecidableEq, Repr

namespace Opcode

def all : List Opcode :=
  [.nop, .stop, .fail, .succ, .jmp, .jmpr, .jif, .jifr, .call, .callLib, .ret, .autoHalt,
   .invCarry, .clearCarry,
   .put, .mov, .swp, .clr, .conv, .ldc, .ld, .st, .len,
   .add, .sub, .mul, .div, .rem, .addS, .subS, .mulS, .divS, .remS, .neg, .eq, .lt, .ltS,
   .and, .or, .xor, .not, .shl, .shr, .rol, .ror,
   .fAdd, .fSub, .fMul, .fDiv, .fNeg, .fEq, .fLt,
   .sha3, .sha3Mem, .verifySchnorr, .verifyEcdsa, .verifyMerkle]

def byte : Opcode → UInt8
  | .nop => 0x00 | .stop => 0x01 | .fail => 0x02 | .succ => 0x03
  | .jmp => 0x04 | .jmpr => 0x05 | .jif => 0x06 | .jifr => 0x07
  | .call => 0x08 | .callLib => 0x09 | .ret => 0x0A | .autoHalt => 0x0B
  | .invCarry => 0x0C | .clearCarry => 0x0D
  | .put => 0x10 | .mov => 0x11 | .swp => 0x12 | .clr => 0x13 | .conv => 0x14
  | .ldc => 0x15 | .ld => 0x16 | .st => 0x17 | .len => 0x18
  | .add => 0x20 | .sub => 0x21 | .mul => 0x22 | .div => 0x23 | .rem => 0x24
  | .addS => 0x25 | .subS => 0x26 | .mulS => 0x27 | .divS => 0x28 | .remS => 0x29
  | .neg => 0x2A | .eq => 0x2B | .lt => 0x2C | .ltS => 0x2D
  | .and => 0x30 | .or => 0x31 | .xor => 0x32 | .not => 0x33
  | .shl => 0x34 | .shr => 0x35 | .rol => 0x36 | .ror => 0x37
  | .fAdd => 0x40 | .fSub => 0x41 | .fMul => 0x42 | .fDiv => 0x43
  | .fNeg => 0x44 | .fEq => 0x45 | .fLt => 0x46
  | .sha3 => 0x50 | .sha3Mem => 0x51
  | .verifySchnorr => 0x52 | .verifyEcdsa => 0x53 | .verifyMerkle => 0x54

def ofByte? (b : UInt8) : Option Opcode := all.find? (·.byte == b)

def mnemonic : Opcode → String
  | .nop => "nop" | .stop => "stop" | .fail => "fail" | .succ => "succ"
  | .jmp => "jmp" | .jmpr => "jmpr" | .jif => "jif" | .jifr => "jifr"
  | .call => "call" | .callLib => "calll" | .ret => "ret" | .autoHalt => "ahalt"
  | .invCarry => "invco" | .clearCarry => "clco"
  | .put => "put" | .mov => "mov" | .swp => "swp" | .clr => "clr" | .conv => "conv"
  | .ldc => "ldc" | .ld => "ld" | .st => "st" | .len => "len"
  | .add => "add" | .sub => "sub" | .mul => "mul" | .div => "div" | .rem => "rem"
  | .addS => "adds" | .subS => "subs" | .mulS => "muls" | .divS => "divs" | .remS => "rems"
  | .neg => "neg" | .eq => "eq" | .lt => "lt" | .ltS => "lts"
  | .and => "and" | .or => "or" | .xor => "xor" | .not => "not"
  | .shl => "shl" | .shr => "shr" | .rol => "rol" | .ror => "ror"
  | .fAdd => "fadd" | .fSub => "fsub" | .fMul => "fmul" | .fDiv => "fdiv"
  | .fNeg => "fneg" | .fEq => "feq" | .fLt => "flt"
  | .sha3 => "sha3" | .sha3Mem => "sha3m"
  | .verifySchnorr => "vschnorr" | .verifyEcdsa => "vecdsa" | .verifyMerkle => "vmerkle"

theorem byte_digit_lt (op : Opcode) : op.byte.toNat / 16 < OpcodeFamily.all.length := by
  cases op <;> decide

def family (op : Opcode) : OpcodeFamily :=
  OpcodeFamily.all.get ⟨op.byte.toNat / 16, op.byte_digit_lt⟩

theorem ofByte?_byte (op : Opcode) : ofByte? op.byte = some op := by
  cases op <;> rfl

theorem byte_ofByte? {b : UInt8} {op : Opcode} (h : ofByte? b = some op) : op.byte = b := by
  simpa using List.find?_some h

end Opcode

end VerdictMachine

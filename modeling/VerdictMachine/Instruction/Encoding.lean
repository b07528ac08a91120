import VerdictMachine.Instruction.Basic

/-!
# Encoding instructions

An instruction is its opcode byte followed by its operands in order: one byte
for a register, a selector or a flag, two for an offset in the code. Nothing is
checked; a segment without a selector is written as `ff`.
-/

set_option autoImplicit false

namespace VerdictMachine

namespace Destination

def bytes : Destination → Bytes
  | .absolute target => Bytes.ofNatLE 2 target.toNat
  | .relative offset => [offset.toUInt8]

end Destination

namespace Instruction

def registerByte (r : Register) : UInt8 := UInt8.ofNat r.val

def segmentByte (s : Segment) : UInt8 := s.selector?.getD 0xFF

def flagByte (b : Bool) : UInt8 := if b then 1 else 0

def registerBytes (rs : List Register) : Bytes := rs.map registerByte

def operands : Instruction → Bytes
  | .nop | .stop | .fail | .succ | .ret | .invCarry | .clearCarry => []
  | .jump guard dest => (guard.map Condition.code).toList ++ dest.bytes
  | .call target => Bytes.ofNatLE 2 target.toNat
  | .callLib library entry => library.bytes ++ Bytes.ofNatLE 2 entry.toNat
  | .autoHalt enabled => [flagByte enabled]
  | .put bank dst imm => bank.code :: registerByte dst :: imm.bytes.take bank.bytes
  | .mov bank dst src => bank.code :: registerBytes [dst, src]
  | .swp bank a b => bank.code :: registerBytes [a, b]
  | .clr bank dst => bank.code :: registerBytes [dst]
  | .conv dstBank dst srcBank src signed =>
    [dstBank.toBank.code, registerByte dst, srcBank.toBank.code, registerByte src, flagByte signed]
  | .ldc bank dst offset => bank.code :: registerByte dst :: Bytes.ofNatLE 2 offset.toNat
  | .ld seg bank dst addr => segmentByte seg :: bank.code :: registerBytes [dst, addr]
  | .st seg bank src addr => segmentByte seg :: bank.code :: registerBytes [src, addr]
  | .len seg dst => segmentByte seg :: registerBytes [dst]
  | .arith _ _ bank dst a b => bank.toBank.code :: registerBytes [dst, a, b]
  | .neg bank dst src => bank.toBank.code :: registerBytes [dst, src]
  | .compare _ bank a b => bank.toBank.code :: registerBytes [a, b]
  | .bitwise _ bank dst a b => bank.toBank.code :: registerBytes [dst, a, b]
  | .not bank dst src => bank.toBank.code :: registerBytes [dst, src]
  | .shift _ bank dst src amount => bank.toBank.code :: registerBytes [dst, src, amount]
  | .float _ bank dst a b => bank.toBank.code :: registerBytes [dst, a, b]
  | .floatNeg bank dst src => bank.toBank.code :: registerBytes [dst, src]
  | .floatCompare _ bank a b => bank.toBank.code :: registerBytes [a, b]
  | .sha3 bank dst src => bank.toBank.code :: registerBytes [dst, src]
  | .sha3Mem seg dst addr size => segmentByte seg :: registerBytes [dst, addr, size]
  | .verifySchnorr key sig msg => registerBytes [key, sig, msg]
  | .verifyEcdsa key sig msg => registerBytes [key, sig, msg]
  | .verifyMerkle root leaf seg addr =>
    [registerByte root, registerByte leaf, segmentByte seg, registerByte addr]

def encode (i : Instruction) : Bytes := i.opcode.byte :: i.operands

/-- The code of a sequence of instructions. -/
def assemble (is : List Instruction) : Bytes := is.flatMap encode

/-- Room for every operand layout. -/
def maxBytes : Nat := 36

end Instruction

end VerdictMachine

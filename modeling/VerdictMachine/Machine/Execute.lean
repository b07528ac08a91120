import VerdictMachine.Machine.Execute.Crypto
import VerdictMachine.Machine.Execute.Data
import VerdictMachine.Machine.Execute.Integer
import VerdictMachine.Machine.Execute.Transfer

/-!
# Executing one instruction

The price of the instruction is already paid. What remains is its effect on the
machine and where execution goes on.
-/

set_option autoImplicit false

namespace VerdictMachine.Machine

def execute (host : Resolver) (d : Decoded) (m : Machine) : Effect :=
  match d.instruction with
  | .nop => .done .next m
  | .stop => .done .halt m
  | .fail => .done .next m.raiseFailure
  | .succ => .done .next { m with control := m.control.clearFailure }
  | .jump guard _ => m.jump guard d.localTarget
  | .call target => m.call target d.next
  | .callLib library entry => m.callLibrary host library entry d.next
  | .ret => m.ret
  | .autoHalt enabled => .done .next { m with control := { m.control with autoHalt := enabled } }
  | .invCarry => .done .next (m.setCarry !m.control.carry)
  | .clearCarry => .done .next (m.setCarry false)
  | .put bank dst imm => .done .next (m.writeRegister bank dst imm.bytes)
  | .mov bank dst src => .done .next (m.writeRegister bank dst (m.registers.slot bank src))
  | .swp bank a b => .done .next { m with registers := m.registers.swap bank a b }
  | .clr bank dst => .done .next (m.writeRegister bank dst [])
  | .conv dstBank dst srcBank src signed =>
    .done .next (m.convert dstBank dst srcBank src signed)
  | .ldc bank dst offset => m.loadRegister .constant bank dst offset.toUInt32
  | .ld seg bank dst addr => m.loadRegister seg bank dst (m.registers.a32 addr)
  | .st seg bank src addr => m.storeRegister seg bank src (m.registers.a32 addr)
  | .len seg dst => .done .next (m.segmentLength seg dst)
  | .arith op signed bank dst a b => .done .next (m.arith op signed bank dst a b)
  | .neg bank dst src => .done .next (m.setFlagged bank dst (m.word bank src).neg)
  | .compare rel bank a b =>
    .done .next (m.setCarry (rel.holds (m.word bank a) (m.word bank b)))
  | .bitwise op bank dst a b =>
    .done .next (m.setWord bank dst (op.apply (m.word bank a) (m.word bank b)))
  | .not bank dst src => .done .next (m.setWord bank dst (m.word bank src).complement)
  | .shift op bank dst src amount => .done .next (m.shift op bank dst src amount)
  | .float op bank dst a b =>
    let x := m.registers.read64 bank.toBank a
    let y := m.registers.read64 bank.toBank b
    .done .next { m with registers := m.registers.write64 bank.toBank dst (bank.arith op x y) }
  | .floatNeg bank dst src =>
    let x := m.registers.read64 bank.toBank src
    .done .next { m with registers := m.registers.write64 bank.toBank dst (bank.negate x) }
  | .floatCompare rel bank a b =>
    let x := m.registers.read64 bank.toBank a
    let y := m.registers.read64 bank.toBank b
    .done .next (m.setCarry (bank.compare rel x y))
  | .sha3 bank dst src =>
    .done .next (m.writeRegister .r256 dst (VerdictMachine.sha3 (m.registers.slot bank.toBank src)).bytes)
  | .sha3Mem seg dst addr size => m.hashRange seg dst addr size
  | .verifySchnorr key sig msg => .done .next (m.demand (m.schnorrHolds key sig msg))
  | .verifyEcdsa key sig msg => .done .next (m.demand (m.ecdsaHolds key sig msg))
  | .verifyMerkle root leaf seg addr => m.demandMerkle root leaf seg (m.registers.a32 addr)

end VerdictMachine.Machine

import VerdictMachine.Digest.Merkle
import VerdictMachine.Machine.Basic
import VerdictMachine.Signature.Ecdsa
import VerdictMachine.Signature.Schnorr

/-!
# Hashes and verifications

A verification that does not hold raises a failure. A Merkle proof lies in
memory: a depth byte, a leaf index of four bytes, then the siblings.
-/

set_option autoImplicit false

namespace VerdictMachine.Machine

def hashRange (m : Machine) (seg : Segment) (dst addr size : Register) : Effect :=
  let address := m.registers.a32 addr
  let len := (m.registers.a32 size).toNat
  match m.memory.read m.program.constants seg address len with
  | .error f => .fault f m
  | .ok bs => .done .next (m.writeRegister .r256 dst (sha3 bs).bytes)

/-- Raises a failure unless the verification held. -/
def demand (m : Machine) (valid : Bool) : Machine := if valid then m else m.raiseFailure

def schnorrHolds (m : Machine) (key sig msg : Register) : Bool :=
  Schnorr.verify (m.registers.slot .r256 key) (m.registers.slot .r512 sig)
    (m.registers.slot .r256 msg)

def ecdsaHolds (m : Machine) (key sig msg : Register) : Bool :=
  Ecdsa.verify (m.registers.slot .r512 key) (m.registers.slot .r512 sig)
    (m.registers.slot .r256 msg)

def digestRegister (m : Machine) (r : Register) : Digest := Block.fit 32 (m.registers.slot .r256 r)

def proofHeaderBytes : Nat := 5

/-- Cuts `n` digests from the front of a byte string. -/
def digests : Nat → Bytes → List Digest
  | 0, _ => []
  | n + 1, bs => Block.fit 32 bs :: digests n (bs.drop 32)

/-- A proof that is too deep fails before its siblings are read. -/
def merkleHolds (m : Machine) (root leaf : Register) (seg : Segment) (address : UInt32) :
    Except Fault Bool := do
  let header ← m.memory.read m.program.constants seg address proofHeaderBytes
  let depth := Bytes.toNatLE (header.take 1)
  let index := UInt32.ofNat (Bytes.toNatLE (header.drop 1))
  if Merkle.maxDepth < depth then return false
  if UInt32.size ≤ address.toNat + proofHeaderBytes then throw .segmentOutOfBounds
  let raw ← m.memory.read m.program.constants seg (address + UInt32.ofNat proofHeaderBytes)
    (32 * depth)
  return Merkle.verify (m.digestRegister root) (m.digestRegister leaf) index (digests depth raw)

def demandMerkle (m : Machine) (root leaf : Register) (seg : Segment) (address : UInt32) : Effect :=
  match m.merkleHolds root leaf seg address with
  | .error f => .fault f m
  | .ok valid => .done .next (m.demand valid)

end VerdictMachine.Machine

import VerdictMachine.Digest.Keccak

/-!
# Merkle inclusion proofs

A proof names a leaf index and lists the sibling of every node on the way from
the leaf to the root. Bit `i` of the index says on which side the node of
height `i` stands.
-/

set_option autoImplicit false

namespace VerdictMachine.Merkle

def maxDepth : Nat := 32

/-- The digest of an inner node. The tag keeps it apart from a leaf digest. -/
def node (left right : Digest) : Digest :=
  sha3 (Bytes.ofText "MERKLE_NODE" ++ left.bytes ++ right.bytes)

/-- The bit of the index for a height, taken by a 64-bit shift. A shift amount that reaches the
width overflows, and nothing is returned. -/
def isRight? (index : UInt32) (level : Nat) : Option Bool :=
  if level < 64 then some ((index.toUInt64 >>> UInt64.ofNat level) &&& 1 == 1) else none

def parent? (index : UInt32) (level : Nat) (current sibling : Digest) : Option Digest :=
  (isRight? index level).map fun right =>
    if right then node sibling current else node current sibling

/-- Climbs from the node `current` of height `level`, until a shift overflows. -/
def climb (index : UInt32) : Nat → Digest → List Digest → Option Digest
  | _, current, [] => some current
  | level, current, sibling :: rest =>
    match parent? index level current sibling with
    | some next => climb index (level + 1) next rest
    | none => none

def root (leaf : Digest) (index : UInt32) (siblings : List Digest) : Option Digest :=
  climb index 0 leaf siblings

/-- A proof deeper than `maxDepth`, or with an index that the depth cannot
hold, proves nothing. -/
def verify (expected leaf : Digest) (index : UInt32) (siblings : List Digest) : Bool :=
  siblings.length ≤ maxDepth && index.toNat < 1 <<< siblings.length &&
    root leaf index siblings == some expected

end VerdictMachine.Merkle

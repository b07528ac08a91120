import VerdictMachine.Digest.Sha256
import VerdictMachine.Signature.Curve

/-!
# Schnorr signatures

A key is the abscissa of a point with even ordinate. A signature is the
abscissa `r` of a commitment and a scalar `s`; it holds when `s * G - e * P` has
abscissa `r` and an even ordinate, where `e` hashes the commitment, the key and
the message.
-/

set_option autoImplicit false

namespace VerdictMachine.Schnorr

open Curve

def challenge (r key message : Bytes) : Nat :=
  Bytes.toNatBE (taggedHash "BIP0340/challenge" (r ++ key ++ message)).bytes % order

/-- The commitment that a signature scalar opens, under a key point. -/
def commitment (s e : Nat) (key : Point) : Point :=
  add (scale s generator) (scale ((order - e) % order) key)

def verify (key signature message : Bytes) : Bool :=
  let r := Bytes.toNatBE (signature.take 32)
  let s := Bytes.toNatBE (signature.drop 32)
  if signature.length = 64 ∧ 0 < r ∧ r < prime ∧ 0 < s ∧ s < order then
    match liftEven (Bytes.toNatBE key) with
    | none => false
    | some p =>
      match commitment s (challenge (signature.take 32) key message) p with
      | .infinity => false
      | .affine x y => y % 2 == 0 && x == r
  else false

end VerdictMachine.Schnorr

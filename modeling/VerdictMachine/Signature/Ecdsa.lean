import VerdictMachine.Signature.Curve

/-!
# ECDSA signatures

A key is a curve point given by both coordinates, a signature a pair of scalars
`r` and `s`. Only the lower of the two scalars `s` and `order - s` is accepted,
so a signature has one form.
-/

set_option autoImplicit false

namespace VerdictMachine.Ecdsa

open Curve

/-- The leftmost 32 bytes of a prehash as a scalar; a shorter one counts as
left-padded with zeros, and one of less than 16 bytes is refused. -/
def scalarOfPrehash (prehash : Bytes) : Option Nat :=
  if prehash.length < 16 then none else some (Bytes.toNatBE (prehash.take 32) % order)

def keyPoint (key : Bytes) : Option Point :=
  let x := Bytes.toNatBE (key.take 32)
  let y := Bytes.toNatBE (key.drop 32)
  if key.length = 64 ∧ x < prime ∧ y < prime ∧ onCurve x y then some (.affine x y) else none

def verify (key signature prehash : Bytes) : Bool :=
  let r := Bytes.toNatBE (signature.take 32)
  let s := Bytes.toNatBE (signature.drop 32)
  if signature.length = 64 ∧ 0 < r ∧ r < order ∧ 0 < s ∧ s ≤ order / 2 then
    match keyPoint key, scalarOfPrehash prehash with
    | some q, some z =>
      let w := inverse order s
      match add (scale (z * w % order) generator) (scale (r * w % order) q) with
      | .infinity => false
      | .affine x _ => x % order == r
    | _, _ => false
  else false

end VerdictMachine.Ecdsa

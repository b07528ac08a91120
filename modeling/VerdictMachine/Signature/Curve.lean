import VerdictMachine.Bytes

/-!
# The curve secp256k1

Points of `y² = x³ + 7` over the prime field, in affine coordinates. Field
elements are natural numbers below the prime.
-/

set_option autoImplicit false

namespace VerdictMachine.Curve

/-- The field prime. -/
def prime : Nat := 0xFFFFFFFFFFFFFFFFFFFFFFFFFFFFFFFFFFFFFFFFFFFFFFFFFFFFFFFEFFFFFC2F

/-- The number of points, a prime. -/
def order : Nat := 0xFFFFFFFFFFFFFFFFFFFFFFFFFFFFFFFEBAAEDCE6AF48A03BBFD25E8CD0364141

/-- Square and multiply over the low `n` bits of the exponent. -/
def powLoop (modulus : Nat) : Nat → Nat → Nat → Nat → Nat
  | 0, _, _, acc => acc
  | n + 1, base, exponent, acc =>
    powLoop modulus n (base * base % modulus) (exponent / 2)
      (if exponent % 2 = 1 then acc * base % modulus else acc)

/-- A power modulo `modulus`, for exponents below `2 ^ 256`. -/
def power (modulus base exponent : Nat) : Nat :=
  powLoop modulus 256 (base % modulus) exponent 1

/-- The inverse modulo a prime, as the power `modulus - 2`. -/
def inverse (modulus a : Nat) : Nat := power modulus a (modulus - 2)

def sub (a b : Nat) : Nat := (a + (prime - b % prime)) % prime

inductive Point where
  | infinity
  | affine (x y : Nat)
  deriving DecidableEq, Repr

def generator : Point :=
  .affine 0x79BE667EF9DCBBAC55A06295CE870B07029BFCDB2DCE28D959F2815B16F81798
    0x483ADA7726A3C4655DA4FBFC0E1108A8FD17B448A68554199C47D08FFB10D4B8

def onCurve (x y : Nat) : Bool := y * y % prime == (x * x % prime * x + 7) % prime

/-- The third point of the line with the given slope, mirrored. -/
def chord (slope x₁ y₁ x₂ : Nat) : Point :=
  let x := sub (slope * slope) (x₁ + x₂)
  .affine x (sub (slope * sub x₁ x) y₁)

def double : Point → Point
  | .infinity => .infinity
  | .affine x y =>
    if y = 0 then .infinity else chord (3 * x * x * inverse prime (2 * y) % prime) x y x

def add : Point → Point → Point
  | .infinity, q => q
  | p, .infinity => p
  | .affine x₁ y₁, .affine x₂ y₂ =>
    if x₁ = x₂ then
      if y₁ = y₂ then double (.affine x₁ y₁) else .infinity
    else chord (sub y₂ y₁ * inverse prime (sub x₂ x₁) % prime) x₁ y₁ x₂

/-- Double and add over the low `n` bits of the scalar. -/
def scaleLoop : Nat → Nat → Point → Point → Point
  | 0, _, _, acc => acc
  | n + 1, k, p, acc =>
    scaleLoop n (k / 2) (double p) (if k % 2 = 1 then add acc p else acc)

/-- A multiple of a point, for scalars below `2 ^ 256`. -/
def scale (k : Nat) (p : Point) : Point := scaleLoop 256 k p .infinity

/-- The point with the given abscissa and an even ordinate. -/
def liftEven (x : Nat) : Option Point :=
  let y := power prime (x * x % prime * x + 7) ((prime + 1) / 4)
  if x < prime && onCurve x y then
    some (.affine x (if y % 2 = 0 then y else prime - y))
  else none

end VerdictMachine.Curve

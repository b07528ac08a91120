import VerdictMachine.Floating.Format

/-!
# Rounding to nearest, ties to even

A magnitude is rounded on the grid of its own binade, or on the grid of the
least positive magnitude if that is coarser. Since the patterns of a format are
ordered like their magnitudes, the grid and the rounded multiple add up to the
pattern, also where rounding carries into the next binade.
-/

set_option autoImplicit false

namespace VerdictMachine

namespace Rounding

/-- The exponent of the binade of a positive magnitude. -/
def binade (x : Rat) : Int :=
  let k := (x.num.natAbs.log2 : Int) - x.den.log2
  if (2 : Rat) ^ k ≤ x then k else k - 1

def nearestEven (x : Rat) : Int :=
  let below := x.floor
  let rest := x - below
  if rest < 1 / 2 then below
  else if 1 / 2 < rest then below + 1
  else if below % 2 = 0 then below else below + 1

end Rounding

namespace Format

variable (f : Format)

/-- The exponent of the grid on which a positive magnitude is rounded. -/
def gridExponent (x : Rat) : Int := max f.leastExponent (Rounding.binade x - f.fractionBits)

/-- The pattern nearest to a magnitude, without a sign. -/
def encodeMagnitude (x : Rat) : Nat :=
  if x = 0 then 0
  else
    let grid := f.gridExponent x
    let multiple := (Rounding.nearestEven (x / 2 ^ grid)).toNat
    min (((grid - f.leastExponent).toNat <<< f.fractionBits) + multiple) f.infinityBits

def withSign (negative : Bool) (magnitude : Nat) : Nat :=
  if negative then (1 <<< (f.width - 1)) + magnitude else magnitude

def encode : Datum → Nat
  | .nan => f.quietNan
  | .infinity negative => f.withSign negative f.infinityBits
  | .finite negative x => f.withSign negative (f.encodeMagnitude x)

end Format

end VerdictMachine

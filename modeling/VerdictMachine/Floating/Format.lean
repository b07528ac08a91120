/-!
# Binary interchange formats

A format splits a bit pattern into a sign, a biased exponent and a fraction.
The pattern denotes a datum: a signed magnitude, an infinity, or no number. A
zero magnitude keeps its sign.
-/

set_option autoImplicit false

namespace VerdictMachine

structure Format where
  exponentBits : Nat
  fractionBits : Nat
  deriving DecidableEq, Repr

inductive Datum where
  | nan
  | infinity (negative : Bool)
  | finite (negative : Bool) (magnitude : Rat)
  deriving DecidableEq

namespace Format

def binary16 : Format := ⟨5, 10⟩
def binary32 : Format := ⟨8, 23⟩
def binary64 : Format := ⟨11, 52⟩

variable (f : Format)

def width : Nat := 1 + f.exponentBits + f.fractionBits

def bias : Nat := (1 <<< (f.exponentBits - 1)) - 1

/-- The exponent of the least positive magnitude. -/
def leastExponent : Int := 1 - (f.bias : Int) - f.fractionBits

def infinityBits : Nat := ((1 <<< f.exponentBits) - 1) <<< f.fractionBits

def quietNan : Nat := f.infinityBits + (1 <<< (f.fractionBits - 1))

def isNan (raw : Nat) : Bool := f.infinityBits < raw % (1 <<< (f.width - 1))

def decode (raw : Nat) : Datum :=
  let negative := raw.testBit (f.width - 1)
  let exponent := (raw >>> f.fractionBits) % (1 <<< f.exponentBits)
  let fraction := raw % (1 <<< f.fractionBits)
  if exponent = (1 <<< f.exponentBits) - 1 then
    if fraction = 0 then .infinity negative else .nan
  else if exponent = 0 then .finite negative ((fraction : Rat) * 2 ^ f.leastExponent)
  else
    .finite negative
      ((((1 <<< f.fractionBits) + fraction : Nat) : Rat) * 2 ^ (f.leastExponent + exponent - 1))

end Format

end VerdictMachine

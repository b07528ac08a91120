import VerdictMachine.Word.Basic

/-!
# Checked word arithmetic

Each operation gives the result cut to the width together with a flag, set when
the exact result does not fit the width under the chosen reading of the
operands. Division by zero has no result.
-/

set_option autoImplicit false

namespace VerdictMachine.Word

variable {w : Nat}

def add (x y : Word w) (signed : Bool) : Word w × Bool :=
  let raw := x.limbs.add y.limbs false
  let result := ofLimbs w raw.1
  (result,
    if signed then x.signBit == y.signBit && result.signBit != x.signBit
    else raw.2 || raw.1.exceeds w)

def sub (x y : Word w) (signed : Bool) : Word w × Bool :=
  let raw := x.limbs.sub y.limbs false
  let result := ofLimbs w raw.1
  (result,
    if signed then x.signBit != y.signBit && result.signBit != x.signBit else raw.2)

def wrappingNeg (x : Word w) : Word w := (x.complement.add (ofUInt64 w 1) false).1

def neg (x : Word w) : Word w × Bool := (x.wrappingNeg, x == minSigned w)

def magnitude (x : Word w) : Word w := if x.signBit then x.wrappingNeg else x

/-- A signed product fits when its magnitude stays below the sign bit, or is
exactly the sign bit and the product is negative. -/
def mul (x y : Word w) (signed : Bool) : Word w × Bool :=
  let product := x.limbs.mul y.limbs
  (ofLimbs w product,
    if signed then
      let size := x.magnitude.limbs.mul y.magnitude.limbs
      size.exceeds (w - 1) && !(x.signBit != y.signBit && size.isSingleBit (w - 1))
    else product.exceeds w)

/-- Brings down bit `i` of the dividend and subtracts the divisor where it goes. -/
def divideBit (x d : Word w) (i : Nat) (q r : Word w) : Word w × Word w :=
  let carried := r.signBit
  let shifted := ofLimbs w (r.limbs.shiftLeft 1)
  let next := if x.bit i then shifted.setBit 0 else shifted
  if carried || next.order d != .lt then (q.setBit i, (next.sub d false).1) else (q, next)

/-- Long division over the low `n` bits of the dividend. -/
def divideBits (x d : Word w) : Nat → Word w → Word w → Word w × Word w
  | 0, q, r => (q, r)
  | i + 1, q, r =>
    let next := divideBit x d i q r
    divideBits x d i next.1 next.2

/-- Quotient and remainder of the unsigned readings, for a divisor that is not zero. -/
def divide (x d : Word w) : Word w × Word w :=
  if limbCount w = 1 then (ofUInt64 w (x.low64 / d.low64), ofUInt64 w (x.low64 % d.low64))
  else divideBits x d w (zero w) (zero w)

/-- The quotient goes toward zero and the remainder takes the sign of the
dividend. Only the most negative word divided by minus one overflows. -/
def divMod (x y : Word w) (signed : Bool) : Option (Word w × Word w × Bool) :=
  if y.isZero then none
  else if !signed then
    let qr := x.divide y
    some (qr.1, qr.2, false)
  else if x == minSigned w && y == allOnes w then some (x, zero w, true)
  else
    let qr := x.magnitude.divide y.magnitude
    some (if x.signBit == y.signBit then qr.1 else qr.1.wrappingNeg,
      if x.signBit then qr.2.wrappingNeg else qr.2, false)

def div (x y : Word w) (signed : Bool) : Option (Word w × Bool) :=
  (x.divMod y signed).map fun r => (r.1, r.2.2)

def mod (x y : Word w) (signed : Bool) : Option (Word w × Bool) :=
  (x.divMod y signed).map fun r => (r.2.1, r.2.2)

end VerdictMachine.Word

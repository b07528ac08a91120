import VerdictMachine.Word.Basic

/-!
# Shifts, rotations and changes of width

The flag of a shift says that a set bit left the width. The flag of a change of
width says that the value did not survive it.
-/

set_option autoImplicit false

namespace VerdictMachine.Word

variable {w : Nat}

def shiftLeft (x : Word w) (amount : Nat) : Word w × Bool :=
  if amount = 0 then (x, false)
  else if w ≤ amount then (zero w, !x.isZero)
  else (ofLimbs w (x.limbs.shiftLeft amount),
    !(ofLimbs w (x.limbs.shiftRight (w - amount))).isZero)

def shiftRight (x : Word w) (amount : Nat) : Word w × Bool :=
  if amount = 0 then (x, false)
  else if w ≤ amount then (zero w, !x.isZero)
  else (ofLimbs w (x.limbs.shiftRight amount),
    !(ofLimbs w (x.limbs.shiftLeft (w - amount))).isZero)

def rotateLeft (x : Word w) (amount : Nat) : Word w :=
  let k := amount % w
  if k = 0 then x
  else (ofLimbs w (x.limbs.shiftLeft k)).or (ofLimbs w (x.limbs.shiftRight (w - k)))

def rotateRight (x : Word w) (amount : Nat) : Word w :=
  let k := amount % w
  if k = 0 then x else x.rotateLeft (w - k)

/-- Zero- or sign-extends to a wider width, cuts to a narrower one. -/
def resize (x : Word w) (v : Nat) (signed : Bool) : Word v :=
  if signed && w < v && x.signBit then ofLimbs v (x.limbs.fill (limbCount v) w)
  else ofLimbs v x.limbs

def convert (x : Word w) (v : Nat) (signed : Bool) : Word v × Bool :=
  let y := x.resize v signed
  (y, y.resize w signed != x)

end VerdictMachine.Word

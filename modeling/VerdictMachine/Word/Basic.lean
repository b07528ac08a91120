import VerdictMachine.Word.Limbs

/-!
# Words of a fixed width

A word of width `w` is a list of just enough limbs. Every constructor goes
through `ofLimbs`, which clears the bits that the width does not have, so equal
numbers have equal words. `toNat` and `toInt` are its unsigned and its two's
complement reading.
-/

set_option autoImplicit false

namespace VerdictMachine

structure Word (w : Nat) where
  limbs : Limbs
  deriving DecidableEq

namespace Word

def limbCount (w : Nat) : Nat := (w + 63) / 64

def byteCount (w : Nat) : Nat := (w + 7) / 8

/-- The low `w` bits of a limb list. -/
def ofLimbs (w : Nat) (ls : Limbs) : Word w := ⟨ls.fit (limbCount w) w⟩

def zero (w : Nat) : Word w := ofLimbs w []

def allOnes (w : Nat) : Word w := ofLimbs w (List.replicate (limbCount w) 0xFFFFFFFFFFFFFFFF)

def ofUInt64 (w : Nat) (v : UInt64) : Word w := ofLimbs w [v]

def ofDouble (w : Nat) (v : BitVec 128) : Word w :=
  ofLimbs w [⟨v.setWidth 64⟩, ⟨(v >>> 64).setWidth 64⟩]

def ofBytes (w : Nat) (bs : Bytes) : Word w := ofLimbs w (Limbs.ofBytes (limbCount w) bs)

variable {w : Nat}

def toBytes (x : Word w) : Bytes := x.limbs.toBytes.take (byteCount w)

def toNat (x : Word w) : Nat := x.limbs.value

def low64 (x : Word w) : UInt64 := x.limbs.getD 0 0

def low128 (x : Word w) : BitVec 128 :=
  x.low64.toBitVec.setWidth 128 ||| ((x.limbs.getD 1 0).toBitVec.setWidth 128 <<< 64)

def isZero (x : Word w) : Bool := x.limbs.isZero

def bit (x : Word w) (i : Nat) : Bool := i < w && x.limbs.bit i

def setBit (x : Word w) (i : Nat) : Word w := ⟨x.limbs.setBit i⟩

def signBit (x : Word w) : Bool := x.bit (w - 1)

def toInt (x : Word w) : Int := if x.signBit then (x.toNat : Int) - (1 <<< w : Nat) else x.toNat

/-- The most negative word: the sign bit alone. -/
def minSigned (w : Nat) : Word w := (zero w).setBit (w - 1)

def order (x y : Word w) : Ordering := x.limbs.order y.limbs

def signedOrder (x y : Word w) : Ordering :=
  match x.signBit, y.signBit with
  | true, false => .lt
  | false, true => .gt
  | _, _ => x.order y

def complement (x : Word w) : Word w := ofLimbs w (x.limbs.map (~~~·))

def and (x y : Word w) : Word w := ofLimbs w (List.zipWith (· &&& ·) x.limbs y.limbs)

def or (x y : Word w) : Word w := ofLimbs w (List.zipWith (· ||| ·) x.limbs y.limbs)

def xor (x y : Word w) : Word w := ofLimbs w (List.zipWith (· ^^^ ·) x.limbs y.limbs)

end Word

end VerdictMachine

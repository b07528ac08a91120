import VerdictMachine.Bytes

/-!
# Limb arithmetic

A number of any size is a list of 64-bit limbs, least significant limb first.
The operations here are the carry chains, rows and shifts; what width they are
cut to is decided by their callers. `value` is the number that a list denotes.
-/

set_option autoImplicit false

namespace VerdictMachine

abbrev Limbs := List UInt64

namespace Limbs

def value : Limbs → Nat
  | [] => 0
  | l :: ls => l.toNat + UInt64.size * value ls

/-- The low `k` bits of a limb, all of them from `k = 64` on. -/
def lowMask (k : Nat) : UInt64 :=
  if k < 64 then (1 <<< UInt64.ofNat k) - 1 else 0xFFFFFFFFFFFFFFFF

/-- Exactly `n` limbs, with every bit from position `w` on cleared. -/
def fit : Nat → Nat → Limbs → Limbs
  | 0, _, _ => []
  | n + 1, w, ls => (ls.headD 0 &&& lowMask w) :: fit n (w - 64) ls.tail

/-- Exactly `n` limbs, with every bit from position `w` on set. -/
def fill : Nat → Nat → Limbs → Limbs
  | 0, _, _ => []
  | n + 1, w, ls => (ls.headD 0 ||| ~~~lowMask w) :: fill n (w - 64) ls.tail

def isZero (ls : Limbs) : Bool := ls.all (· == 0)

def bit (ls : Limbs) (i : Nat) : Bool :=
  (ls.getD (i / 64) 0 >>> UInt64.ofNat (i % 64)) &&& 1 == 1

def setBit (ls : Limbs) (i : Nat) : Limbs :=
  ls.modify (i / 64) (· ||| 1 <<< UInt64.ofNat (i % 64))

/-- Whether some bit at position `k` or above is set. -/
def exceeds : Limbs → Nat → Bool
  | [], _ => false
  | l :: ls, k => (l &&& ~~~lowMask k) != 0 || exceeds ls (k - 64)

/-- Whether bit `k` is set and no other. -/
def isSingleBit : Limbs → Nat → Bool
  | [], _ => true
  | l :: ls, k =>
    if k < 64 then l == 1 <<< UInt64.ofNat k && isZero ls else l == 0 && isSingleBit ls (k - 64)

/-- The order of two lists of one length: the most significant difference decides. -/
def order : Limbs → Limbs → Ordering
  | a :: as, b :: bs => (order as bs).then (compare a b)
  | _, _ => .eq

def add : Limbs → Limbs → Bool → Limbs × Bool
  | a :: as, b :: bs, carry =>
    let s := a + b
    let t := s + carry.toUInt64
    let rest := add as bs (s < a || t < s)
    (t :: rest.1, rest.2)
  | _, _, carry => ([], carry)

def sub : Limbs → Limbs → Bool → Limbs × Bool
  | a :: as, b :: bs, borrow =>
    let d := a - b
    let rest := sub as bs (a < b || d < borrow.toUInt64)
    ((d - borrow.toUInt64) :: rest.1, rest.2)
  | _, _, borrow => ([], borrow)

/-- `a * b + c + d` in a double limb, split into its low and high limb. -/
def mulAdd (a b c d : UInt64) : UInt64 × UInt64 :=
  let t := a.toBitVec.setWidth 128 * b.toBitVec.setWidth 128 + c.toBitVec.setWidth 128 +
    d.toBitVec.setWidth 128
  (⟨t.setWidth 64⟩, ⟨(t >>> 64).setWidth 64⟩)

/-- The row `a * bs + acc + carry`, one limb longer than `bs`. -/
def mulRow (a : UInt64) : Limbs → Limbs → UInt64 → Limbs
  | [], _, carry => [carry]
  | b :: bs, acc, carry =>
    let t := mulAdd a b (acc.headD 0) carry
    t.1 :: mulRow a bs acc.tail t.2

/-- Adds the rows of a schoolbook product to `acc`. The lowest limb of each row is final. -/
def mulRows : Limbs → Limbs → Limbs → Limbs
  | [], _, acc => acc
  | a :: as, bs, acc =>
    let row := mulRow a bs acc 0
    row.headD 0 :: mulRows as bs row.tail

/-- The full product, as long as both factors together. -/
def mul (as bs : Limbs) : Limbs := mulRows as bs (List.replicate bs.length 0)

def shiftUp (k : Nat) : UInt64 → Limbs → Limbs
  | _, [] => []
  | below, l :: ls =>
    ((l <<< UInt64.ofNat k) ||| (if k = 0 then 0 else below >>> UInt64.ofNat (64 - k))) ::
      shiftUp k l ls

def shiftDown (k : Nat) : Limbs → Limbs
  | [] => []
  | l :: ls =>
    ((l >>> UInt64.ofNat k) ||| (if k = 0 then 0 else ls.headD 0 <<< UInt64.ofNat (64 - k))) ::
      shiftDown k ls

/-- Bits that leave the last limb are lost. -/
def shiftLeft (ls : Limbs) (amount : Nat) : Limbs :=
  shiftUp (amount % 64) 0 (List.replicate (amount / 64) 0 ++ ls)

def shiftRight (ls : Limbs) (amount : Nat) : Limbs :=
  shiftDown (amount % 64) (ls.drop (amount / 64))

def ofBytes : Nat → Bytes → Limbs
  | 0, _ => []
  | n + 1, bs => UInt64.ofNat (Bytes.toNatLE (bs.take 8)) :: ofBytes n (bs.drop 8)

def toBytes (ls : Limbs) : Bytes := ls.flatMap fun l => Bytes.ofNatLE 8 l.toNat

end Limbs

end VerdictMachine

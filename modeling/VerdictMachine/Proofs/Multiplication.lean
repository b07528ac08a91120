import Mathlib.Data.Int.ModEq
import VerdictMachine.Proofs.WordValue

/-!
# Multiplication

A schoolbook product is exact. One multiplication of limbs together with what it
is added to fits a double limb, with nothing to spare; a row adds a multiple of
one factor to what has been accumulated; and all rows together give the product
in as many limbs as both factors have. A word keeps of it what its width holds,
and its flag says that this is not all.
-/

set_option autoImplicit false

namespace VerdictMachine

namespace Limbs

/-- The largest that a double limb is asked to hold is what it can hold. -/
theorem mulAdd_lt (a b c d : UInt64) : a.toNat * b.toNat + c.toNat + d.toNat < 2 ^ 128 := by
  have ha : a.toNat ≤ 18446744073709551615 := Nat.le_of_lt_succ a.toNat_lt
  have hb : b.toNat ≤ 18446744073709551615 := Nat.le_of_lt_succ b.toNat_lt
  have hc := c.toNat_lt
  have hd := d.toNat_lt
  have hab := Nat.mul_le_mul ha hb
  omega

theorem value_mulAdd (a b c d : UInt64) :
    (mulAdd a b c d).1.toNat + UInt64.size * (mulAdd a b c d).2.toNat =
      a.toNat * b.toNat + c.toNat + d.toNat := by
  have hlt := mulAdd_lt a b c d
  have hwide : ∀ l : UInt64, (l.toBitVec.setWidth 128).toNat = l.toNat := by
    intro l
    rw [BitVec.toNat_setWidth]
    exact Nat.mod_eq_of_lt (Nat.lt_trans l.toNat_lt (by decide))
  have htotal : (a.toBitVec.setWidth 128 * b.toBitVec.setWidth 128 + c.toBitVec.setWidth 128 +
      d.toBitVec.setWidth 128).toNat = a.toNat * b.toNat + c.toNat + d.toNat := by
    simp only [BitVec.toNat_add, BitVec.toNat_mul, hwide, Nat.mod_add_mod]
    exact Nat.mod_eq_of_lt hlt
  have hlow : (mulAdd a b c d).1.toNat =
      (a.toNat * b.toNat + c.toNat + d.toNat) % UInt64.size := by
    rw [← htotal]
    exact BitVec.toNat_setWidth _ _
  have hhigh : (mulAdd a b c d).2.toNat =
      (a.toNat * b.toNat + c.toNat + d.toNat) / UInt64.size := by
    have hquot : (a.toNat * b.toNat + c.toNat + d.toNat) / 2 ^ 64 < 2 ^ 64 :=
      Nat.div_lt_of_lt_mul hlt
    rw [← htotal] at hquot ⊢
    refine (BitVec.toNat_setWidth _ _).trans ?_
    rw [BitVec.toNat_ushiftRight, Nat.shiftRight_eq_div_pow]
    exact Nat.mod_eq_of_lt hquot
  rw [hlow, hhigh, Nat.mod_add_div]

theorem length_mulRow (a : UInt64) (bs acc : Limbs) (carry : UInt64) :
    (mulRow a bs acc carry).length = bs.length + 1 := by
  induction bs generalizing acc carry with
  | nil => rfl
  | cons b bs ih => rw [mulRow, List.length_cons, List.length_cons, ih]

theorem value_mulRow (a : UInt64) {bs acc : Limbs} (h : acc.length ≤ bs.length)
    (carry : UInt64) :
    (mulRow a bs acc carry).value = a.toNat * bs.value + acc.value + carry.toNat := by
  induction bs generalizing acc carry with
  | nil =>
    obtain rfl : acc = [] := List.length_eq_zero_iff.mp (Nat.le_zero.mp h)
    simp [mulRow, value]
  | cons b bs ih =>
    have htail : acc.tail.length ≤ bs.length := by
      rw [List.length_tail]
      exact Nat.sub_le_of_le_add h
    have hlimb := value_mulAdd a b (acc.headD 0) carry
    rw [mulRow, value, ih htail, value_headD_tail acc, value]
    calc
      _ = (mulAdd a b (acc.headD 0) carry).1.toNat +
            UInt64.size * (mulAdd a b (acc.headD 0) carry).2.toNat +
            UInt64.size * (a.toNat * Limbs.value bs + Limbs.value acc.tail) := by ring
      _ = a.toNat * (b.toNat + UInt64.size * Limbs.value bs) +
            ((acc.headD 0).toNat + UInt64.size * Limbs.value acc.tail) + carry.toNat := by
        rw [hlimb]
        ring

theorem length_mulRows (as bs acc : Limbs) (h : acc.length = bs.length) :
    (mulRows as bs acc).length = as.length + bs.length := by
  induction as generalizing acc with
  | nil => rw [mulRows, h, List.length_nil, Nat.zero_add]
  | cons a as ih =>
    have htail : (mulRow a bs acc 0).tail.length = bs.length := by
      rw [List.length_tail, length_mulRow, Nat.add_sub_cancel]
    rw [mulRows, List.length_cons, List.length_cons, ih _ htail]
    omega

theorem value_mulRows (as : Limbs) {bs acc : Limbs} (h : acc.length = bs.length) :
    (mulRows as bs acc).value = as.value * bs.value + acc.value := by
  induction as generalizing acc with
  | nil => rw [mulRows, value, Nat.zero_mul, Nat.zero_add]
  | cons a as ih =>
    have htail : (mulRow a bs acc 0).tail.length = bs.length := by
      rw [List.length_tail, length_mulRow, Nat.add_sub_cancel]
    have hrow := value_mulRow a (Nat.le_of_eq h) 0
    rw [value_headD_tail, UInt64.toNat_zero, Nat.add_zero] at hrow
    rw [mulRows, value, ih htail, value, Nat.add_mul, Nat.mul_assoc, Nat.mul_add]
    omega

theorem length_mul (as bs : Limbs) : (as.mul bs).length = as.length + bs.length :=
  length_mulRows as bs _ List.length_replicate

theorem value_mul (as bs : Limbs) : (as.mul bs).value = as.value * bs.value := by
  rw [mul, value_mulRows as List.length_replicate, value_replicate_zero, Nat.add_zero]

end Limbs

namespace Word

variable {w : Nat} {x y : Word w}

theorem canonical_mul (x y : Word w) (signed : Bool) : (x.mul y signed).1.Canonical :=
  canonical_ofLimbs w _

theorem toNat_mul (x y : Word w) (signed : Bool) :
    (x.mul y signed).1.toNat = x.toNat * y.toNat % 2 ^ w := by
  change (ofLimbs w (x.limbs.mul y.limbs)).toNat = _
  rw [toNat_cut, Limbs.value_mul]
  rfl

theorem mul_flag_unsigned (x y : Word w) :
    (x.mul y false).2 = true ↔ 2 ^ w ≤ x.toNat * y.toNat := by
  change (x.limbs.mul y.limbs).exceeds w = true ↔ _
  rw [Limbs.exceeds_iff, Limbs.value_mul]
  rfl

theorem toInt_mul_toInt (hx : x.Canonical) (hy : y.Canonical) (hw : 0 < w) :
    x.toInt * y.toInt =
      if x.signBit = y.signBit then ((x.toInt.natAbs * y.toInt.natAbs : Nat) : Int)
      else -((x.toInt.natAbs * y.toInt.natAbs : Nat) : Int) := by
  have hxs := toInt_eq_magnitude hx hw
  have hys := toInt_eq_magnitude hy hw
  generalize x.toInt.natAbs = a at hxs ⊢
  generalize y.toInt.natAbs = b at hys ⊢
  rw [hxs, hys, Nat.cast_mul]
  cases x.signBit <;> cases y.signBit <;> simp

theorem mul_flag_signed (hx : x.Canonical) (hy : y.Canonical) (hw : 0 < w) :
    (x.mul y true).2 = true ↔
      ¬ (-2 ^ (w - 1) ≤ x.toInt * y.toInt ∧ x.toInt * y.toInt ≤ 2 ^ (w - 1) - 1) := by
  have hvalue : (x.magnitude.limbs.mul y.magnitude.limbs).value =
      x.toInt.natAbs * y.toInt.natAbs := by
    rw [Limbs.value_mul, ← toNat_magnitude hx hw, ← toNat_magnitude hy hw]
    rfl
  have hlength : w - 1 < 64 * (x.magnitude.limbs.mul y.magnitude.limbs).length := by
    have hlt := lt_limbs (Nat.sub_lt hw Nat.one_pos) (canonical_magnitude hx)
    rw [Limbs.length_mul]
    omega
  have hcast : (2 ^ (w - 1) : Int) = (2 ^ (w - 1) : Nat) := by norm_cast
  change (Limbs.exceeds _ (w - 1) && !(x.signBit != y.signBit && Limbs.isSingleBit _ (w - 1))) =
    true ↔ _
  rw [Bool.and_eq_true, Bool.not_eq_true', ← Bool.not_eq_true, Bool.and_eq_true, bne_iff_ne,
    Limbs.exceeds_iff, Limbs.isSingleBit_iff _ hlength, hvalue, hcast,
    toInt_mul_toInt hx hy hw]
  generalize x.toInt.natAbs * y.toInt.natAbs = n
  have hpos := Nat.two_pow_pos (w - 1)
  generalize 2 ^ (w - 1) = p at hpos ⊢
  split_ifs with hs
  · simp only [hs, ne_eq, not_true_eq_false, false_and, not_false_eq_true, and_true]
    omega
  · simp only [hs, ne_eq, not_false_eq_true, true_and]
    omega

/-- A product of words is the product modulo the power of two of the width, under either reading.
The flag is set when the product is too large for the unsigned reading, or outside of the range
of the signed one. The limbs that this is read from are exactly the full product of their factors,
and no step on the way to them is more than a double limb holds. -/
theorem multiplication_exact (hw : 0 < w) (hx : x.Canonical) (hy : y.Canonical) :
    (∀ signed, (x.mul y signed).1.Canonical ∧
      (x.mul y signed).1.toNat = x.toNat * y.toNat % 2 ^ w ∧
      ((x.mul y signed).1.toNat : Int) = x.toInt * y.toInt % 2 ^ w) ∧
    ((x.mul y false).2 = true ↔ 2 ^ w ≤ x.toNat * y.toNat) ∧
    ((x.mul y true).2 = true ↔
      ¬ (-2 ^ (w - 1) ≤ x.toInt * y.toInt ∧ x.toInt * y.toInt ≤ 2 ^ (w - 1) - 1)) ∧
    (∀ as bs : Limbs, (as.mul bs).length = as.length + bs.length ∧
      (as.mul bs).value = as.value * bs.value) ∧
    ∀ a b c d : UInt64, a.toNat * b.toNat + c.toNat + d.toNat < 2 ^ 128 ∧
      (Limbs.mulAdd a b c d).1.toNat + 2 ^ 64 * (Limbs.mulAdd a b c d).2.toNat =
        a.toNat * b.toNat + c.toNat + d.toNat := by
  refine ⟨?_, mul_flag_unsigned x y, mul_flag_signed hx hy hw, ?_, ?_⟩
  · intro signed
    refine ⟨canonical_mul x y signed, toNat_mul x y signed, ?_⟩
    rw [toNat_mul, Int.natCast_mod, Nat.cast_mul, Nat.cast_pow, Nat.cast_ofNat]
    exact (toInt_modEq hx hw).symm.mul (toInt_modEq hy hw).symm
  · intro as bs
    exact ⟨Limbs.length_mul as bs, Limbs.value_mul as bs⟩
  · intro a b c d
    exact ⟨Limbs.mulAdd_lt a b c d, Limbs.value_mulAdd a b c d⟩

/-- The most negative word of an odd width is the product of itself and one, but not the negative
of itself. -/
theorem multiplication_exact_minSigned :
    ((minSigned 65).mul (ofUInt64 65 1) true).2 = false ∧
      ((minSigned 65).mul (allOnes 65) true).2 = true := by
  have hw : 0 < 65 := by decide
  have hmin := canonical_minSigned hw
  have hone := (multiplication_exact hw hmin (canonical_ofUInt64 65 1)).2.2.1
  have hneg := (multiplication_exact hw hmin (canonical_allOnes 65)).2.2.1
  rw [← Bool.not_eq_true, hone, hneg]
  decide

end Word

end VerdictMachine

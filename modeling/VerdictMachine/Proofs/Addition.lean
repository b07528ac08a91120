import VerdictMachine.Proofs.Readings

/-!
# Addition, subtraction and negation

A sum or a difference is right modulo the power of two of the width, under both
readings. The unsigned flag is read from the limbs: a carry or a borrow that
leaves them, or a bit between the width and their end. The signed flag is read
from the signs alone, those of the operands and that of the result: operands
whose signs allow an overflow have a result that wraps at most once, and it
wraps to the other sign.
-/

set_option autoImplicit false

namespace VerdictMachine.Word

variable {w : Nat} {x y : Word w}

/-! ## Results -/

theorem add_modEq (hx : x.Canonical) (hy : y.Canonical) (signed : Bool) :
    ((x.add y signed).1.toNat : Int) ≡ x.toNat + y.toNat [ZMOD 2 ^ w] := by
  rw [toNat_add hx hy, Int.natCast_mod, Nat.cast_add, Nat.cast_pow, Nat.cast_ofNat]
  exact Int.mod_modEq _ _

theorem sub_modEq (hx : x.Canonical) (hy : y.Canonical) (signed : Bool) :
    ((x.sub y signed).1.toNat : Int) ≡ x.toNat - y.toNat [ZMOD 2 ^ w] := by
  have hlift : (x.toNat : Int) + (2 ^ w - y.toNat) = x.toNat - y.toNat + 2 ^ w := by ring
  rw [toNat_sub hx hy, Int.natCast_mod, Nat.cast_add, Int.natCast_sub (Nat.le_of_lt hy.toNat_lt),
    Nat.cast_pow, Nat.cast_ofNat, hlift]
  exact (Int.mod_modEq _ _).trans Int.add_modEq_right

theorem neg_modEq (hx : x.Canonical) : (x.neg.1.toNat : Int) ≡ -x.toNat [ZMOD 2 ^ w] := by
  change (x.wrappingNeg.toNat : Int) ≡ _ [ZMOD _]
  rw [toNat_wrappingNeg hx, Int.natCast_mod, Int.natCast_sub (Nat.le_of_lt hx.toNat_lt),
    Nat.cast_pow, Nat.cast_ofNat, sub_eq_neg_add]
  exact (Int.mod_modEq _ _).trans Int.add_modEq_right

theorem add_modEq_reading (hx : x.Canonical) (hy : y.Canonical) (hw : 0 < w)
    (flagged signed : Bool) :
    ((x.add y flagged).1.toNat : Int) ≡ x.reading signed + y.reading signed [ZMOD 2 ^ w] :=
  (add_modEq hx hy flagged).trans
    ((reading_modEq hx hw signed).symm.add (reading_modEq hy hw signed).symm)

theorem sub_modEq_reading (hx : x.Canonical) (hy : y.Canonical) (hw : 0 < w)
    (flagged signed : Bool) :
    ((x.sub y flagged).1.toNat : Int) ≡ x.reading signed - y.reading signed [ZMOD 2 ^ w] :=
  (sub_modEq hx hy flagged).trans
    ((reading_modEq hx hw signed).symm.sub (reading_modEq hy hw signed).symm)

/-! ## Flags -/

theorem add_flag_unsigned (hx : x.Canonical) (hy : y.Canonical) :
    (x.add y false).2 = true ↔ 2 ^ w ≤ x.toNat + y.toNat := by
  have hsum := Limbs.value_add (hx.length_limbs.trans hy.length_limbs.symm) false
  have hwide : 2 ^ w ≤ 2 ^ (64 * x.limbs.length) := by
    rw [hx.length_limbs]
    exact Nat.le_of_dvd (Nat.two_pow_pos _) (pow_dvd_limbs w)
  change (_ || Limbs.exceeds _ w) = true ↔ 2 ^ w ≤ x.limbs.value + y.limbs.value
  rw [Bool.or_eq_true, Limbs.exceeds_iff]
  cases hc : (x.limbs.add y.limbs false).2 with
  | false =>
    rw [hc, Bool.toNat_false] at hsum
    simp only [Bool.false_eq_true, false_or]
    omega
  | true =>
    -- A carry leaves the limbs, which hold at least the width.
    rw [hc, Bool.toNat_true, Bool.toNat_false] at hsum
    simp only [true_or, true_iff]
    omega

theorem sub_flag_unsigned (hx : x.Canonical) (hy : y.Canonical) :
    (x.sub y false).2 = true ↔ x.toNat < y.toNat := by
  have hl := hx.length_limbs.trans hy.length_limbs.symm
  have hdiff := Limbs.value_sub hl false
  have hlt := Limbs.value_lt (x.limbs.sub y.limbs false).1
  rw [Limbs.length_sub hl] at hlt
  change (x.limbs.sub y.limbs false).2 = true ↔ x.limbs.value < y.limbs.value
  cases hc : (x.limbs.sub y.limbs false).2 with
  | false =>
    rw [hc, Bool.toNat_false] at hdiff
    simp only [Bool.false_eq_true, false_iff]
    omega
  | true =>
    rw [hc, Bool.toNat_true, Bool.toNat_false] at hdiff
    simp only [true_iff]
    omega

/-- Only operands of one sign can have too large a sum, and then the sum shows the other sign. -/
theorem add_flag_signed (hx : x.Canonical) (hy : y.Canonical) (hw : 0 < w) :
    (x.add y true).2 = true ↔ ¬ Fits w true (x.toInt + y.toInt) := by
  have hr := canonical_add x y true
  have hhalf := pow_half_int hw
  obtain ⟨hxlow, hxhigh⟩ : Fits w true x.toInt := hx.fits_reading hw true
  obtain ⟨hylow, hyhigh⟩ : Fits w true y.toInt := hy.fits_reading hw true
  have hres : ((x.add y true).1.toNat : Int) ≡ x.toInt + y.toInt [ZMOD 2 ^ w] :=
    add_modEq_reading hx hy hw true true
  have hsum := toInt_wrapped hr hw hres (by omega) (by omega)
  change (x.signBit == y.signBit && (x.add y true).1.signBit != x.signBit) = true ↔ _
  rw [Bool.and_eq_true, beq_iff_eq, bne_iff_ne, signBit_eq_decide hx hw, signBit_eq_decide hy hw,
    signBit_eq_decide hr hw, Ne, decide_eq_decide, decide_eq_decide, fits_signed_iff]
  rw [fits_signed_iff] at hsum
  omega

/-- Only operands of different signs can have too large a difference, and then the difference does
not show the sign of the minuend. -/
theorem sub_flag_signed (hx : x.Canonical) (hy : y.Canonical) (hw : 0 < w) :
    (x.sub y true).2 = true ↔ ¬ Fits w true (x.toInt - y.toInt) := by
  have hr := canonical_sub x y true
  have hhalf := pow_half_int hw
  obtain ⟨hxlow, hxhigh⟩ : Fits w true x.toInt := hx.fits_reading hw true
  obtain ⟨hylow, hyhigh⟩ : Fits w true y.toInt := hy.fits_reading hw true
  have hres : ((x.sub y true).1.toNat : Int) ≡ x.toInt - y.toInt [ZMOD 2 ^ w] :=
    sub_modEq_reading hx hy hw true true
  have hdiff := toInt_wrapped hr hw hres (by omega) (by omega)
  change (x.signBit != y.signBit && (x.sub y true).1.signBit != x.signBit) = true ↔ _
  rw [Bool.and_eq_true, bne_iff_ne, bne_iff_ne, signBit_eq_decide hx hw, signBit_eq_decide hy hw,
    signBit_eq_decide hr hw, Ne, Ne, decide_eq_decide, decide_eq_decide, fits_signed_iff]
  rw [fits_signed_iff] at hdiff
  omega

theorem neg_flag (hx : x.Canonical) (hw : 0 < w) : x.neg.2 = true ↔ x.toInt = -2 ^ (w - 1) := by
  have hmin : (minSigned w).toInt = -2 ^ (w - 1) := by
    rw [toInt_minSigned hw, Nat.cast_pow, Nat.cast_ofNat]
  change (x == minSigned w) = true ↔ _
  rw [beq_iff_eq, ← hmin]
  constructor
  · rintro rfl
    rfl
  · exact hx.eq_of_toInt (canonical_minSigned hw) hw

/-- Only the most negative number has a negative that does not fit. -/
theorem fits_neg_iff (hx : x.Canonical) (hw : 0 < w) :
    Fits w true (-x.toInt) ↔ x.toInt ≠ -2 ^ (w - 1) := by
  obtain ⟨hlow, hhigh⟩ : Fits w true x.toInt := hx.fits_reading hw true
  rw [fits_signed_iff]
  omega

/-- Sums, differences and negatives of words are the exact ones modulo the power of two of the
width, under either reading. Without a sign, the flag is set when a sum is too large for the width
or a difference is below zero; with a sign, when the exact result is outside of the range, which
for a negative is the one case of the most negative number. -/
theorem addition_exact (hw : 0 < w) (hx : x.Canonical) (hy : y.Canonical) :
    (∀ signed, (x.add y signed).1.Canonical ∧
      (x.add y signed).1.toNat = (x.toNat + y.toNat) % 2 ^ w ∧
      ((x.add y signed).1.toNat : Int) = (x.toInt + y.toInt) % 2 ^ w) ∧
    ((x.add y false).2 = true ↔ 2 ^ w ≤ x.toNat + y.toNat) ∧
    ((x.add y true).2 = true ↔
      ¬ (-2 ^ (w - 1) ≤ x.toInt + y.toInt ∧ x.toInt + y.toInt ≤ 2 ^ (w - 1) - 1)) ∧
    (∀ signed, (x.sub y signed).1.Canonical ∧
      ((x.sub y signed).1.toNat : Int) = (x.toNat - y.toNat) % 2 ^ w ∧
      ((x.sub y signed).1.toNat : Int) = (x.toInt - y.toInt) % 2 ^ w) ∧
    ((x.sub y false).2 = true ↔ x.toNat < y.toNat) ∧
    ((x.sub y true).2 = true ↔
      ¬ (-2 ^ (w - 1) ≤ x.toInt - y.toInt ∧ x.toInt - y.toInt ≤ 2 ^ (w - 1) - 1)) ∧
    (x.neg.1.Canonical ∧ (x.neg.1.toNat : Int) = -x.toNat % 2 ^ w ∧
      (x.neg.1.toNat : Int) = -x.toInt % 2 ^ w) ∧
    (x.neg.2 = true ↔ ¬ (-2 ^ (w - 1) ≤ -x.toInt ∧ -x.toInt ≤ 2 ^ (w - 1) - 1)) ∧
    (x.neg.2 = true ↔ x.toInt = -2 ^ (w - 1)) := by
  have hneg : x.neg.1.Canonical := canonical_wrappingNeg x
  refine ⟨?_, add_flag_unsigned hx hy, add_flag_signed hx hy hw, ?_, sub_flag_unsigned hx hy,
    sub_flag_signed hx hy hw, ⟨hneg, ?_, ?_⟩, ?_, neg_flag hx hw⟩
  · intro signed
    have hr := canonical_add x y signed
    exact ⟨hr, toNat_add hx hy signed,
      hr.toNat_eq_of_modEq (add_modEq_reading hx hy hw signed true)⟩
  · intro signed
    have hr := canonical_sub x y signed
    exact ⟨hr, hr.toNat_eq_of_modEq (sub_modEq hx hy signed),
      hr.toNat_eq_of_modEq (sub_modEq_reading hx hy hw signed true)⟩
  · exact hneg.toNat_eq_of_modEq (neg_modEq hx)
  · exact hneg.toNat_eq_of_modEq ((neg_modEq hx).trans (toInt_modEq hx hw).symm.neg)
  · rw [neg_flag hx hw, ← fits_signed_iff, fits_neg_iff hx hw, not_not]

/-- The most negative word of an odd width: its double does not fit, and neither does its
negative, but zero without it borrows and its difference with itself does not. -/
theorem addition_exact_minSigned :
    ((minSigned 65).add (minSigned 65) true).2 = true ∧ (minSigned 65).neg.2 = true ∧
      ((zero 65).sub (minSigned 65) false).2 = true ∧
      ((minSigned 65).sub (minSigned 65) true).2 = false := by
  have hw : 0 < 65 := by decide
  have hmin := canonical_minSigned hw
  obtain ⟨-, -, hadd, -, -, hsub, -, -, hneg⟩ := addition_exact hw hmin hmin
  obtain ⟨-, -, -, -, hborrow, -⟩ := addition_exact hw (canonical_zero 65) hmin
  rw [← Bool.not_eq_true, hadd, hsub, hneg, hborrow]
  decide

end VerdictMachine.Word

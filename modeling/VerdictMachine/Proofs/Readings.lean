import Mathlib.Algebra.Order.Ring.Int
import VerdictMachine.Proofs.WordValue

/-!
# The two readings of a word

A word stands for a number without a sign or for one in two's complement. Under
either reading the numbers that the words of a width stand for are a range as
long as the power of two of the width, so that no two of them are congruent and
a result is known from its residue as soon as it is known to fit.
-/

set_option autoImplicit false

namespace VerdictMachine.Word

variable {w v : Nat} {x y : Word w} {signed : Bool} {a b : Int}

/-- The number that a word stands for: in two's complement, or without a sign. -/
def reading (x : Word w) : Bool → Int
  | true => x.toInt
  | false => x.toNat

/-- The numbers that the words of a width stand for under a reading. -/
def Fits (w : Nat) : Bool → Int → Prop
  | true, a => -2 ^ (w - 1) ≤ a ∧ a ≤ 2 ^ (w - 1) - 1
  | false, a => 0 ≤ a ∧ a ≤ 2 ^ w - 1

instance (w : Nat) (signed : Bool) (a : Int) : Decidable (Fits w signed a) :=
  match signed with
  | true => inferInstanceAs (Decidable (_ ∧ _))
  | false => inferInstanceAs (Decidable (_ ∧ _))

theorem fits_signed_iff : Fits w true a ↔ -2 ^ (w - 1) ≤ a ∧ a ≤ 2 ^ (w - 1) - 1 := Iff.rfl

theorem fits_unsigned_iff : Fits w false a ↔ 0 ≤ a ∧ a ≤ 2 ^ w - 1 := Iff.rfl

theorem pow_half_int (hw : 0 < w) : (2 : Int) ^ w = 2 * 2 ^ (w - 1) := by
  rw [← pow_succ', Nat.sub_add_cancel hw]

theorem Canonical.natCast_lt (hx : x.Canonical) : (x.toNat : Int) < 2 ^ w := by
  exact_mod_cast hx.toNat_lt

theorem Canonical.fits_reading (hx : x.Canonical) (hw : 0 < w) (signed : Bool) :
    Fits w signed (x.reading signed) := by
  have hlt := hx.natCast_lt
  cases signed with
  | false => exact ⟨Int.natCast_nonneg _, Int.le_sub_one_of_lt hlt⟩
  | true =>
    have hhalf := pow_half_int hw
    have hcast : ((2 ^ (w - 1) : Nat) : Int) = 2 ^ (w - 1) := by norm_cast
    change -2 ^ (w - 1) ≤ x.toInt ∧ x.toInt ≤ 2 ^ (w - 1) - 1
    rcases toInt_cases hx hw with ⟨-, hle, hi⟩ | ⟨-, hle, hi⟩
    · omega
    · rw [Nat.cast_pow, Nat.cast_ofNat] at hi
      omega

theorem reading_modEq (hx : x.Canonical) (hw : 0 < w) (signed : Bool) :
    x.reading signed ≡ x.toNat [ZMOD 2 ^ w] := by
  cases signed with
  | false => rfl
  | true => exact toInt_modEq hx hw

theorem Canonical.toNat_eq_of_modEq (hx : x.Canonical) (h : (x.toNat : Int) ≡ a [ZMOD 2 ^ w]) :
    (x.toNat : Int) = a % 2 ^ w := by
  rw [← h, Int.emod_eq_of_lt (Int.natCast_nonneg _) hx.natCast_lt]

/-- Of congruent numbers only one fits. -/
theorem Fits.eq_of_modEq (ha : Fits w signed a) (hb : Fits w signed b) (hw : 0 < w)
    (h : a ≡ b [ZMOD 2 ^ w]) : a = b := by
  have hhalf := pow_half_int hw
  have hdist : |b - a| < 2 ^ w := by
    rw [abs_lt]
    cases signed with
    | false =>
      obtain ⟨ha₀, ha₁⟩ := ha
      obtain ⟨hb₀, hb₁⟩ := hb
      omega
    | true =>
      obtain ⟨ha₀, ha₁⟩ := ha
      obtain ⟨hb₀, hb₁⟩ := hb
      omega
  have hzero := Int.eq_zero_of_abs_lt_dvd h.dvd hdist
  omega

theorem signBit_eq_decide (hx : x.Canonical) (hw : 0 < w) :
    x.signBit = decide (x.toInt < 0) := by
  have hlt := hx.toNat_lt
  rcases toInt_cases hx hw with ⟨hs, -, hi⟩ | ⟨hs, -, hi⟩
  · rw [hs, eq_comm, decide_eq_false_iff_not]
    omega
  · rw [hs, eq_comm, decide_eq_true_eq]
    omega

/-- A result that is off by one wrap at most is known from its residue. -/
theorem toInt_wrapped (hx : x.Canonical) (hw : 0 < w) (h : (x.toNat : Int) ≡ a [ZMOD 2 ^ w])
    (hlow : -2 ^ w ≤ a) (hhigh : a < 2 ^ w) :
    (Fits w true a ∧ x.toInt = a) ∨ (a < -2 ^ (w - 1) ∧ x.toInt = a + 2 ^ w) ∨
      (2 ^ (w - 1) ≤ a ∧ x.toInt = a - 2 ^ w) := by
  have hhalf := pow_half_int hw
  have hfits : Fits w true x.toInt := hx.fits_reading hw true
  have hres : x.toInt ≡ a [ZMOD 2 ^ w] := (toInt_modEq hx hw).trans h
  by_cases hneg : a < -2 ^ (w - 1)
  · have ha : Fits w true (a + 2 ^ w) := ⟨by omega, by omega⟩
    exact .inr (.inl ⟨hneg, hfits.eq_of_modEq ha hw (hres.trans Int.add_modEq_right.symm)⟩)
  · by_cases hpos : 2 ^ (w - 1) ≤ a
    · have ha : Fits w true (a - 2 ^ w) := ⟨by omega, by omega⟩
      exact .inr (.inr ⟨hpos, hfits.eq_of_modEq ha hw (hres.trans (Int.sub_emod_right _ _).symm)⟩)
    · have ha : Fits w true a := ⟨by omega, by omega⟩
      exact .inl ⟨ha, hfits.eq_of_modEq ha hw hres⟩

theorem Fits.mono (ha : Fits w signed a) (h : w ≤ v) : Fits v signed a := by
  cases signed with
  | false =>
    obtain ⟨ha₀, ha₁⟩ := ha
    have hpow : (2 : Int) ^ w ≤ 2 ^ v := pow_le_pow_right₀ (by decide) h
    exact ⟨ha₀, by omega⟩
  | true =>
    obtain ⟨ha₀, ha₁⟩ := ha
    have hpow : (2 : Int) ^ (w - 1) ≤ 2 ^ (v - 1) :=
      pow_le_pow_right₀ (by decide) (Nat.sub_le_sub_right h 1)
    exact ⟨by omega, by omega⟩

theorem Canonical.eq_of_reading (hx : x.Canonical) (hy : y.Canonical) (hw : 0 < w)
    (h : x.reading signed = y.reading signed) : x = y := by
  cases signed with
  | false => exact hx.eq_of_toNat hy (Int.ofNat_inj.mp h)
  | true => exact hx.eq_of_toInt hy hw h

end VerdictMachine.Word

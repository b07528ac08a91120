import Mathlib.Data.Int.ModEq
import VerdictMachine.Proofs.LimbValue
import VerdictMachine.Word.Arith

/-!
# Words as numbers

A canonical word has just enough limbs and no bit beyond its width. Such a word
is determined by the number that it denotes, and so every operation is described
by what it does to that number. Read as two's complement, the upper half of the
numbers stands for the negative ones.
-/

set_option autoImplicit false

namespace VerdictMachine.Word

variable {w : Nat} {x y : Word w}

structure Canonical (x : Word w) : Prop where
  length_limbs : x.limbs.length = limbCount w
  toNat_lt : x.toNat < 2 ^ w

theorem Canonical.eq_of_toNat (hx : x.Canonical) (hy : y.Canonical) (h : x.toNat = y.toNat) :
    x = y := by
  obtain ⟨as⟩ := x
  obtain ⟨bs⟩ := y
  exact congrArg Word.mk (Limbs.eq_of_value_eq (hx.length_limbs.trans hy.length_limbs.symm) h)

theorem toNat_cut (w : Nat) (ls : Limbs) : (ofLimbs w ls).toNat = ls.value % 2 ^ w := by
  rw [toNat_ofLimbs, Nat.one_shiftLeft]

theorem canonical_ofLimbs (w : Nat) (ls : Limbs) : (ofLimbs w ls).Canonical := by
  refine ⟨Limbs.length_fit _ _ _, ?_⟩
  rw [toNat_cut]
  exact Nat.mod_lt _ (Nat.two_pow_pos w)

/-- The width divides the limbs: what leaves them is a multiple of what leaves the width. -/
theorem pow_dvd_limbs (w : Nat) : 2 ^ w ∣ 2 ^ (64 * limbCount w) :=
  Nat.pow_dvd_pow 2 (le_limbCount w)

theorem lt_limbs {i : Nat} (h : i < w) (hx : x.Canonical) : i < 64 * x.limbs.length := by
  rw [hx.length_limbs]
  exact Nat.lt_of_lt_of_le h (le_limbCount w)

theorem pow_half (hw : 0 < w) : 2 ^ w = 2 * 2 ^ (w - 1) := by
  rw [← Nat.pow_succ', Nat.succ_eq_add_one, Nat.sub_add_cancel hw]

/-! ## Constants -/

theorem toNat_zero (w : Nat) : (zero w).toNat = 0 := by
  rw [zero, toNat_cut]
  exact Nat.zero_mod _

theorem canonical_zero (w : Nat) : (zero w).Canonical := canonical_ofLimbs w []

theorem toNat_ofUInt64 (w : Nat) (v : UInt64) : (ofUInt64 w v).toNat = v.toNat % 2 ^ w := by
  rw [ofUInt64, toNat_cut]
  rfl

theorem canonical_ofUInt64 (w : Nat) (v : UInt64) : (ofUInt64 w v).Canonical :=
  canonical_ofLimbs w [v]

/-- What complements a number within the limbs complements it within the width. -/
theorem mod_of_complement {a b : Nat} (hb : b < 2 ^ w) (h : a + b + 1 = 2 ^ (64 * limbCount w)) :
    a % 2 ^ w = 2 ^ w - 1 - b := by
  obtain ⟨k, hk⟩ := pow_dvd_limbs w
  have hmod := Limbs.mod_add_mod_succ (Nat.two_pow_pos w) (h.trans hk)
  rw [Nat.mod_eq_of_lt hb] at hmod
  omega

theorem canonical_allOnes (w : Nat) : (allOnes w).Canonical := canonical_ofLimbs w _

theorem toNat_allOnes (w : Nat) : (allOnes w).toNat = 2 ^ w - 1 := by
  have hcomp := Limbs.value_complement (List.replicate (limbCount w) 0)
  rw [List.map_replicate, Limbs.value_replicate_zero, List.length_replicate] at hcomp
  rw [allOnes, toNat_cut]
  exact mod_of_complement (Nat.two_pow_pos w) hcomp

/-! ## Bytes -/

theorem canonical_ofBytes (w : Nat) (bs : Bytes) : (ofBytes w bs).Canonical := canonical_ofLimbs w _

theorem toBytes_eq (hx : x.Canonical) : x.toBytes = Bytes.ofNatLE (byteCount w) x.toNat := by
  have hle : byteCount w ≤ 8 * limbCount w := by
    unfold byteCount limbCount
    omega
  rw [toBytes, Limbs.toBytes_eq, hx.length_limbs, Bytes.take_ofNatLE hle]
  rfl

/-! ## Bits and signs -/

theorem Canonical.toNat_lt_of_le (hx : x.Canonical) {k : Nat} (h : w ≤ k) : x.toNat < 2 ^ k :=
  Nat.lt_of_lt_of_le hx.toNat_lt (Nat.pow_le_pow_right (by decide) h)

theorem Canonical.bit_eq_testBit (hx : x.Canonical) (i : Nat) : x.bit i = x.toNat.testBit i := by
  rw [bit, Limbs.bit_eq_testBit]
  by_cases hi : i < w
  · rw [decide_eq_true hi, Bool.true_and]
    rfl
  · rw [decide_eq_false hi, Bool.false_and,
      Nat.testBit_lt_two_pow (hx.toNat_lt_of_le (Nat.le_of_not_lt hi))]

theorem toNat_setBit (hx : x.Canonical) {i : Nat} (hi : i < w) (hd : 2 ^ (i + 1) ∣ x.toNat) :
    (x.setBit i).toNat = x.toNat + 2 ^ i :=
  x.limbs.value_setBit_of_dvd (lt_limbs hi hx) hd

theorem canonical_setBit (hx : x.Canonical) {i : Nat} (hi : i < w) : (x.setBit i).Canonical := by
  refine ⟨(Limbs.length_setBit _ _).trans hx.length_limbs, ?_⟩
  rw [toNat, setBit, Limbs.value_setBit _ (lt_limbs hi hx)]
  exact Nat.or_lt_two_pow hx.toNat_lt (Nat.pow_lt_pow_right (by decide) hi)

theorem toNat_minSigned (hw : 0 < w) : (minSigned w).toNat = 2 ^ (w - 1) := by
  have hz : 2 ^ (w - 1 + 1) ∣ (zero w).toNat := by
    rw [toNat_zero]
    exact Nat.dvd_zero _
  rw [minSigned, toNat_setBit (canonical_zero w) (by omega) hz, toNat_zero, Nat.zero_add]

theorem canonical_minSigned (hw : 0 < w) : (minSigned w).Canonical :=
  canonical_setBit (canonical_zero w) (by omega)

theorem Canonical.signBit_iff (hx : x.Canonical) (hw : 0 < w) :
    x.signBit = true ↔ 2 ^ (w - 1) ≤ x.toNat := by
  have hlt := hx.toNat_lt
  rw [pow_half hw] at hlt
  have hdiv : x.toNat / 2 ^ (w - 1) < 2 := by
    rw [Nat.div_lt_iff_lt_mul (Nat.two_pow_pos _)]
    exact hlt
  have hone : 1 ≤ x.toNat / 2 ^ (w - 1) ↔ 2 ^ (w - 1) ≤ x.toNat :=
    Nat.div_pos_iff.trans ⟨And.right, fun h => ⟨Nat.two_pow_pos _, h⟩⟩
  rw [signBit, hx.bit_eq_testBit, Nat.testBit_eq_decide_div_mod_eq, decide_eq_true_eq, ← hone,
    Nat.mod_eq_of_lt hdiv]
  omega

theorem toInt_of_lt (hx : x.Canonical) (hw : 0 < w) (h : x.toNat < 2 ^ (w - 1)) :
    x.toInt = x.toNat := by
  have hs : ¬ x.signBit = true := by
    rw [hx.signBit_iff hw]
    omega
  rw [toInt, if_neg hs]

theorem toInt_of_le (hx : x.Canonical) (hw : 0 < w) (h : 2 ^ (w - 1) ≤ x.toNat) :
    x.toInt = (x.toNat : Int) - (2 ^ w : Nat) := by
  rw [toInt, if_pos ((hx.signBit_iff hw).mpr h), Nat.one_shiftLeft]

theorem toInt_minSigned (hw : 0 < w) : (minSigned w).toInt = -(2 ^ (w - 1) : Nat) := by
  have hmin := toNat_minSigned hw
  rw [toInt_of_le (canonical_minSigned hw) hw (Nat.le_of_eq hmin.symm), hmin, pow_half hw]
  omega

/-- The two readings of a word differ by nothing or by the power of two of the width. -/
theorem toInt_cases (hx : x.Canonical) (hw : 0 < w) :
    (x.signBit = false ∧ x.toNat < 2 ^ (w - 1) ∧ x.toInt = x.toNat) ∨
      (x.signBit = true ∧ 2 ^ (w - 1) ≤ x.toNat ∧ x.toInt = (x.toNat : Int) - (2 ^ w : Nat)) := by
  by_cases h : 2 ^ (w - 1) ≤ x.toNat
  · exact .inr ⟨(hx.signBit_iff hw).mpr h, h, toInt_of_le hx hw h⟩
  · refine .inl ⟨?_, by omega, toInt_of_lt hx hw (by omega)⟩
    rwa [← Bool.not_eq_true, hx.signBit_iff hw]

theorem toInt_modEq (hx : x.Canonical) (hw : 0 < w) : x.toInt ≡ x.toNat [ZMOD 2 ^ w] := by
  rcases toInt_cases hx hw with ⟨-, -, hi⟩ | ⟨-, -, hi⟩
  · rw [hi]
  · rw [hi, Nat.cast_pow, Nat.cast_ofNat]
    exact Int.sub_emod_right _ _

theorem toInt_eq_magnitude (hx : x.Canonical) (hw : 0 < w) :
    x.toInt = if x.signBit then -(x.toInt.natAbs : Int) else x.toInt.natAbs := by
  have hlt := hx.toNat_lt
  rcases toInt_cases hx hw with ⟨hs, -, hi⟩ | ⟨hs, -, hi⟩
  · rw [hs, if_neg Bool.false_ne_true]
    omega
  · rw [hs, if_pos rfl]
    omega

theorem Canonical.eq_of_toInt (hx : x.Canonical) (hy : y.Canonical) (hw : 0 < w)
    (h : x.toInt = y.toInt) : x = y := by
  apply hx.eq_of_toNat hy
  have hxlt := hx.toNat_lt
  have hylt := hy.toNat_lt
  rcases toInt_cases hx hw with ⟨-, -, ha⟩ | ⟨-, -, ha⟩ <;>
    rcases toInt_cases hy hw with ⟨-, -, hb⟩ | ⟨-, -, hb⟩ <;> omega

/-! ## Sums, differences and negation -/

theorem Canonical.order_eq_compare (hx : x.Canonical) (hy : y.Canonical) :
    x.order y = compare x.toNat y.toNat :=
  Limbs.order_eq_compare (hx.length_limbs.trans hy.length_limbs.symm)

theorem canonical_add (x y : Word w) (signed : Bool) : (x.add y signed).1.Canonical :=
  canonical_ofLimbs w _

theorem toNat_add (hx : x.Canonical) (hy : y.Canonical) (signed : Bool) :
    (x.add y signed).1.toNat = (x.toNat + y.toNat) % 2 ^ w := by
  have hsum := Limbs.value_add (hx.length_limbs.trans hy.length_limbs.symm) false
  obtain ⟨k, hk⟩ := pow_dvd_limbs w
  rw [hx.length_limbs, hk, Nat.mul_assoc, Bool.toNat_false, Nat.add_zero] at hsum
  change (ofLimbs w (x.limbs.add y.limbs false).1).toNat = _
  rw [toNat_cut, toNat, toNat, ← hsum, Nat.add_mul_mod_self_left]

theorem canonical_sub (x y : Word w) (signed : Bool) : (x.sub y signed).1.Canonical :=
  canonical_ofLimbs w _

theorem toNat_sub (hx : x.Canonical) (hy : y.Canonical) (signed : Bool) :
    (x.sub y signed).1.toNat = (x.toNat + (2 ^ w - y.toNat)) % 2 ^ w := by
  have hdiff := Limbs.value_sub (hx.length_limbs.trans hy.length_limbs.symm) false
  have hylt := hy.toNat_lt
  obtain ⟨k, hk⟩ := pow_dvd_limbs w
  rw [hx.length_limbs, hk, Nat.mul_assoc, Bool.toNat_false, Nat.add_zero] at hdiff
  change (ofLimbs w (x.limbs.sub y.limbs false).1).toNat = _
  change _ + y.toNat = x.toNat + _ at hdiff
  rw [toNat_cut, ← Nat.add_mod_right, ← Nat.add_mul_mod_self_left (x.toNat + _) _
    (k * (x.limbs.sub y.limbs false).2.toNat)]
  congr 1
  omega

theorem canonical_complement (x : Word w) : x.complement.Canonical := canonical_ofLimbs w _

theorem toNat_complement (hx : x.Canonical) : x.complement.toNat = 2 ^ w - 1 - x.toNat := by
  have hcomp := x.limbs.value_complement
  rw [hx.length_limbs] at hcomp
  rw [complement, toNat_cut]
  exact mod_of_complement hx.toNat_lt hcomp

theorem canonical_wrappingNeg (x : Word w) : x.wrappingNeg.Canonical := canonical_add _ _ _

theorem toNat_wrappingNeg (hx : x.Canonical) : x.wrappingNeg.toNat = (2 ^ w - x.toNat) % 2 ^ w := by
  have hlt := hx.toNat_lt
  rw [wrappingNeg, toNat_add (canonical_complement x) (canonical_ofUInt64 w 1),
    toNat_complement hx, toNat_ofUInt64, Nat.add_mod_mod, UInt64.toNat_one]
  congr 1
  omega

/-- Negation is exact on magnitudes up to that of the most negative word. -/
theorem toInt_wrappingNeg (hx : x.Canonical) (hw : 0 < w) (h : x.toNat ≤ 2 ^ (w - 1)) :
    x.wrappingNeg.toInt = -(x.toNat : Int) := by
  have hhalf := pow_half hw
  have hpos := Nat.two_pow_pos (w - 1)
  have hneg := toNat_wrappingNeg hx
  rcases Nat.eq_zero_or_pos x.toNat with h0 | h0
  · rw [h0, Nat.sub_zero, Nat.mod_self] at hneg
    rw [toInt_of_lt (canonical_wrappingNeg x) hw (by omega), hneg, h0]
    rfl
  · rw [Nat.mod_eq_of_lt (by omega)] at hneg
    rw [toInt_of_le (canonical_wrappingNeg x) hw (by omega), hneg]
    omega

theorem canonical_magnitude (hx : x.Canonical) : x.magnitude.Canonical := by
  unfold magnitude
  split_ifs
  · exact canonical_wrappingNeg x
  · exact hx

theorem toNat_magnitude (hx : x.Canonical) (hw : 0 < w) :
    x.magnitude.toNat = x.toInt.natAbs := by
  have hlt := hx.toNat_lt
  have hpos := Nat.two_pow_pos (w - 1)
  unfold magnitude
  rcases toInt_cases hx hw with ⟨hs, -, hi⟩ | ⟨hs, hle, hi⟩
  · rw [hs, if_neg Bool.false_ne_true, hi, Int.natAbs_natCast]
  · rw [hs, if_pos rfl, toNat_wrappingNeg hx, hi, Nat.mod_eq_of_lt (by omega)]
    omega

theorem magnitude_le (hx : x.Canonical) (hw : 0 < w) : x.toInt.natAbs ≤ 2 ^ (w - 1) := by
  have hlt := hx.toNat_lt
  have hhalf := pow_half hw
  rcases toInt_cases hx hw with ⟨-, hle, hi⟩ | ⟨-, hle, hi⟩ <;> omega

end VerdictMachine.Word

import VerdictMachine.Proofs.WordValue
import VerdictMachine.Word.Shift

/-!
# Shifts and rotations

A shift multiplies or divides, as far as the width goes. What it loses is found
by the opposite shift by the rest of the width. A rotation puts the two parts
together that the two shifts leave; they do not overlap, and so each bit of the
word has one place to go to.
-/

set_option autoImplicit false

namespace VerdictMachine.Word

variable {w : Nat} {x y : Word w}

/-! ## Shifts -/

theorem toNat_shiftedLeft (hx : x.Canonical) (k : Nat) :
    (ofLimbs w (x.limbs.shiftLeft k)).toNat = x.toNat * 2 ^ k % 2 ^ w := by
  have hdvd : 2 ^ w ∣ 2 ^ (64 * (k / 64 + x.limbs.length)) := by
    rw [hx.length_limbs]
    exact (pow_dvd_limbs w).trans (Nat.pow_dvd_pow 2 (by omega))
  rw [toNat_cut, Limbs.value_shiftLeft, Nat.mod_mod_of_dvd _ hdvd]
  rfl

theorem toNat_shiftedRight (hx : x.Canonical) (k : Nat) :
    (ofLimbs w (x.limbs.shiftRight k)).toNat = x.toNat / 2 ^ k := by
  rw [toNat_cut, Limbs.value_shiftRight]
  exact Nat.mod_eq_of_lt (Nat.lt_of_le_of_lt (Nat.div_le_self _ _) hx.toNat_lt)

theorem canonical_shiftLeft (hx : x.Canonical) (k : Nat) : (x.shiftLeft k).1.Canonical := by
  unfold shiftLeft
  split_ifs
  · exact hx
  · exact canonical_zero w
  · exact canonical_ofLimbs w _

theorem canonical_shiftRight (hx : x.Canonical) (k : Nat) : (x.shiftRight k).1.Canonical := by
  unfold shiftRight
  split_ifs
  · exact hx
  · exact canonical_zero w
  · exact canonical_ofLimbs w _

theorem toNat_shiftLeft (hx : x.Canonical) (k : Nat) :
    (x.shiftLeft k).1.toNat = x.toNat * 2 ^ k % 2 ^ w := by
  unfold shiftLeft
  split_ifs with h0 hk
  · rw [h0, Nat.pow_zero, Nat.mul_one, Nat.mod_eq_of_lt hx.toNat_lt]
  · have hdvd : 2 ^ w ∣ x.toNat * 2 ^ k := (Nat.pow_dvd_pow 2 hk).mul_left _
    rw [Nat.mod_eq_zero_of_dvd hdvd]
    exact toNat_zero w
  · exact toNat_shiftedLeft hx k

theorem toNat_shiftRight (hx : x.Canonical) (k : Nat) :
    (x.shiftRight k).1.toNat = x.toNat / 2 ^ k := by
  unfold shiftRight
  split_ifs with h0 hk
  · rw [h0, Nat.pow_zero, Nat.div_one]
  · rw [Nat.div_eq_of_lt (hx.toNat_lt_of_le hk)]
    exact toNat_zero w
  · exact toNat_shiftedRight hx k

theorem not_isZero_iff (x : Word w) : (!x.isZero) = true ↔ x.toNat ≠ 0 := by
  rw [Bool.not_eq_true', ← Bool.not_eq_true, isZero_iff]

/-- What a shift to the left loses is what the opposite shift by the rest of the width keeps. -/
theorem shiftLeft_flag (hx : x.Canonical) (k : Nat) :
    (x.shiftLeft k).2 = true ↔ 2 ^ w ≤ x.toNat * 2 ^ k := by
  unfold shiftLeft
  split_ifs with h0 hk
  · rw [h0, Nat.pow_zero, Nat.mul_one]
    simpa using hx.toNat_lt
  · rw [not_isZero_iff]
    constructor
    · intro hne
      exact Nat.le_trans (Nat.pow_le_pow_right (by decide) hk)
        (Nat.le_mul_of_pos_left _ (Nat.pos_of_ne_zero hne))
    · intro hle hzero
      rw [hzero, Nat.zero_mul] at hle
      exact Nat.not_lt_of_le hle (Nat.two_pow_pos w)
  · rw [not_isZero_iff, toNat_shiftedRight hx, Nat.div_ne_zero_iff,
      ← Nat.pow_sub_mul_pow 2 (Nat.le_of_not_le hk), Nat.mul_le_mul_right_iff (Nat.two_pow_pos k)]
    exact and_iff_right (Nat.ne_of_gt (Nat.two_pow_pos _))

theorem shiftRight_flag (hx : x.Canonical) (k : Nat) :
    (x.shiftRight k).2 = true ↔ x.toNat % 2 ^ k ≠ 0 := by
  unfold shiftRight
  split_ifs with h0 hk
  · rw [h0, Nat.pow_zero, Nat.mod_one]
    simp
  · rw [not_isZero_iff, Nat.mod_eq_of_lt (hx.toNat_lt_of_le hk)]
  · rw [not_isZero_iff, toNat_shiftedLeft hx, ← Nat.pow_sub_mul_pow 2 (Nat.le_of_not_le hk),
      Nat.mul_comm, Nat.mul_mod_mul_left, Nat.mul_ne_zero_iff]
    exact and_iff_right (Nat.ne_of_gt (Nat.two_pow_pos _))

/-- The number grows out of the width if and only if some bit of it does. -/
theorem exists_bit_iff (hx : x.Canonical) (k : Nat) :
    (∃ i, w ≤ i + k ∧ x.bit i = true) ↔ 2 ^ w ≤ x.toNat * 2 ^ k := by
  constructor
  · rintro ⟨i, hi, hbit⟩
    rw [hx.bit_eq_testBit] at hbit
    calc
      2 ^ w ≤ 2 ^ (i + k) := Nat.pow_le_pow_right (by decide) hi
      _ = 2 ^ i * 2 ^ k := Nat.pow_add 2 i k
      _ ≤ x.toNat * 2 ^ k := Nat.mul_le_mul_right _ (Nat.ge_two_pow_of_testBit hbit)
  · intro h
    obtain ⟨j, hj, hbit⟩ := Nat.exists_ge_and_testBit_of_ge_two_pow h
    rw [Nat.testBit_mul_two_pow, Bool.and_eq_true, decide_eq_true_eq] at hbit
    refine ⟨j - k, ?_, ?_⟩
    · rwa [Nat.sub_add_cancel hbit.1]
    · rw [hx.bit_eq_testBit, hbit.2]

/-! ## Rotations -/

theorem Canonical.eq_of_bit (hx : x.Canonical) (hy : y.Canonical)
    (h : ∀ i < w, x.bit i = y.bit i) : x = y := by
  apply hx.eq_of_toNat hy
  apply Nat.eq_of_testBit_eq
  intro i
  rw [← hx.bit_eq_testBit, ← hy.bit_eq_testBit]
  by_cases hi : i < w
  · exact h i hi
  · rw [bit, bit, decide_eq_false hi, Bool.false_and, Bool.false_and]

theorem canonical_or (x y : Word w) : (x.or y).Canonical := canonical_ofLimbs w _

theorem toNat_or (hx : x.Canonical) (hy : y.Canonical) :
    (x.or y).toNat = x.toNat ||| y.toNat := by
  have hvalue : Limbs.value (List.zipWith (· ||| ·) x.limbs y.limbs) = x.toNat ||| y.toNat := by
    apply Nat.eq_of_testBit_eq
    intro i
    rw [Nat.testBit_or]
    refine Limbs.testBit_zipWith ?_ (hx.length_limbs.trans hy.length_limbs.symm) i
    intro a b j
    rw [UInt64.toNat_or, Nat.testBit_or]
  rw [or, toNat_cut, hvalue]
  exact Nat.mod_eq_of_lt (Nat.or_lt_two_pow hx.toNat_lt hy.toNat_lt)

theorem canonical_rotateLeft (hx : x.Canonical) (k : Nat) : (x.rotateLeft k).Canonical := by
  unfold rotateLeft
  dsimp only
  split_ifs
  · exact hx
  · exact canonical_or _ _

/-- The bits below the amount come from the upper end of the word, the others from below. -/
theorem testBit_rotateLeft (hx : x.Canonical) (k : Nat) {j : Nat} (hj : j < w) :
    (x.rotateLeft k).toNat.testBit j =
      if j < k % w then x.toNat.testBit (j + (w - k % w)) else x.toNat.testBit (j - k % w) := by
  have hk : k % w < w := Nat.mod_lt k (Nat.zero_lt_of_lt hj)
  unfold rotateLeft
  dsimp only
  generalize k % w = r at hk
  split_ifs with h0 hlow hlow
  · omega
  · rw [h0, Nat.sub_zero]
  all_goals
    rw [toNat_or (canonical_ofLimbs w _) (canonical_ofLimbs w _), toNat_shiftedLeft hx,
      toNat_shiftedRight hx, Nat.testBit_or, Nat.testBit_mod_two_pow, Nat.testBit_mul_two_pow,
      Nat.testBit_div_two_pow, decide_eq_true hj, Bool.true_and]
  · rw [decide_eq_false (by omega), Bool.false_and, Bool.false_or]
  · have hout : x.toNat < 2 ^ (j + (w - r)) := hx.toNat_lt_of_le (by omega)
    rw [decide_eq_true (by omega), Bool.true_and, Nat.testBit_lt_two_pow hout, Bool.or_false]

theorem bit_rotateLeft (hx : x.Canonical) (k : Nat) {i : Nat} (hi : i < w) :
    (x.rotateLeft k).bit ((i + k) % w) = x.bit i := by
  have hw : 0 < w := Nat.zero_lt_of_lt hi
  have hk := Nat.mod_lt k hw
  rw [(canonical_rotateLeft hx k).bit_eq_testBit, hx.bit_eq_testBit,
    testBit_rotateLeft hx k (Nat.mod_lt _ hw), ← Nat.add_mod_mod]
  by_cases hwrap : i + k % w < w
  · rw [Nat.mod_eq_of_lt hwrap, if_neg (by omega), Nat.add_sub_cancel]
  · -- The bit comes in again at the lower end.
    rw [Nat.mod_eq_sub_mod (by omega), Nat.mod_eq_of_lt (by omega), if_pos (by omega)]
    congr 1
    omega

theorem rotateRight_eq (x : Word w) (k : Nat) : x.rotateRight k = x.rotateLeft (w - k % w) := by
  unfold rotateRight
  dsimp only
  split_ifs with h0
  · rw [h0, Nat.sub_zero, rotateLeft, Nat.mod_self]
    rfl
  · rfl

/-- Rotations that go round the word together leave it as it is. -/
theorem rotateLeft_rotateLeft (hx : x.Canonical) {j k : Nat} (h : w ∣ j + k) :
    (x.rotateLeft j).rotateLeft k = x := by
  have hj := canonical_rotateLeft hx j
  apply (canonical_rotateLeft hj k).eq_of_bit hx
  intro i hi
  have hplace : ((i + j) % w + k) % w = i := by
    obtain ⟨c, hc⟩ := h
    rw [Nat.mod_add_mod, Nat.add_assoc, hc, Nat.add_mul_mod_self_left, Nat.mod_eq_of_lt hi]
  calc
    ((x.rotateLeft j).rotateLeft k).bit i =
        ((x.rotateLeft j).rotateLeft k).bit (((i + j) % w + k) % w) := by rw [hplace]
    _ = (x.rotateLeft j).bit ((i + j) % w) :=
      bit_rotateLeft hj k (Nat.mod_lt _ (Nat.zero_lt_of_lt hi))
    _ = x.bit i := bit_rotateLeft hx j hi

theorem dvd_round (hw : 0 < w) (k : Nat) : w ∣ k + (w - k % w) := by
  have hlt := Nat.mod_lt k hw
  have hdiv := Nat.div_add_mod k w
  refine ⟨k / w + 1, ?_⟩
  rw [Nat.mul_succ]
  omega

/-- A shift to the left gives the product with a power of two as far as the width holds it, and its
flag says that a set bit has left the width; a shift to the right gives the quotient, and its flag
says that there is a remainder. A shift by the width or more leaves nothing. A rotation to the left
takes each bit to its place modulo the width, and one to the right takes it back. -/
theorem shifts_exact (hw : 0 < w) (hx : x.Canonical) (k : Nat) :
    ((x.shiftLeft k).1.Canonical ∧ (x.shiftLeft k).1.toNat = x.toNat * 2 ^ k % 2 ^ w) ∧
    ((x.shiftLeft k).2 = true ↔ 2 ^ w ≤ x.toNat * 2 ^ k) ∧
    ((x.shiftLeft k).2 = true ↔ ∃ i, w ≤ i + k ∧ x.bit i = true) ∧
    ((x.shiftRight k).1.Canonical ∧ (x.shiftRight k).1.toNat = x.toNat / 2 ^ k) ∧
    ((x.shiftRight k).2 = true ↔ x.toNat % 2 ^ k ≠ 0) ∧
    (w ≤ k → (x.shiftLeft k).1 = zero w ∧ (x.shiftRight k).1 = zero w) ∧
    ((x.rotateLeft k).Canonical ∧ ∀ i < w, (x.rotateLeft k).bit ((i + k) % w) = x.bit i) ∧
    (x.rotateLeft k).rotateRight k = x ∧ (x.rotateRight k).rotateLeft k = x := by
  have hleft := canonical_shiftLeft hx k
  have hright := canonical_shiftRight hx k
  refine ⟨⟨hleft, toNat_shiftLeft hx k⟩, shiftLeft_flag hx k, ?_, ⟨hright, toNat_shiftRight hx k⟩,
    shiftRight_flag hx k, ?_, ⟨canonical_rotateLeft hx k, fun i => bit_rotateLeft hx k⟩, ?_, ?_⟩
  · rw [shiftLeft_flag hx, exists_bit_iff hx]
  · intro hk
    have h0 : k ≠ 0 := Nat.ne_of_gt (Nat.lt_of_lt_of_le hw hk)
    rw [shiftLeft, shiftRight, if_neg h0, if_pos hk, if_neg h0, if_pos hk]
    exact ⟨rfl, rfl⟩
  · rw [rotateRight_eq]
    exact rotateLeft_rotateLeft hx (dvd_round hw k)
  · rw [rotateRight_eq]
    exact rotateLeft_rotateLeft hx (Nat.add_comm k _ ▸ dvd_round hw k)

/-- The top bit of a word that ends within its second limb: a shift by one loses it, and a rotation
by one brings it to the lower end. -/
theorem shifts_exact_minSigned :
    ((minSigned 65).shiftLeft 1).2 = true ∧ ((minSigned 65).shiftRight 64).2 = false ∧
      ((minSigned 65).rotateLeft 1).bit 0 = true ∧
      ((minSigned 65).rotateLeft 1).rotateRight 1 = minSigned 65 := by
  have hw : 0 < 65 := by decide
  have hmin := canonical_minSigned hw
  obtain ⟨-, hleft, -, -, -, -, ⟨-, hbit⟩, hback, -⟩ := shifts_exact hw hmin 1
  obtain ⟨-, -, -, -, hright, -⟩ := shifts_exact hw hmin 64
  refine ⟨?_, ?_, ?_, hback⟩
  · rw [hleft]
    decide
  · rw [← Bool.not_eq_true, hright]
    decide
  · exact (hbit 64 (by decide)).trans (by decide)

end VerdictMachine.Word

import Mathlib.Tactic.Common
import Mathlib.Tactic.Ring
import VerdictMachine.Proofs.Denotation

/-!
# What the limb operations denote

Each operation on limbs is the operation on the numbers that they denote, as far
as the limbs hold it: a bit is a bit of the number, a carry or borrow is what a
sum or difference leaves over, a shift multiplies. Each is an induction along
the limbs whose step is a fact about a single limb.
-/

set_option autoImplicit false

namespace VerdictMachine.Limbs

theorem pow_limb (n : Nat) : 2 ^ (64 * (n + 1)) = UInt64.size * 2 ^ (64 * n) := by
  rw [Nat.mul_succ, Nat.pow_add, Nat.mul_comm]

theorem pow_of_le {k : Nat} (h : 64 ≤ k) : 2 ^ k = UInt64.size * 2 ^ (k - 64) := by
  rw [show UInt64.size = 2 ^ 64 from rfl, ← Nat.pow_add, Nat.add_sub_of_le h]

theorem pow_lt_size {k : Nat} (h : k < 64) : 2 ^ k < UInt64.size :=
  Nat.pow_lt_pow_right (by decide) h

theorem value_lt (ls : Limbs) : ls.value < 2 ^ (64 * ls.length) := by
  induction ls with
  | nil => exact Nat.one_pos
  | cons l ls ih =>
    have hl := l.toNat_lt
    rw [value, List.length_cons, pow_limb, UInt64.size]
    omega

/-- Lists of one length that denote the same number are equal. -/
theorem eq_of_value_eq {as bs : Limbs} (hl : as.length = bs.length) (h : as.value = bs.value) :
    as = bs := by
  induction as generalizing bs with
  | nil => exact (List.length_eq_zero_iff.mp hl.symm).symm
  | cons a as ih =>
    cases bs with
    | nil => cases hl
    | cons b bs =>
      have ha := a.toNat_lt
      have hb := b.toNat_lt
      rw [value, value, UInt64.size] at h
      have hhead : a = b := UInt64.toNat_inj.mp (by omega)
      rw [hhead, ih (Nat.succ.inj hl) (by omega)]

theorem value_append (as bs : Limbs) :
    Limbs.value (as ++ bs) = as.value + 2 ^ (64 * as.length) * bs.value := by
  induction as with
  | nil => simp [value]
  | cons a as ih =>
    rw [List.cons_append, value, value, ih, List.length_cons, pow_limb]
    ring

theorem value_replicate_zero (n : Nat) : Limbs.value (List.replicate n 0) = 0 := by
  induction n with
  | zero => rfl
  | succ n ih => rw [List.replicate_succ, value, ih, UInt64.toNat_zero, Nat.mul_zero]

theorem length_fit (n w : Nat) (ls : Limbs) : (ls.fit n w).length = n := by
  induction n generalizing w ls with
  | zero => rfl
  | succ n ih => rw [fit, List.length_cons, ih]

/-! ## Bits -/

theorem toNat_ofNat_mod {k : Nat} (h : k < 64) : (UInt64.ofNat k).toNat % 64 = k := by
  rw [UInt64.toNat_ofNat']
  omega

theorem testBit_limb (l : UInt64) {k : Nat} (h : k < 64) :
    ((l >>> UInt64.ofNat k) &&& 1 == 1) = l.toNat.testBit k := by
  have hbit : ((l >>> UInt64.ofNat k) &&& 1).toNat = l.toNat / 2 ^ k % 2 := by
    rw [UInt64.toNat_and, UInt64.toNat_shiftRight, toNat_ofNat_mod h, UInt64.toNat_one,
      Nat.and_one_is_mod, Nat.shiftRight_eq_div_pow]
  rw [Nat.testBit_eq_decide_div_mod_eq, ← hbit, Bool.beq_eq_decide_eq]
  exact decide_eq_decide.mpr (UInt64.toNat_inj (b := 1)).symm

theorem testBit_value (ls : Limbs) (i : Nat) :
    ls.value.testBit i = (ls.getD (i / 64) 0).toNat.testBit (i % 64) := by
  induction ls generalizing i with
  | nil => simp [value]
  | cons l ls ih =>
    rw [value, Nat.add_comm, show UInt64.size = 2 ^ 64 from rfl,
      Nat.testBit_two_pow_mul_add _ l.toNat_lt]
    by_cases hi : i < 64
    · rw [if_pos hi, Nat.div_eq_of_lt hi, Nat.mod_eq_of_lt hi]
      rfl
    · have hd : i / 64 = (i - 64) / 64 + 1 := by omega
      have hm : i % 64 = (i - 64) % 64 := by omega
      rw [if_neg hi, ih, hd, hm]
      rfl

theorem bit_eq_testBit (ls : Limbs) (i : Nat) : ls.bit i = ls.value.testBit i := by
  rw [bit, testBit_limb _ (Nat.mod_lt i (by decide)), testBit_value]

/-- Operations on limbs that act on each bit alone do so on lists of them. -/
theorem testBit_zipWith {f : UInt64 → UInt64 → UInt64} {g : Bool → Bool → Bool}
    (hf : ∀ a b i, (f a b).toNat.testBit i = g (a.toNat.testBit i) (b.toNat.testBit i))
    {as bs : Limbs} (hl : as.length = bs.length) (i : Nat) :
    (Limbs.value (List.zipWith f as bs)).testBit i =
      g (as.value.testBit i) (bs.value.testBit i) := by
  have hzero : g false false = false := by
    have hout := hf 0 0 64
    rw [Nat.testBit_lt_two_pow (f 0 0).toNat_lt, UInt64.toNat_zero, Nat.zero_testBit] at hout
    exact hout.symm
  rw [testBit_value, testBit_value, testBit_value]
  simp only [List.getD_eq_getElem?_getD, List.getElem?_zipWith]
  by_cases hi : i / 64 < as.length
  · rw [List.getElem?_eq_getElem hi, List.getElem?_eq_getElem (hl ▸ hi)]
    exact hf _ _ _
  · rw [List.getElem?_eq_none (Nat.le_of_not_lt hi),
      List.getElem?_eq_none (hl ▸ Nat.le_of_not_lt hi)]
    simp [hzero]

theorem length_setBit (ls : Limbs) (i : Nat) : (ls.setBit i).length = ls.length := by
  rw [setBit, List.length_modify]

theorem value_setBit (ls : Limbs) {i : Nat} (h : i < 64 * ls.length) :
    (ls.setBit i).value = ls.value ||| 2 ^ i := by
  apply Nat.eq_of_testBit_eq
  intro j
  rw [Nat.testBit_or, Nat.testBit_two_pow, testBit_value, testBit_value, setBit,
    List.getD_eq_getElem?_getD, List.getD_eq_getElem?_getD, List.getElem?_modify]
  by_cases hj : i / 64 = j / 64
  · have hlt : j / 64 < ls.length := by omega
    have hmod : (i % 64 = j % 64) ↔ i = j := by omega
    rw [List.getElem?_eq_getElem hlt]
    simp only [hj, if_true, Option.map_eq_map, Option.map_some, Option.getD_some,
      UInt64.toNat_or, Nat.testBit_or, toNat_one_shiftLeft (Nat.mod_lt i (by decide)),
      Nat.one_shiftLeft, Nat.testBit_two_pow, hmod]
  · have hne : i ≠ j := by
      rintro rfl
      exact hj rfl
    simp [hj, hne]

/-- A bit below all bits that are set is added. -/
theorem value_setBit_of_dvd (ls : Limbs) {i : Nat} (h : i < 64 * ls.length)
    (hd : 2 ^ (i + 1) ∣ ls.value) : (ls.setBit i).value = ls.value + 2 ^ i := by
  obtain ⟨k, hk⟩ := hd
  rw [value_setBit ls h, hk]
  exact (Nat.two_pow_add_eq_or_of_lt (Nat.pow_lt_pow_succ (by decide)) k).symm

theorem and_not_eq_zero_iff (a b : UInt64) : a &&& ~~~b = 0 ↔ a &&& b = a := by
  rw [← UInt64.toBitVec_inj, ← UInt64.toBitVec_inj]
  simp only [UInt64.toBitVec_and, UInt64.toBitVec_not, UInt64.toBitVec_zero]
  constructor
  · intro h
    ext i hi
    have hbit := congrArg (·.getLsbD i) h
    simp at hbit
    grind
  · intro h
    ext i hi
    have hbit := congrArg (·.getLsbD i) h
    simp at hbit
    grind

/-- A limb has a bit outside of a mask unless the number is below the power of two. -/
theorem and_not_lowMask_ne_zero_iff (l : UInt64) (k : Nat) :
    (l &&& ~~~lowMask k != 0) = true ↔ 2 ^ k ≤ l.toNat := by
  rw [bne_iff_ne, Ne, and_not_eq_zero_iff, ← UInt64.toNat_inj, toNat_and_lowMask,
    Nat.one_shiftLeft]
  by_cases h : 2 ^ k ≤ l.toNat
  · have hmod := Nat.mod_lt l.toNat (Nat.two_pow_pos k)
    omega
  · rw [Nat.mod_eq_of_lt (by omega)]
    omega

theorem exceeds_iff (ls : Limbs) (k : Nat) : ls.exceeds k = true ↔ 2 ^ k ≤ ls.value := by
  induction ls generalizing k with
  | nil => simp [exceeds, value]
  | cons l ls ih =>
    have hl := l.toNat_lt
    rw [exceeds, Bool.or_eq_true, and_not_lowMask_ne_zero_iff, ih, value]
    by_cases hk : k < 64
    · have hp := pow_lt_size hk
      rw [Nat.sub_eq_zero_of_le (Nat.le_of_lt hk), Nat.pow_zero]
      rw [UInt64.size] at hp ⊢
      omega
    · have hp := pow_of_le (Nat.le_of_not_lt hk)
      have hpos := Nat.two_pow_pos (k - 64)
      rw [UInt64.size] at hp ⊢
      omega

theorem isSingleBit_iff (ls : Limbs) {k : Nat} (h : k < 64 * ls.length) :
    ls.isSingleBit k = true ↔ ls.value = 2 ^ k := by
  induction ls generalizing k with
  | nil => simp at h
  | cons l ls ih =>
    have hl := l.toNat_lt
    rw [List.length_cons] at h
    rw [isSingleBit, value, UInt64.size]
    by_cases hk : k < 64
    · have hp := pow_lt_size hk
      rw [if_pos hk, Bool.and_eq_true, beq_iff_eq, ← UInt64.toNat_inj, toNat_one_shiftLeft hk,
        Nat.one_shiftLeft, isZero_iff]
      rw [UInt64.size] at hp
      omega
    · have hp := pow_of_le (Nat.le_of_not_lt hk)
      rw [UInt64.size] at hp
      rw [if_neg hk, Bool.and_eq_true, beq_iff_eq, ih (by omega), ← UInt64.toNat_inj,
        UInt64.toNat_zero]
      omega

/-! ## Order -/

theorem compare_limb (a b : UInt64) : compare a b = compare a.toNat b.toNat := by
  simp only [compare, compareOfLessAndEq, UInt64.lt_iff_toNat_lt, UInt64.toNat_inj]

/-- The higher digits decide, and the lowest ones where these are equal. -/
theorem compare_cons (a b : UInt64) (x y : Nat) :
    compare (a.toNat + UInt64.size * x) (b.toNat + UInt64.size * y) =
      (compare x y).then (compare a b) := by
  have ha := a.toNat_lt
  have hb := b.toNat_lt
  rw [compare_limb, UInt64.size]
  rcases Nat.lt_trichotomy x y with h | rfl | h
  · have hlt : a.toNat + 18446744073709551616 * x < b.toNat + 18446744073709551616 * y := by omega
    rw [Nat.compare_eq_lt.mpr h, Nat.compare_eq_lt.mpr hlt]
    rfl
  · rw [Nat.compare_eq_eq.mpr rfl]
    simp only [compare, compareOfLessAndEq, Ordering.then, Nat.add_lt_add_iff_right,
      Nat.add_right_cancel_iff]
  · have hlt : b.toNat + 18446744073709551616 * y < a.toNat + 18446744073709551616 * x := by omega
    rw [Nat.compare_eq_gt.mpr h, Nat.compare_eq_gt.mpr hlt]
    rfl

theorem order_eq_compare {as bs : Limbs} (hl : as.length = bs.length) :
    as.order bs = compare as.value bs.value := by
  induction as generalizing bs with
  | nil =>
    rw [List.length_eq_zero_iff.mp hl.symm]
    rfl
  | cons a as ih =>
    cases bs with
    | nil => cases hl
    | cons b bs => rw [order, ih (Nat.succ.inj hl), value, value, compare_cons]

/-! ## Sums and differences -/

/-- One limb of a sum with its carry. -/
theorem add_limb (a b : UInt64) (carry : Bool) :
    (a + b + carry.toUInt64).toNat +
        UInt64.size * (decide (a + b < a) || decide (a + b + carry.toUInt64 < a + b)).toNat =
      a.toNat + b.toNat + carry.toNat := by
  have ha := a.toNat_lt
  have hb := b.toNat_lt
  have hc : carry.toUInt64.toNat = carry.toNat := by cases carry <;> rfl
  have hle : carry.toNat ≤ 1 := Bool.toNat_le carry
  simp only [← Bool.decide_or, UInt64.lt_iff_toNat_lt, UInt64.toNat_add, hc, UInt64.size]
  by_cases h : (a.toNat + b.toNat) % 2 ^ 64 < a.toNat ∨
      ((a.toNat + b.toNat) % 2 ^ 64 + carry.toNat) % 2 ^ 64 < (a.toNat + b.toNat) % 2 ^ 64
  · rw [decide_eq_true h, Bool.toNat_true]
    omega
  · rw [decide_eq_false h, Bool.toNat_false]
    omega

theorem sub_limb (a b : UInt64) (borrow : Bool) :
    (a - b - borrow.toUInt64).toNat + b.toNat + borrow.toNat =
      a.toNat + UInt64.size * (decide (a < b) || decide (a - b < borrow.toUInt64)).toNat := by
  have ha := a.toNat_lt
  have hb := b.toNat_lt
  have hc : borrow.toUInt64.toNat = borrow.toNat := by cases borrow <;> rfl
  have hle : borrow.toNat ≤ 1 := Bool.toNat_le borrow
  simp only [← Bool.decide_or, UInt64.lt_iff_toNat_lt, UInt64.toNat_sub, hc, UInt64.size]
  by_cases h : a.toNat < b.toNat ∨ (2 ^ 64 - b.toNat + a.toNat) % 2 ^ 64 < borrow.toNat
  · rw [decide_eq_true h, Bool.toNat_true]
    omega
  · rw [decide_eq_false h, Bool.toNat_false]
    omega

/-- The sum of two lists and a carry is exact with the carry that leaves them. -/
theorem value_add {as bs : Limbs} (hl : as.length = bs.length) (carry : Bool) :
    (as.add bs carry).1.value + 2 ^ (64 * as.length) * (as.add bs carry).2.toNat =
      as.value + bs.value + carry.toNat := by
  induction as generalizing bs carry with
  | nil =>
    rw [List.length_eq_zero_iff.mp hl.symm]
    simp [add, value]
  | cons a as ih =>
    cases bs with
    | nil => cases hl
    | cons b bs =>
      have hlimb := add_limb a b carry
      have hrest := ih (Nat.succ.inj hl)
        (decide (a + b < a) || decide (a + b + carry.toUInt64 < a + b))
      rw [add, value, value, value, List.length_cons, pow_limb, Nat.mul_assoc]
      rw [UInt64.size] at hlimb ⊢
      dsimp only
      omega

theorem value_sub {as bs : Limbs} (hl : as.length = bs.length) (borrow : Bool) :
    (as.sub bs borrow).1.value + bs.value + borrow.toNat =
      as.value + 2 ^ (64 * as.length) * (as.sub bs borrow).2.toNat := by
  induction as generalizing bs borrow with
  | nil =>
    rw [List.length_eq_zero_iff.mp hl.symm]
    simp [sub, value]
  | cons a as ih =>
    cases bs with
    | nil => cases hl
    | cons b bs =>
      have hlimb := sub_limb a b borrow
      have hrest := ih (Nat.succ.inj hl) (decide (a < b) || decide (a - b < borrow.toUInt64))
      rw [sub, value, value, value, List.length_cons, pow_limb, Nat.mul_assoc]
      rw [UInt64.size] at hlimb ⊢
      dsimp only
      omega

theorem length_sub {as bs : Limbs} (hl : as.length = bs.length) (borrow : Bool) :
    (as.sub bs borrow).1.length = as.length := by
  induction as generalizing bs borrow with
  | nil => rfl
  | cons a as ih =>
    cases bs with
    | nil => cases hl
    | cons b bs => rw [sub, List.length_cons, List.length_cons, ih (Nat.succ.inj hl)]

theorem value_complement (ls : Limbs) :
    Limbs.value (ls.map (~~~·)) + ls.value + 1 = 2 ^ (64 * ls.length) := by
  induction ls with
  | nil => rfl
  | cons l ls ih =>
    have hl := l.toNat_lt
    have hnot : (~~~l).toNat = UInt64.size - 1 - l.toNat := UInt64.toNat_not l
    rw [List.map_cons, value, value, List.length_cons, pow_limb, ← ih, hnot, UInt64.size]
    omega

/-! ## Shifts -/

theorem pow_split {k : Nat} (h : k < 64) : UInt64.size = 2 ^ k * 2 ^ (64 - k) := by
  rw [← Nat.pow_add, Nat.add_sub_of_le (Nat.le_of_lt h)]

/-- A limb and the bits that come up into it from the limb below do not overlap. -/
theorem toNat_shiftUp_limb (l below : UInt64) {k : Nat} (h : k < 64) :
    ((l <<< UInt64.ofNat k) ||| (if k = 0 then 0 else below >>> UInt64.ofNat (64 - k))).toNat =
      l.toNat * 2 ^ k % UInt64.size + below.toNat / 2 ^ (64 - k) := by
  have hb := below.toNat_lt
  have hhigh : (l <<< UInt64.ofNat k).toNat = l.toNat * 2 ^ k % UInt64.size := by
    rw [UInt64.toNat_shiftLeft, toNat_ofNat_mod h, Nat.shiftLeft_eq]
  have hlow : (if k = 0 then 0 else below >>> UInt64.ofNat (64 - k) : UInt64).toNat =
      below.toNat / 2 ^ (64 - k) := by
    by_cases h0 : k = 0
    · rw [if_pos h0, h0]
      exact (Nat.div_eq_of_lt hb).symm
    · rw [if_neg h0, UInt64.toNat_shiftRight, toNat_ofNat_mod (by omega), Nat.shiftRight_eq_div_pow]
  have hlt : below.toNat / 2 ^ (64 - k) < 2 ^ k := by
    rw [Nat.div_lt_iff_lt_mul (Nat.two_pow_pos _), ← pow_split h]
    exact hb
  rw [UInt64.toNat_or, hhigh, hlow, pow_split h, Nat.mul_comm l.toNat, Nat.mul_mod_mul_left]
  exact (Nat.two_pow_add_eq_or_of_lt hlt _).symm

theorem value_shiftUp {k : Nat} (h : k < 64) (below : UInt64) (ls : Limbs) :
    (shiftUp k below ls).value =
      (ls.value * 2 ^ k + below.toNat / 2 ^ (64 - k)) % 2 ^ (64 * ls.length) := by
  induction ls generalizing below with
  | nil => exact (Nat.mod_one _).symm
  | cons l ls ih =>
    have hhead := toNat_shiftUp_limb l below h
    have hlt := ((l <<< UInt64.ofNat k) |||
      (if k = 0 then 0 else below >>> UInt64.ofNat (64 - k))).toNat_lt
    -- What the shift takes out of a limb is what the next limb finds below itself.
    have hcarry : l.toNat * 2 ^ k / UInt64.size = l.toNat / 2 ^ (64 - k) := by
      rw [pow_split h, Nat.mul_comm l.toNat, Nat.mul_div_mul_left _ _ (Nat.two_pow_pos k)]
    have hl := Nat.mod_add_div (l.toNat * 2 ^ k) UInt64.size
    rw [shiftUp, value, ih, List.length_cons, pow_limb, value, ← add_mul_mod_mul hlt, hhead,
      ← hcarry]
    congr 1
    rw [Nat.add_mul, Nat.mul_assoc, Nat.mul_add]
    rw [UInt64.size] at hl ⊢
    omega

/-- A shift multiplies; what does not fit into the limbs is lost. -/
theorem value_shiftLeft (ls : Limbs) (amount : Nat) :
    (ls.shiftLeft amount).value =
      ls.value * 2 ^ amount % 2 ^ (64 * (amount / 64 + ls.length)) := by
  have hp : 2 ^ amount = 2 ^ (64 * (amount / 64)) * 2 ^ (amount % 64) := by
    rw [← Nat.pow_add, Nat.div_add_mod]
  rw [shiftLeft, value_shiftUp (Nat.mod_lt _ (by decide)), value_append, value_replicate_zero,
    UInt64.toNat_zero, Nat.zero_div, Nat.add_zero, Nat.zero_add, List.length_append,
    List.length_replicate, hp]
  congr 1
  ring

/-- A limb and the bits that come down into it from the limb above do not overlap. -/
theorem toNat_shiftDown_limb (l above : UInt64) {k : Nat} (h : k < 64) :
    ((l >>> UInt64.ofNat k) ||| (if k = 0 then 0 else above <<< UInt64.ofNat (64 - k))).toNat =
      l.toNat / 2 ^ k + 2 ^ (64 - k) * (above.toNat % 2 ^ k) := by
  have hl := l.toNat_lt
  have hlow : (l >>> UInt64.ofNat k).toNat = l.toNat / 2 ^ k := by
    rw [UInt64.toNat_shiftRight, toNat_ofNat_mod h, Nat.shiftRight_eq_div_pow]
  have hhigh : (if k = 0 then 0 else above <<< UInt64.ofNat (64 - k) : UInt64).toNat =
      2 ^ (64 - k) * (above.toNat % 2 ^ k) := by
    by_cases h0 : k = 0
    · rw [if_pos h0, h0, Nat.pow_zero, Nat.mod_one, Nat.mul_zero]
      rfl
    · have hsize := pow_split h
      rw [Nat.mul_comm] at hsize
      rw [if_neg h0, UInt64.toNat_shiftLeft, toNat_ofNat_mod (by omega), Nat.shiftLeft_eq,
        Nat.mul_comm, show 2 ^ 64 = 2 ^ (64 - k) * 2 ^ k from hsize, Nat.mul_mod_mul_left]
  have hlt : l.toNat / 2 ^ k < 2 ^ (64 - k) := by
    rw [Nat.div_lt_iff_lt_mul (Nat.two_pow_pos _), Nat.mul_comm, ← pow_split h]
    exact hl
  rw [UInt64.toNat_or, hlow, hhigh, Nat.or_comm, Nat.add_comm]
  exact (Nat.two_pow_add_eq_or_of_lt hlt _).symm

theorem value_headD_mod {k : Nat} (h : k < 64) (ls : Limbs) :
    (ls.headD 0).toNat % 2 ^ k = ls.value % 2 ^ k := by
  rw [value_headD_tail ls, pow_split h, Nat.mul_assoc, Nat.add_mul_mod_self_left]

theorem value_shiftDown {k : Nat} (h : k < 64) (ls : Limbs) :
    (shiftDown k ls).value = ls.value / 2 ^ k := by
  induction ls with
  | nil => exact (Nat.zero_div _).symm
  | cons l ls ih =>
    have hrest := Nat.mod_add_div (Limbs.value ls) (2 ^ k)
    rw [shiftDown, value, toNat_shiftDown_limb _ _ h, ih, value_headD_mod h, value]
    calc
      l.toNat / 2 ^ k + 2 ^ (64 - k) * (Limbs.value ls % 2 ^ k) +
            UInt64.size * (Limbs.value ls / 2 ^ k) =
          l.toNat / 2 ^ k + 2 ^ (64 - k) *
            (Limbs.value ls % 2 ^ k + 2 ^ k * (Limbs.value ls / 2 ^ k)) := by
        rw [pow_split h]
        ring
      _ = (l.toNat + UInt64.size * Limbs.value ls) / 2 ^ k := by
        rw [hrest, pow_split h, Nat.mul_assoc, Nat.add_mul_div_left _ _ (Nat.two_pow_pos k)]

theorem value_drop (n : Nat) (ls : Limbs) : Limbs.value (ls.drop n) = ls.value / 2 ^ (64 * n) := by
  induction n generalizing ls with
  | zero => rw [List.drop_zero, Nat.mul_zero, Nat.pow_zero, Nat.div_one]
  | succ n ih =>
    cases ls with
    | nil => exact (Nat.zero_div _).symm
    | cons l ls =>
      have htail : (l.toNat + UInt64.size * Limbs.value ls) / UInt64.size = Limbs.value ls := by
        rw [Nat.add_mul_div_left _ _ (by decide), Nat.div_eq_of_lt l.toNat_lt, Nat.zero_add]
      rw [List.drop_succ_cons, ih, value, pow_limb, ← Nat.div_div_eq_div_mul, htail]

theorem value_shiftRight (ls : Limbs) (amount : Nat) :
    (ls.shiftRight amount).value = ls.value / 2 ^ amount := by
  rw [shiftRight, value_shiftDown (Nat.mod_lt _ (by decide)), value_drop,
    Nat.div_div_eq_div_mul, ← Nat.pow_add, Nat.div_add_mod]

/-! ## Filling up -/

theorem or_not_eq (a b : UInt64) : a ||| ~~~b = ~~~(~~~a &&& b) := by
  rw [← UInt64.toBitVec_inj]
  simp only [UInt64.toBitVec_and, UInt64.toBitVec_or, UInt64.toBitVec_not, BitVec.not_and,
    BitVec.not_not]

/-- Numbers that complement each other still do so modulo a divisor of their sum. -/
theorem mod_add_mod_succ {a b p c : Nat} (hp : 0 < p) (h : a + b + 1 = p * c) :
    a % p + b % p + 1 = p := by
  have ha := Nat.mod_lt a hp
  have hb := Nat.mod_lt b hp
  have hdvd : p ∣ a % p + b % p + 1 := by
    have hsplit : p * (a / p + b / p) + (a % p + b % p + 1) = p * c := by
      rw [← h, Nat.mul_add]
      have hda := Nat.div_add_mod a p
      have hdb := Nat.div_add_mod b p
      omega
    exact (Nat.dvd_add_right (Nat.dvd_mul_right p _)).mp ⟨c, hsplit⟩
  exact Nat.eq_of_dvd_of_lt_two_mul (Nat.succ_ne_zero _) hdvd (by omega)

/-- A limb with every bit from a position on set. -/
theorem toNat_or_not_lowMask (l : UInt64) {k : Nat} (h : k ≤ 64) :
    (l ||| ~~~lowMask k).toNat + 2 ^ k = l.toNat % 2 ^ k + UInt64.size := by
  have hl := l.toNat_lt
  have hnot : (~~~l).toNat = UInt64.size - 1 - l.toNat := UInt64.toNat_not l
  have hsize : (~~~l).toNat + l.toNat + 1 = 2 ^ k * 2 ^ (64 - k) := by
    rw [← Nat.pow_add, Nat.add_sub_of_le h, hnot, UInt64.size]
    omega
  have hmod := mod_add_mod_succ (Nat.two_pow_pos k) hsize
  have hle : (~~~l).toNat % 2 ^ k ≤ (~~~l).toNat := Nat.mod_le _ _
  have hfull : (~~~(~~~l &&& lowMask k)).toNat = UInt64.size - 1 - (~~~l &&& lowMask k).toNat :=
    UInt64.toNat_not _
  rw [or_not_eq, hfull, toNat_and_lowMask, Nat.one_shiftLeft]
  rw [UInt64.size] at hnot ⊢
  omega

theorem lowMask_of_le {k : Nat} (h : 64 ≤ k) : lowMask k = lowMask 64 := by
  rw [lowMask, if_neg (Nat.not_lt_of_le h)]
  rfl

/-- Limbs filled up from a width on denote what was below it and all the powers of two above. -/
theorem value_fill (n w : Nat) (ls : Limbs) (h : w ≤ 64 * n) :
    (ls.fill n w).value + 2 ^ w = ls.value % 2 ^ w + 2 ^ (64 * n) := by
  induction n generalizing w ls with
  | zero =>
    obtain rfl : w = 0 := by omega
    rw [Nat.pow_zero, Nat.mod_one]
    rfl
  | succ n ih =>
    have hl := (ls.headD 0).toNat_lt
    have hrest := ih (w - 64) ls.tail (by omega)
    rw [fill, value, pow_limb]
    by_cases hw : w < 64
    · -- The width ends in this limb, so all bits of the others are set.
      have hhead := toNat_or_not_lowMask (ls.headD 0) (Nat.le_of_lt hw)
      rw [value_headD_mod hw] at hhead
      rw [Nat.sub_eq_zero_of_le (Nat.le_of_lt hw)] at hrest ⊢
      rw [Nat.pow_zero, Nat.mod_one] at hrest
      rw [UInt64.size] at hhead ⊢
      omega
    · have hhead := toNat_or_not_lowMask (ls.headD 0) (Nat.le_refl 64)
      rw [Nat.mod_eq_of_lt hl, ← lowMask_of_le (Nat.le_of_not_lt hw)] at hhead
      rw [pow_of_le (Nat.le_of_not_lt hw), value_headD_tail ls, add_mul_mod_mul hl]
      rw [UInt64.size] at hhead ⊢
      omega

end VerdictMachine.Limbs

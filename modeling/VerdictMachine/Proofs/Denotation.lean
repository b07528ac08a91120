import VerdictMachine.Word.Basic

/-!
# The numbers that words denote

A list of limbs denotes a number, and cutting it to a width takes that number
modulo a power of two. So a word read from bytes denotes the number that the
bytes spell, as far as the width holds it. Written out again, limbs spell the
number that they denote.
-/

set_option autoImplicit false

namespace VerdictMachine

theorem shiftLeft_add (m n : Nat) : 1 <<< (m + n) = 1 <<< m * 1 <<< n := by
  rw [Nat.one_shiftLeft, Nat.one_shiftLeft, Nat.one_shiftLeft, Nat.pow_add]

/-- A low digit is not touched by a modulus that is a multiple of the base. -/
theorem add_mul_mod_mul {a base : Nat} (h : a < base) (b c : Nat) :
    (a + base * b) % (base * c) = a + base * (b % c) := by
  have hpos : 0 < base := Nat.zero_lt_of_lt h
  rw [Nat.mod_mul, Nat.add_mul_mod_self_left, Nat.mod_eq_of_lt h, Nat.add_mul_div_left _ _ hpos,
    Nat.div_eq_of_lt h, Nat.zero_add]

namespace Bytes

theorem toNatLE_append (as bs : Bytes) :
    toNatLE (as ++ bs) = toNatLE as + 1 <<< (8 * as.length) * toNatLE bs := by
  induction as with
  | nil => simp [toNatLE]
  | cons a as ih =>
    rw [List.cons_append, toNatLE, toNatLE, ih, List.length_cons, shiftLeft_byte, Nat.mul_add,
      Nat.mul_assoc, Nat.add_assoc]

/-- A byte string denotes its first `n` bytes and, above them, the others. -/
theorem toNatLE_take_drop (n : Nat) (bs : Bytes) :
    toNatLE bs = toNatLE (bs.take n) + 1 <<< (8 * n) * toNatLE (bs.drop n) := by
  by_cases h : n ≤ bs.length
  · have happ := toNatLE_append (bs.take n) (bs.drop n)
    rwa [List.take_append_drop, List.length_take_of_le h] at happ
  · have hle : bs.length ≤ n := by omega
    rw [List.take_of_length_le hle, List.drop_of_length_le hle]
    rfl

theorem take_ofNatLE {m n : Nat} (h : n ≤ m) (a : Nat) : (ofNatLE m a).take n = ofNatLE n a := by
  induction n generalizing m a with
  | zero => rfl
  | succ n ih =>
    cases m with
    | zero => cases h
    | succ m => rw [ofNatLE, ofNatLE, List.take_succ_cons, ih (Nat.le_of_succ_le_succ h)]

end Bytes

namespace Limbs

theorem isZero_iff (ls : Limbs) : ls.isZero = true ↔ ls.value = 0 := by
  induction ls with
  | nil => exact ⟨fun _ => rfl, fun _ => rfl⟩
  | cons l ls ih =>
    have hl : l = 0 ↔ l.toNat = 0 := UInt64.toNat_inj.symm
    rw [isZero, List.all_cons, Bool.and_eq_true, beq_iff_eq, hl, ← isZero, ih, value, UInt64.size]
    omega

theorem toNat_one_shiftLeft {k : Nat} (h : k < 64) :
    (1 <<< UInt64.ofNat k : UInt64).toNat = 1 <<< k := by
  have hp : 1 <<< k < 2 ^ 64 := by
    rw [Nat.one_shiftLeft]
    exact Nat.pow_lt_pow_right (by decide) h
  rw [UInt64.toNat_shiftLeft, UInt64.toNat_ofNat', UInt64.toNat_one,
    show k % 2 ^ 64 % 64 = k by omega, Nat.mod_eq_of_lt hp]

theorem toNat_and_lowMask (l : UInt64) (k : Nat) : (l &&& lowMask k).toNat = l.toNat % 1 <<< k := by
  have hl := l.toNat_lt
  rw [lowMask, Nat.one_shiftLeft]
  by_cases hk : k < 64
  · have hm : (1 <<< UInt64.ofNat k - 1 : UInt64).toNat = 2 ^ k - 1 := by
      rw [UInt64.toNat_sub_of_le, toNat_one_shiftLeft hk, UInt64.toNat_one, Nat.one_shiftLeft]
      rw [UInt64.le_iff_toNat_le, toNat_one_shiftLeft hk, Nat.one_shiftLeft]
      exact Nat.one_le_two_pow
    rw [if_pos hk, UInt64.toNat_and, hm, Nat.and_two_pow_sub_one_eq_mod]
  · have hp : 2 ^ 64 ≤ 2 ^ k := Nat.pow_le_pow_right (by decide) (Nat.le_of_not_lt hk)
    rw [if_neg hk, UInt64.toNat_and, Nat.mod_eq_of_lt (Nat.lt_of_lt_of_le hl hp)]
    exact (Nat.and_two_pow_sub_one_eq_mod l.toNat 64).trans (Nat.mod_eq_of_lt hl)

theorem value_headD_tail (ls : Limbs) :
    ls.value = (ls.headD 0).toNat + UInt64.size * Limbs.value ls.tail := by
  cases ls <;> rfl

/-- Limbs cut to a width denote what they denoted, modulo the power of two of the width. -/
theorem value_fit (n w : Nat) (ls : Limbs) (h : w ≤ 64 * n) :
    (ls.fit n w).value = ls.value % 1 <<< w := by
  induction n generalizing w ls with
  | zero =>
    obtain rfl : w = 0 := by omega
    exact (Nat.mod_one _).symm
  | succ n ih =>
    have hl := (ls.headD 0).toNat_lt
    rw [fit, value, toNat_and_lowMask, ih (w - 64) ls.tail (by omega), value_headD_tail ls]
    by_cases hw : w < 64
    · -- The width ends in this limb, so nothing of the others is left.
      have hs : UInt64.size = 1 <<< w * 1 <<< (64 - w) := by
        rw [← shiftLeft_add, Nat.add_sub_of_le (Nat.le_of_lt hw)]
        rfl
      have hrest : Limbs.value ls.tail % 1 <<< (w - 64) = 0 := by
        rw [Nat.sub_eq_zero_of_le (Nat.le_of_lt hw)]
        exact Nat.mod_one _
      rw [hrest, hs, Nat.mul_assoc, Nat.mul_assoc, Nat.add_mul_mod_self_left]
      rfl
    · have hs : 1 <<< w = UInt64.size * 1 <<< (w - 64) := by
        rw [show UInt64.size = 1 <<< 64 from rfl, ← shiftLeft_add,
          Nat.add_sub_of_le (Nat.le_of_not_lt hw)]
      have hhead := add_mul_mod_mul hl 0 (1 <<< (w - 64))
      rw [Nat.mul_zero, Nat.zero_mod, Nat.mul_zero] at hhead
      rw [hs, add_mul_mod_mul hl]
      exact congrArg (· + _) hhead

theorem value_ofBytes (n : Nat) (bs : Bytes) :
    (ofBytes n bs).value = Bytes.toNatLE bs % 1 <<< (64 * n) := by
  induction n generalizing bs with
  | zero => exact (Nat.mod_one _).symm
  | succ n ih =>
    have hlt : Bytes.toNatLE (bs.take 8) < UInt64.size := by
      have hb := Bytes.toNatLE_lt (bs.take 8)
      have hle : (bs.take 8).length ≤ 8 := List.length_take_le 8 bs
      rw [Nat.one_shiftLeft] at hb
      exact Nat.lt_of_lt_of_le hb (Nat.pow_le_pow_right (by decide) (Nat.mul_le_mul_left 8 hle))
    have hs : 1 <<< (64 * (n + 1)) = UInt64.size * 1 <<< (64 * n) := by
      rw [Nat.mul_succ, Nat.add_comm, shiftLeft_add]
      rfl
    rw [ofBytes, value, ih, UInt64.toNat_ofNat_of_lt' hlt, hs, Bytes.toNatLE_take_drop 8 bs]
    exact (add_mul_mod_mul hlt _ _).symm

theorem toBytes_cons (l : UInt64) (ls : Limbs) :
    toBytes (l :: ls) = Bytes.ofNatLE 8 l.toNat ++ toBytes ls := List.flatMap_cons

theorem length_toBytes (ls : Limbs) : ls.toBytes.length = 8 * ls.length := by
  induction ls with
  | nil => rfl
  | cons l ls ih =>
    rw [toBytes_cons, List.length_append, Bytes.length_ofNatLE, ih, List.length_cons]
    omega

theorem toNatLE_toBytes (ls : Limbs) : Bytes.toNatLE ls.toBytes = ls.value := by
  induction ls with
  | nil => rfl
  | cons l ls ih =>
    rw [toBytes_cons, Bytes.toNatLE_append, Bytes.toNatLE_ofNatLE, Bytes.length_ofNatLE, ih, value]
    exact congrArg (· + _) (Nat.mod_eq_of_lt l.toNat_lt)

/-- Limbs are written as the little-endian bytes of the number that they denote. -/
theorem toBytes_eq (ls : Limbs) : ls.toBytes = Bytes.ofNatLE (8 * ls.length) ls.value := by
  rw [← length_toBytes, ← toNatLE_toBytes, Bytes.ofNatLE_toNatLE]

end Limbs

namespace Word

theorem isZero_iff {w : Nat} (x : Word w) : x.isZero = true ↔ x.toNat = 0 := x.limbs.isZero_iff

theorem le_limbCount (w : Nat) : w ≤ 64 * limbCount w := by
  unfold limbCount
  omega

theorem toNat_ofLimbs (w : Nat) (ls : Limbs) : (ofLimbs w ls).toNat = ls.value % 1 <<< w :=
  Limbs.value_fit _ w ls (le_limbCount w)

/-- A word holds of a byte string as much as its width takes. -/
theorem toNat_ofBytes (w : Nat) (bs : Bytes) :
    (ofBytes w bs).toNat = Bytes.toNatLE bs % 1 <<< w := by
  rw [ofBytes, toNat_ofLimbs, Limbs.value_ofBytes]
  apply Nat.mod_mod_of_dvd
  obtain ⟨k, hk⟩ := Nat.exists_eq_add_of_le (le_limbCount w)
  exact ⟨1 <<< k, by rw [hk, shiftLeft_add]⟩

end Word

end VerdictMachine

import VerdictMachine.Proofs.Readings
import VerdictMachine.Word.Shift

/-!
# Changes of width

A word taken to another width stands for a number that is congruent to the one
before, modulo the power of two of the new width: cutting takes a multiple of it
away, and filling up with sign bits takes the missing power of two away. As no
two numbers of a range are congruent, the number survives if it fits the new
width, and then it survives the way back. So the flag, which compares the word
with what comes back, is set if and only if the number does not fit.
-/

set_option autoImplicit false

namespace VerdictMachine.Word

variable {w v : Nat} {x : Word w} {signed : Bool}

theorem canonical_resize (x : Word w) (v : Nat) (signed : Bool) :
    (x.resize v signed).Canonical := by
  unfold resize
  split_ifs
  · exact canonical_ofLimbs v _
  · exact canonical_ofLimbs v _

theorem cut_modEq (v : Nat) (ls : Limbs) :
    ((ofLimbs v ls).toNat : Int) ≡ ls.value [ZMOD 2 ^ v] := by
  rw [toNat_cut, Int.natCast_mod, Nat.cast_pow, Nat.cast_ofNat]
  exact Int.mod_modEq _ _

theorem fill_modEq (hx : x.Canonical) (hw : 0 < w) (h : w < v) (hs : x.signBit = true) :
    ((ofLimbs v (x.limbs.fill (limbCount v) w)).toNat : Int) ≡ x.toInt [ZMOD 2 ^ v] := by
  have hfill := Limbs.value_fill (limbCount v) w x.limbs
    (Nat.le_trans (Nat.le_of_lt h) (le_limbCount v))
  change _ = x.toNat % 2 ^ w + _ at hfill
  rw [Nat.mod_eq_of_lt hx.toNat_lt] at hfill
  have hvalue : ((x.limbs.fill (limbCount v) w).value : Int) =
      x.toInt + (2 ^ (64 * limbCount v) : Nat) := by
    rw [toInt_of_le hx hw ((hx.signBit_iff hw).mp hs)]
    omega
  -- The limbs end at or above the new width, so their end is a multiple of its power of two.
  obtain ⟨c, hc⟩ := pow_dvd_limbs v
  rw [hc, Nat.cast_mul, Nat.cast_pow, Nat.cast_ofNat] at hvalue
  exact (cut_modEq v _).trans (hvalue ▸ Int.modEq_add_fac_self)

theorem resize_modEq (hx : x.Canonical) (hw : 0 < w) (v : Nat) (signed : Bool) :
    ((x.resize v signed).toNat : Int) ≡ x.reading signed [ZMOD 2 ^ v] := by
  have hcut : ((ofLimbs v x.limbs).toNat : Int) ≡ x.toNat [ZMOD 2 ^ v] := cut_modEq v x.limbs
  unfold resize
  split_ifs with h
  · rw [Bool.and_eq_true, Bool.and_eq_true, decide_eq_true_eq] at h
    obtain ⟨⟨rfl, hlt⟩, hs⟩ := h
    exact fill_modEq hx hw hlt hs
  · cases signed with
    | false => exact hcut
    | true =>
      refine hcut.trans ?_
      change _ ≡ x.toInt [ZMOD _]
      rcases toInt_cases hx hw with ⟨-, -, hi⟩ | ⟨hs, -, -⟩
      · rw [hi]
      · have hle : v ≤ w := by
          by_contra hlt
          rw [hs, decide_eq_true (Nat.lt_of_not_le hlt)] at h
          exact h rfl
        exact (toInt_modEq hx hw).symm.of_dvd (pow_dvd_pow 2 hle)

theorem reading_resize (hx : x.Canonical) (hw : 0 < w) (hv : 0 < v)
    (h : Fits v signed (x.reading signed)) :
    (x.resize v signed).reading signed = x.reading signed := by
  have hy := canonical_resize x v signed
  exact (hy.fits_reading hv signed).eq_of_modEq h hv
    ((reading_modEq hy hv signed).trans (resize_modEq hx hw v signed))

theorem resize_resize_iff (hx : x.Canonical) (hw : 0 < w) (hv : 0 < v) :
    (x.resize v signed).resize w signed = x ↔ Fits v signed (x.reading signed) := by
  have hy := canonical_resize x v signed
  have hz := canonical_resize (x.resize v signed) w signed
  constructor
  · intro hback
    rcases Nat.le_total w v with hle | hle
    · exact (hx.fits_reading hw signed).mono hle
    · -- On the way back to the wider width nothing is lost, so that nothing was lost before.
      have hfits := hy.fits_reading hv signed
      have hread := reading_resize hy hv hw (hfits.mono hle)
      rw [hback] at hread
      rw [hread]
      exact hfits
  · intro h
    have hread := reading_resize hx hw hv h
    apply hz.eq_of_reading hx hw
    rw [reading_resize hy hv hw (by rw [hread]; exact hx.fits_reading hw signed), hread]

theorem convert_flag (hx : x.Canonical) (hw : 0 < w) (hv : 0 < v) (signed : Bool) :
    (x.convert v signed).2 = true ↔ ¬ Fits v signed (x.reading signed) := by
  change ((x.resize v signed).resize w signed != x) = true ↔ _
  rw [bne_iff_ne, Ne, resize_resize_iff hx hw hv]

theorem convert_back (hx : x.Canonical) (hw : 0 < w) (hv : 0 < v)
    (h : Fits v signed (x.reading signed)) :
    (x.convert v signed).1.convert w signed = (x, false) := by
  have hy := canonical_resize x v signed
  have hback : (x.resize v signed).resize w signed = x := (resize_resize_iff hx hw hv).mpr h
  have hflag : ((x.resize v signed).convert w signed).2 = false := by
    rw [← Bool.not_eq_true, convert_flag hy hv hw, not_not, reading_resize hx hw hv h]
    exact hx.fits_reading hw signed
  exact Prod.ext hback hflag

/-- A word taken to another width is the pattern there of the number that it stands for, with or
without a sign. The flag is set when that number does not fit the new width under the same reading.
As long as it is clear the word stands for the same number, and the way back is exact. -/
theorem conversion_exact (hw : 0 < w) (hv : 0 < v) (hx : x.Canonical) (signed : Bool) :
    (x.convert v signed).1.Canonical ∧
    ((x.convert v signed).1.toNat : Int) = x.reading signed % 2 ^ v ∧
    ((x.convert v signed).2 = true ↔ ¬ Fits v signed (x.reading signed)) ∧
    ((x.convert v signed).2 = false →
      (x.convert v signed).1.reading signed = x.reading signed ∧
        (x.convert v signed).1.convert w signed = (x, false)) := by
  have hy : (x.convert v signed).1.Canonical := canonical_resize x v signed
  refine ⟨hy, hy.toNat_eq_of_modEq (resize_modEq hx hw v signed), convert_flag hx hw hv signed, ?_⟩
  intro hclear
  have hfits : Fits v signed (x.reading signed) := by
    rwa [← Bool.not_eq_true, convert_flag hx hw hv, not_not] at hclear
  exact ⟨reading_resize hx hw hv hfits, convert_back hx hw hv hfits⟩

/-- Minus one survives any change of width as a signed number; without a sign it does not fit a
narrower word. -/
theorem conversion_exact_allOnes :
    ((allOnes 65).convert 130 true).1.reading true = -1 ∧
      ((allOnes 65).convert 130 true).1.convert 65 true = (allOnes 65, false) ∧
      ((allOnes 65).convert 64 true).2 = false ∧ ((allOnes 65).convert 64 false).2 = true := by
  have hw : 0 < 65 := by decide
  have hones := canonical_allOnes 65
  obtain ⟨-, -, hwider, hkept⟩ := conversion_exact hw (v := 130) (by decide) hones true
  obtain ⟨-, -, hsigned, -⟩ := conversion_exact hw (v := 64) (by decide) hones true
  obtain ⟨-, -, hplain, -⟩ := conversion_exact hw (v := 64) (by decide) hones false
  have hclear : ((allOnes 65).convert 130 true).2 = false := by
    rw [← Bool.not_eq_true, hwider]
    decide
  refine ⟨(hkept hclear).1.trans (by decide), (hkept hclear).2, ?_, ?_⟩
  · rw [← Bool.not_eq_true, hsigned]
    decide
  · rw [hplain]
    decide

end VerdictMachine.Word

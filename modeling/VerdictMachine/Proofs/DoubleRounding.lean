import VerdictMachine.Bank
import VerdictMachine.Proofs.NearestEven

/-!
# Half precision through single precision

The results of half precision are rounded twice: to single precision, and from
there to half precision. This gives what a single rounding gives, because the
first rounding takes no result onto a midpoint of half precision, or off one.
Products and sums of numbers that are not too far apart have few enough digits
to be exact. A sum of numbers that are far apart stays close to the greater one,
away from the midpoints. A quotient that is not a midpoint is further away from
every midpoint than single precision rounds.
-/

set_option autoImplicit false

namespace VerdictMachine

open Rounding Format

theorem leastExponent_binary16 : binary16.leastExponent = -24 := by decide

theorem leastExponent_binary32 : binary32.leastExponent = -149 := by decide

/-! ## Numbers of half precision -/

theorem midpoint_binary16 (p : Nat) : ∃ k c : Nat, k < 2 ^ 12 ∧
    binary16.midpoint p = k * 2 ^ (-25 + c : Int) := by
  obtain ⟨d, n, rfl, hn, hd⟩ := binary16.exists_grid p
  refine ⟨2 * n + 1, d, ?_, ?_⟩
  · change n < 2 * 2 ^ 10 at hn
    omega
  · rw [binary16.midpoint_grid hn hd, leastExponent_binary16,
      show (-24 + d : Int) = 1 + (-25 + d) by omega, ← two_zpow_split]
    push_cast
    ring

theorem exists_magnitude_binary32 {n : Nat} (hn : n < 2 ^ 24) {e : Int} (he : -149 ≤ e) :
    ∃ q, binary32.magnitude q = n * 2 ^ e := by
  obtain ⟨d, hd⟩ := Int.eq_ofNat_of_zero_le (Int.sub_nonneg_of_le he)
  obtain ⟨q, hq⟩ := binary32.exists_magnitude (show n ≤ 2 * 2 ^ 23 by omega) d
  rw [leastExponent_binary32, show (-149 + d : Int) = e by omega] at hq
  exact ⟨q, hq⟩

theorem exists_magnitude_midpoint (p : Nat) :
    ∃ q, binary32.magnitude q = binary16.midpoint p := by
  obtain ⟨k, c, hk, hmid⟩ := midpoint_binary16 p
  rw [hmid]
  exact exists_magnitude_binary32 (by omega) (by omega)

/-- The magnitudes of half precision below infinity. -/
def HalfSize (x : Rat) : Prop :=
  ∃ n d : Nat, n < 2 ^ 11 ∧ d ≤ 29 ∧ (d = 0 ∨ 2 ^ 10 ≤ n) ∧ x = n * 2 ^ (-24 + d : Int)

theorem halfSize_magnitude {p : Nat} (hp : p < binary16.infinityBits) :
    HalfSize (binary16.magnitude p) := by
  obtain ⟨d, n, rfl, hn, hd⟩ := binary16.exists_grid p
  refine ⟨n, d, ?_, ?_, hd, ?_⟩
  · change n < 2 * 2 ^ 10 at hn
    omega
  · change d * 2 ^ 10 + n < 31744 at hp
    change d = 0 ∨ 2 ^ 10 ≤ n at hd
    omega
  · rw [binary16.magnitude_grid hn.le hd, leastExponent_binary16]

namespace HalfSize

variable {x : Rat}

theorem nonneg (h : HalfSize x) : 0 ≤ x := by
  obtain ⟨n, d, -, -, -, rfl⟩ := h
  positivity

theorem le (h : HalfSize x) : x ≤ 2 ^ (127 : Int) := by
  obtain ⟨n, d, hn, hd, -, rfl⟩ := h
  have hsize : (n : Rat) ≤ 2 ^ (11 : Int) := by exact_mod_cast hn.le
  calc
    (n : Rat) * 2 ^ (-24 + d : Int) ≤ 2 ^ (11 : Int) * 2 ^ (-24 + d : Int) := by gcongr
    _ ≤ 2 ^ (127 : Int) := by
      rw [two_zpow_split]
      exact two_zpow_le (by omega)

theorem exists_magnitude (h : HalfSize x) : ∃ q, binary32.magnitude q = x := by
  obtain ⟨n, d, hn, hd, -, rfl⟩ := h
  exact exists_magnitude_binary32 (by omega) (by omega)

end HalfSize

/-! ## Results that a first rounding does not harm -/

/-- A magnitude that is not nearer to a midpoint of half precision than single precision rounds,
unless it is that midpoint. -/
def Clear (x : Rat) : Prop :=
  ∀ p, 2 ^ 24 * |x - binary16.midpoint p| ≤ x → x = binary16.midpoint p

/-- Zero, or a clear magnitude well within the range of single precision. -/
def Steady (x : Rat) : Prop := x = 0 ∨ 2 ^ (-126 : Int) ≤ x ∧ x ≤ 2 ^ (127 : Int) ∧ Clear x

theorem Steady.nonneg {x : Rat} (h : Steady x) : 0 ≤ x := by
  rcases h with rfl | ⟨hlow, -, -⟩
  · exact le_rfl
  · exact le_trans (by positivity) hlow

theorem lt_infinityBits_of_le {x : Rat} {q : Nat} (h : binary32.Encloses q x)
    (hx : x ≤ 2 ^ (127 : Int)) : q < binary32.infinityBits := by
  have htop : binary32.magnitude (253 * 2 ^ 23 + 2 ^ 23) = 2 ^ (127 : Int) := by
    rw [show (2 : Nat) ^ 23 = 2 ^ binary32.fractionBits from rfl,
      binary32.magnitude_grid (by decide) (.inr le_rfl), leastExponent_binary32, Nat.cast_pow,
      Nat.cast_ofNat, ← zpow_natCast, two_zpow_split]
    norm_num [binary32]
  have hle := h.le_of_le (htop ▸ hx)
  have hinf : binary32.infinityBits = 255 * 2 ^ 23 := by decide
  omega

/-- The main point: a clear magnitude compares with the midpoints of half precision as what it is
first rounded to. -/
theorem encodeMagnitude_through {x : Rat} {q : Nat} (h : binary32.Encloses q x)
    (hlow : 2 ^ (-126 : Int) ≤ x) (hclear : Clear x) :
    binary16.encodeMagnitude (binary32.magnitude q) = binary16.encodeMagnitude x := by
  have hx : 0 ≤ x := le_trans (by positivity) hlow
  have hy : 0 ≤ binary32.magnitude q :=
    binary32.magnitude_zero ▸ binary32.strictMono_magnitude.monotone (Nat.zero_le q)
  have herror := h.error_le (by decide) (by
    rw [leastExponent_binary32, ← zpow_natCast, two_zpow_split]
    exact hlow)
  obtain ⟨p, hp, hcode⟩ := exists_encloses (f := binary16) (by decide) hx
  have hpy : binary16.Encloses p (binary32.magnitude q) := by
    apply hp.congr
    · intro r hr
      obtain ⟨s, hs⟩ := exists_magnitude_midpoint r
      rw [← hs] at hr ⊢
      exact h.magnitude_ge_of_ge hr
    · intro r hr
      obtain ⟨s, hs⟩ := exists_magnitude_midpoint r
      rw [← hs] at hr ⊢
      exact h.magnitude_le_of_le hr
    · intro r hr
      rw [hr] at herror
      apply hclear r
      have hscale : (2 : Rat) * 2 ^ binary32.fractionBits = 2 ^ 24 := by norm_num [binary32]
      rwa [hscale] at herror
  rw [hcode, hpy.encodeMagnitude_eq (by decide) hy]

/-! ## Ratios -/

theorem eq_of_close {m n : Nat} {scale : Rat} (hs : 0 < scale)
    (h : 2 ^ 24 * |m * scale - n * scale| ≤ m * scale) (hsmall : m < 2 ^ 24 ∨ n < 2 ^ 23) :
    m = n := by
  rw [← sub_mul, abs_mul, abs_of_pos hs, ← mul_assoc, mul_le_mul_iff_left₀ hs] at h
  have hint : 2 ^ 24 * |(m : Int) - n| ≤ m := by exact_mod_cast h
  rcases abs_cases ((m : Int) - n) with ⟨habs, hsign⟩ | ⟨habs, hsign⟩ <;>
    rw [habs] at hint <;> omega

theorem two_zpow_of_le {e t : Int} (h : e ≤ t) : ∃ r : Nat, (2 : Rat) ^ t = 2 ^ r * 2 ^ e := by
  obtain ⟨r, hr⟩ := Int.eq_ofNat_of_zero_le (Int.sub_nonneg_of_le h)
  refine ⟨r, ?_⟩
  rw [← zpow_natCast, two_zpow_split]
  congr 1
  omega

theorem eq_of_close_grids {m n : Nat} {e t : Int} (hm : m < 2 ^ 24) (hn : n < 2 ^ 23)
    (h : 2 ^ 24 * |(m : Rat) * 2 ^ e - n * 2 ^ t| ≤ m * 2 ^ e) :
    (m : Rat) * 2 ^ e = n * 2 ^ t := by
  rcases le_total e t with hle | hle
  · obtain ⟨r, hr⟩ := two_zpow_of_le hle
    have hgrid : (n : Rat) * 2 ^ t = (n * 2 ^ r : Nat) * 2 ^ e := by
      rw [hr, ← mul_assoc]
      push_cast
      rfl
    rw [hgrid] at h ⊢
    rw [← eq_of_close (by positivity) h (.inl hm)]
  · obtain ⟨r, hr⟩ := two_zpow_of_le hle
    have hgrid : (m : Rat) * 2 ^ e = (m * 2 ^ r : Nat) * 2 ^ t := by
      rw [hr, ← mul_assoc]
      push_cast
      rfl
    rw [hgrid] at h ⊢
    rw [eq_of_close (by positivity) h (.inr hn)]

/-- A ratio of few digits is clear: multiplied by its denominator, it and a midpoint are integers
of few digits on two grids. -/
theorem clear_ratio {a b : Nat} (ha : a < 2 ^ 24) (hb : 0 < b) (hb' : b < 2 ^ 11) (e : Int) :
    Clear (a / b * 2 ^ e) := by
  intro p hclose
  obtain ⟨k, c, hk, hmid⟩ := midpoint_binary16 p
  rw [hmid] at hclose ⊢
  generalize (-25 + c : Int) = t at *
  have hpos : (0 : Rat) < b := by exact_mod_cast hb
  have hratio : (a : Rat) / b * 2 ^ e * b = a * 2 ^ e := by field_simp
  have hpoint : (k : Rat) * 2 ^ t * b = (k * b : Nat) * 2 ^ t := by
    push_cast
    ring
  have hkb : k * b < 2 ^ 23 := by
    calc
      k * b < 2 ^ 12 * 2 ^ 11 := Nat.mul_lt_mul'' hk hb'
      _ = 2 ^ 23 := by norm_num
  have hscaled := mul_le_mul_of_nonneg_right hclose hpos.le
  rw [mul_assoc, ← abs_of_pos hpos, ← abs_mul, abs_of_pos hpos, sub_mul, hratio, hpoint] at hscaled
  apply mul_right_cancel₀ hpos.ne'
  rw [hratio, hpoint]
  exact eq_of_close_grids ha hkb hscaled

theorem steady_ratio {a b : Nat} (ha : a < 2 ^ 24) (hb : 0 < b) (hb' : b < 2 ^ 11) {e : Int}
    (he : -100 ≤ e) (he' : e ≤ 100) : Steady (a / b * 2 ^ e) := by
  rcases Nat.eq_zero_or_pos a with rfl | ha0
  · exact .inl (by simp)
  · have hpos : (0 : Rat) < b := by exact_mod_cast hb
    have hone : (1 : Rat) ≤ a := by exact_mod_cast ha0
    have hbone : (1 : Rat) ≤ b := by exact_mod_cast hb
    have ha24 : (a : Rat) ≤ 2 ^ (24 : Int) := by exact_mod_cast ha.le
    have hb11 : (b : Rat) ≤ 2 ^ (11 : Int) := by exact_mod_cast hb'.le
    have hscale : (0 : Rat) < 2 ^ e := by positivity
    refine .inr ⟨?_, ?_, clear_ratio ha hb hb' e⟩
    · rw [div_mul_eq_mul_div, le_div_iff₀ hpos]
      calc
        (2 : Rat) ^ (-126 : Int) * b ≤ 2 ^ (-126 : Int) * 2 ^ (11 : Int) := by gcongr
        _ ≤ 2 ^ e := by
          rw [two_zpow_split]
          exact two_zpow_le (by omega)
        _ ≤ a * 2 ^ e := le_mul_of_one_le_left hscale.le hone
    · rw [div_mul_eq_mul_div, div_le_iff₀ hpos]
      calc
        (a : Rat) * 2 ^ e ≤ 2 ^ (24 : Int) * 2 ^ e := by gcongr
        _ ≤ 2 ^ (127 : Int) := by
          rw [two_zpow_split]
          exact two_zpow_le (by omega)
        _ ≤ 2 ^ (127 : Int) * b := le_mul_of_one_le_right (by positivity) hbone

/-! ## Sums -/

/-- What stays close to a number of half precision with a leading one is clear, for no midpoint is
so close to that number. -/
theorem clear_near {n d : Nat} {x : Rat} (hn : n < 2 ^ 11) (hlead : 2 ^ 10 ≤ n)
    (h : |x - n * 2 ^ (-24 + d : Int)| ≤ 2 ^ (-24 + d : Int) / 8) : Clear x := by
  intro p hclose
  have hquarter := binary16.quarter_le_abs_sub (d := d) (show n < 2 * 2 ^ 10 by omega) hlead p
  rw [leastExponent_binary16] at hquarter
  have hsize : (n : Rat) < 2 ^ 11 := by exact_mod_cast hn
  have hscale : (0 : Rat) < 2 ^ (-24 + d : Int) := by positivity
  generalize (2 : Rat) ^ (-24 + d : Int) = scale at *
  have hx : x ≤ 2 ^ 12 * scale := by
    have hright := (abs_le.mp h).2
    nlinarith
  have htriangle : |binary16.midpoint p - n * scale| ≤
      |x - binary16.midpoint p| + |x - n * scale| := by
    rw [abs_sub_comm x (binary16.midpoint p)]
    exact abs_sub_le _ _ _
  linarith

/-- Numbers of half precision that are far apart: the sum is close to the greater one. -/
theorem steady_far {i j : Int} {c d : Nat} (hi : i.natAbs < 2 ^ 11) (hj : j.natAbs < 2 ^ 11)
    (hd : d ≤ 29) (hlead : 2 ^ 10 ≤ i.natAbs) (hfar : c + 14 ≤ d) :
    Steady |(i : Rat) * 2 ^ (-24 + d : Int) + j * 2 ^ (-24 + c : Int)| := by
  have habs : ∀ (k : Int) (e : Int), |(k : Rat) * 2 ^ e| = k.natAbs * 2 ^ e := by
    intro k e
    rw [abs_mul, abs_of_pos (by positivity : (0 : Rat) < 2 ^ e), Nat.cast_natAbs, Int.cast_abs]
  have hsmall : |(j : Rat) * 2 ^ (-24 + c : Int)| ≤ 2 ^ (-24 + d : Int) / 8 := by
    have hj' : (j.natAbs : Rat) ≤ 2 ^ (11 : Int) := by exact_mod_cast hj.le
    rw [habs, le_div_iff₀ (by norm_num)]
    calc
      (j.natAbs : Rat) * 2 ^ (-24 + c : Int) * 8 ≤ 2 ^ (11 : Int) * 2 ^ (-24 + c : Int) * 8 := by
        gcongr
      _ = 2 ^ (-24 + c + 14 : Int) := by
        rw [show (8 : Rat) = 2 ^ (3 : Int) by norm_num, two_zpow_split, two_zpow_split]
        congr 1
        ring
      _ ≤ 2 ^ (-24 + d : Int) := two_zpow_le (by omega)
  have hnear : |(|(i : Rat) * 2 ^ (-24 + d : Int) + j * 2 ^ (-24 + c : Int)|) -
      i.natAbs * 2 ^ (-24 + d : Int)| ≤ 2 ^ (-24 + d : Int) / 8 := by
    rw [← habs]
    refine le_trans (abs_abs_sub_abs_le _ _) ?_
    rwa [add_sub_cancel_left]
  obtain ⟨hleft, hright⟩ := abs_le.mp hnear
  have hlow : (2 : Rat) ^ 10 ≤ i.natAbs := by exact_mod_cast hlead
  have hhigh : (i.natAbs : Rat) < 2 ^ 11 := by exact_mod_cast hi
  have hscale : (0 : Rat) < 2 ^ (-24 + d : Int) := by positivity
  refine .inr ⟨?_, ?_, clear_near hi hlead hnear⟩
  · refine le_trans (two_zpow_le (show (-126 : Int) ≤ -24 + d by omega)) ?_
    nlinarith
  · refine le_trans (b := (2 : Rat) ^ 12 * 2 ^ (-24 + d : Int)) (by nlinarith) ?_
    rw [← zpow_natCast, two_zpow_split]
    exact two_zpow_le (by omega)

/-- Numbers of half precision that are not far apart: the sum has few enough digits. -/
theorem steady_close {i j : Int} {c d : Nat} (hi : i.natAbs < 2 ^ 11) (hj : j.natAbs < 2 ^ 11)
    (hd : d ≤ 29) (hle : c ≤ d) (hclose : d ≤ c + 13) :
    Steady |(i : Rat) * 2 ^ (-24 + d : Int) + j * 2 ^ (-24 + c : Int)| := by
  obtain ⟨r, rfl⟩ := Nat.exists_eq_add_of_le hle
  have hdigits : (i * 2 ^ r + j).natAbs < 2 ^ 24 := by
    have hpow : 2 ^ r ≤ 2 ^ 13 := Nat.pow_le_pow_right (by decide) (by omega)
    calc
      (i * 2 ^ r + j).natAbs ≤ (i * 2 ^ r).natAbs + j.natAbs := Int.natAbs_add_le _ _
      _ = i.natAbs * 2 ^ r + j.natAbs := by rw [Int.natAbs_mul, Int.natAbs_pow]; rfl
      _ ≤ (2 ^ 11 - 1) * 2 ^ 13 + j.natAbs :=
        Nat.add_le_add_right (Nat.mul_le_mul (by omega) hpow) _
      _ < 2 ^ 24 := by omega
  have hsum : |(i : Rat) * 2 ^ (-24 + (c + r : Nat) : Int) + j * 2 ^ (-24 + c : Int)| =
      ((i * 2 ^ r + j).natAbs : Nat) / (1 : Nat) * 2 ^ (-24 + c : Int) := by
    rw [Nat.cast_one, div_one, Nat.cast_natAbs, Int.cast_abs,
      ← abs_of_pos (by positivity : (0 : Rat) < 2 ^ (-24 + c : Int)), ← abs_mul,
      abs_of_pos (by positivity : (0 : Rat) < 2 ^ (-24 + c : Int)),
      show (-24 + (c + r : Nat) : Int) = r + (-24 + c) by push_cast; ring, ← two_zpow_split,
      zpow_natCast]
    congr 1
    push_cast
    ring
  rw [hsum]
  exact steady_ratio hdigits (by decide) (by decide) (by omega) (by omega)

theorem HalfSize.exists_signed {x : Rat} (h : HalfSize x) (negative : Bool) :
    ∃ (i : Int) (d : Nat), i.natAbs < 2 ^ 11 ∧ d ≤ 29 ∧ (d = 0 ∨ 2 ^ 10 ≤ i.natAbs) ∧
      Datum.signed negative x = i * 2 ^ (-24 + d : Int) := by
  obtain ⟨n, d, hn, hd, hlead, rfl⟩ := h
  cases negative with
  | false => exact ⟨n, d, hn, hd, hlead, by simp [Datum.signed]⟩
  | true => exact ⟨-n, d, by simpa using hn, hd, by simpa using hlead, by simp [Datum.signed]⟩

theorem HalfSize.steady_sum {x y : Rat} (hx : HalfSize x) (hy : HalfSize y) (s t : Bool) :
    Steady |Datum.signed s x + Datum.signed t y| := by
  obtain ⟨i, d, hi, hd, hilead, hix⟩ := hx.exists_signed s
  obtain ⟨j, c, hj, hc, hjlead, hjy⟩ := hy.exists_signed t
  have hordered : ∀ {i j : Int} {c d : Nat}, i.natAbs < 2 ^ 11 → j.natAbs < 2 ^ 11 → d ≤ 29 →
      (d = 0 ∨ 2 ^ 10 ≤ i.natAbs) → c ≤ d →
      Steady |(i : Rat) * 2 ^ (-24 + d : Int) + j * 2 ^ (-24 + c : Int)| := by
    intro i j c d hi hj hd hlead hle
    rcases Nat.lt_or_ge (c + 13) d with hfar | hclose
    · exact steady_far hi hj hd (hlead.resolve_left (by omega)) (by omega)
    · exact steady_close hi hj hd hle hclose
  rw [hix, hjy]
  rcases Nat.le_total c d with hle | hle
  · exact hordered hi hj hd hilead hle
  · rw [add_comm]
    exact hordered hj hi hc hjlead hle

theorem HalfSize.steady_mul {x y : Rat} (hx : HalfSize x) (hy : HalfSize y) : Steady (x * y) := by
  obtain ⟨n, d, hn, hd, -, rfl⟩ := hx
  obtain ⟨m, c, hm, hc, -, rfl⟩ := hy
  have hdigits : n * m < 2 ^ 24 := by
    calc
      n * m < 2 ^ 11 * 2 ^ 11 := Nat.mul_lt_mul'' hn hm
      _ ≤ 2 ^ 24 := by norm_num
  have hproduct : (n : Rat) * 2 ^ (-24 + d : Int) * (m * 2 ^ (-24 + c : Int)) =
      (n * m : Nat) / (1 : Nat) * 2 ^ (-48 + d + c : Int) := by
    rw [mul_mul_mul_comm, two_zpow_split, Nat.cast_one, div_one, Nat.cast_mul]
    congr 2
    ring
  rw [hproduct]
  exact steady_ratio hdigits (by decide) (by decide) (by omega) (by omega)

theorem HalfSize.steady_div {x y : Rat} (hx : HalfSize x) (hy : HalfSize y) (hy0 : y ≠ 0) :
    Steady (x / y) := by
  obtain ⟨n, d, hn, hd, -, rfl⟩ := hx
  obtain ⟨m, c, hm, hc, -, rfl⟩ := hy
  have hm0 : 0 < m := by
    rcases Nat.eq_zero_or_pos m with rfl | hpos
    · simp at hy0
    · exact hpos
  have hquotient : (n : Rat) * 2 ^ (-24 + d : Int) / (m * 2 ^ (-24 + c : Int)) =
      n / m * 2 ^ (d - c : Int) := by
    rw [mul_div_mul_comm, ← zpow_sub₀ (by norm_num)]
    congr 2
    ring
  rw [hquotient]
  exact steady_ratio (by omega) hm0 hm (by omega) (by omega)

end VerdictMachine

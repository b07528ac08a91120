import Mathlib.Algebra.Order.Field.Power
import Mathlib.Algebra.Order.Ring.Abs
import Mathlib.Data.Rat.Floor
import Mathlib.Tactic.FieldSimp
import Mathlib.Tactic.Linarith
import Mathlib.Tactic.Positivity
import VerdictMachine.Floating.Rounding

/-!
# Rounding gives the nearest pattern

The patterns of a format are taken here without an upper end of the exponent.
Their magnitudes grow with the pattern, and between two neighbours lies a
midpoint. The pattern that a magnitude is rounded to is the one whose midpoints
enclose it, an even one if it is a midpoint itself. So it is the nearest pattern,
and it depends on nothing but how the magnitude compares with the midpoints.
-/

set_option autoImplicit false

namespace VerdictMachine

namespace Rounding

variable {x : Rat}

theorem pow_log2_le {n : Nat} (h : n ≠ 0) : (2 : Rat) ^ (n.log2 : Int) ≤ n := by
  rw [zpow_natCast]
  exact_mod_cast Nat.log2_self_le h

theorem lt_pow_log2 (n : Nat) : (n : Rat) < 2 ^ ((n.log2 : Int) + 1) := by
  rw [← Nat.cast_succ, zpow_natCast]
  exact_mod_cast Nat.lt_log2_self

theorem two_zpow_split (a b : Int) : (2 : Rat) ^ a * 2 ^ b = 2 ^ (a + b) :=
  (zpow_add₀ (by norm_num) a b).symm

theorem two_zpow_le {a b : Int} (h : a ≤ b) : (2 : Rat) ^ a ≤ 2 ^ b :=
  zpow_le_zpow_right₀ (by norm_num) h

theorem binade_bounds (hx : 0 < x) : 2 ^ binade x ≤ x ∧ x < 2 ^ (binade x + 1) := by
  have hnum : (0 : Int) < x.num := Rat.num_pos.mpr hx
  have hden : (0 : Rat) < x.den := by exact_mod_cast x.den_pos
  have hquot : x * x.den = x.num.natAbs := by
    rw [Rat.mul_den_eq_num, ← Int.cast_natCast, Int.natAbs_of_nonneg hnum.le]
  have hlow := pow_log2_le (Int.natAbs_ne_zero.mpr hnum.ne')
  have hhigh := lt_pow_log2 x.num.natAbs
  have hdlow := pow_log2_le x.den_pos.ne'
  have hdhigh := lt_pow_log2 x.den
  unfold binade
  generalize (x.num.natAbs.log2 : Int) = a at *
  generalize (x.den.log2 : Int) = b at *
  have hbelow : 2 ^ (a - b - 1) < x := by
    apply lt_of_mul_lt_mul_right _ hden.le
    calc
      (2 : Rat) ^ (a - b - 1) * x.den < 2 ^ (a - b - 1) * 2 ^ (b + 1) := by gcongr
      _ = 2 ^ a := by rw [two_zpow_split, show a - b - 1 + (b + 1) = a by omega]
      _ ≤ x * x.den := hquot ▸ hlow
  have habove : x < 2 ^ (a - b + 1) := by
    apply lt_of_mul_lt_mul_right _ hden.le
    calc
      x * x.den < 2 ^ (a + 1) := hquot ▸ hhigh
      _ = 2 ^ (a - b + 1) * 2 ^ b := by rw [two_zpow_split, show a - b + 1 + b = a + 1 by omega]
      _ ≤ 2 ^ (a - b + 1) * x.den := by gcongr
  dsimp only
  split_ifs with hle
  · exact ⟨hle, habove⟩
  · rw [sub_add_cancel]
    exact ⟨hbelow.le, lt_of_not_ge hle⟩

theorem nearestEven_bounds (x : Rat) :
    (nearestEven x - 1 / 2 ≤ x ∧ x ≤ nearestEven x + 1 / 2) ∧
      (x = nearestEven x - 1 / 2 ∨ x = nearestEven x + 1 / 2 → nearestEven x % 2 = 0) := by
  have hle : (x.floor : Rat) ≤ x := Rat.floor_le x
  have hlt : x < x.floor + 1 := by exact_mod_cast Rat.lt_floor_add_one x
  unfold nearestEven
  dsimp only
  generalize x.floor = n at *
  split_ifs with hless hmore heven
  · refine ⟨⟨by linarith, by linarith⟩, ?_⟩
    rintro (h | h) <;> linarith
  · push_cast
    refine ⟨⟨by linarith, by linarith⟩, ?_⟩
    rintro (h | h) <;> linarith
  · exact ⟨⟨by linarith, by linarith⟩, fun _ => heven⟩
  · push_cast
    exact ⟨⟨by linarith, by linarith⟩, fun _ => by omega⟩

end Rounding

open Rounding

namespace Format

variable (f : Format) {x y : Rat} {p q : Nat}

/-! ## The magnitudes of the patterns -/

/-- The magnitude of a pattern, as if the exponent had no upper end. -/
def magnitude (p : Nat) : Rat :=
  if p / 2 ^ f.fractionBits = 0 then (p % 2 ^ f.fractionBits : Nat) * 2 ^ f.leastExponent
  else
    (2 ^ f.fractionBits + p % 2 ^ f.fractionBits : Nat) *
      2 ^ (f.leastExponent + (p / 2 ^ f.fractionBits : Nat) - 1)

/-- A pattern that is `d` binades up and `n` steps on the grid there, where it need not be in the
first binade that has this grid. -/
theorem magnitude_grid {d n : Nat} (hn : n ≤ 2 * 2 ^ f.fractionBits)
    (hd : d = 0 ∨ 2 ^ f.fractionBits ≤ n) :
    f.magnitude (d * 2 ^ f.fractionBits + n) = n * 2 ^ (f.leastExponent + d) := by
  have hpos := Nat.two_pow_pos f.fractionBits
  unfold magnitude
  generalize 2 ^ f.fractionBits = unit at *
  rcases Nat.lt_or_ge n unit with hlow | hlow
  · -- Only the lowest binade has patterns without a leading one.
    obtain rfl : d = 0 := by omega
    simp [Nat.div_eq_of_lt hlow, Nat.mod_eq_of_lt hlow]
  · rcases Nat.lt_or_ge n (2 * unit) with hhigh | hhigh
    · obtain ⟨m, rfl⟩ := Nat.exists_eq_add_of_le hlow
      have hdiv : (d * unit + (unit + m)) / unit = d + 1 := by
        rw [show d * unit + (unit + m) = m + unit * (d + 1) by ring,
          Nat.add_mul_div_left _ _ hpos, Nat.div_eq_of_lt (by omega), Nat.zero_add]
      have hmod : (d * unit + (unit + m)) % unit = m := by
        rw [show d * unit + (unit + m) = m + unit * (d + 1) by ring,
          Nat.add_mul_mod_self_left, Nat.mod_eq_of_lt (by omega)]
      rw [hdiv, hmod, if_neg (Nat.succ_ne_zero d)]
      congr 2
      push_cast
      ring
    · -- The end of a binade is the beginning of the next one.
      obtain rfl : n = 2 * unit := by omega
      have hdiv : (d * unit + 2 * unit) / unit = d + 2 := by
        rw [← Nat.add_mul, Nat.mul_div_cancel _ hpos]
      have hmod : (d * unit + 2 * unit) % unit = 0 := by
        rw [← Nat.add_mul, Nat.mul_mod_left]
      have hexp : f.leastExponent + (d + 2 : Nat) - 1 = f.leastExponent + d + 1 := by
        push_cast
        ring
      rw [hdiv, hmod, if_neg (Nat.succ_ne_zero _), hexp, ← two_zpow_split]
      push_cast
      ring

theorem exists_grid (p : Nat) : ∃ d n, p = d * 2 ^ f.fractionBits + n ∧
    n < 2 * 2 ^ f.fractionBits ∧ (d = 0 ∨ 2 ^ f.fractionBits ≤ n) := by
  have hpos := Nat.two_pow_pos f.fractionBits
  generalize 2 ^ f.fractionBits = unit at *
  have hsplit := Nat.div_add_mod' p unit
  have hmod := Nat.mod_lt p hpos
  rcases Nat.eq_zero_or_pos (p / unit) with h | h
  · rw [h] at hsplit
    exact ⟨0, p, by omega, by omega, .inl rfl⟩
  · obtain ⟨d, hd⟩ := Nat.exists_eq_succ_of_ne_zero h.ne'
    rw [hd, Nat.succ_mul] at hsplit
    exact ⟨d, unit + p % unit, by omega, by omega, .inr (by omega)⟩

theorem magnitude_succ (p : Nat) : ∃ d n : Nat, n < 2 * 2 ^ f.fractionBits ∧
    (d = 0 ∨ 2 ^ f.fractionBits ≤ n) ∧ f.magnitude p = n * 2 ^ (f.leastExponent + d) ∧
    f.magnitude (p + 1) = (n + 1) * 2 ^ (f.leastExponent + d) := by
  obtain ⟨d, n, rfl, hn, hd⟩ := f.exists_grid p
  refine ⟨d, n, hn, hd, f.magnitude_grid hn.le hd, ?_⟩
  rw [Nat.add_assoc, f.magnitude_grid (by omega) (by omega)]
  push_cast
  ring

theorem strictMono_magnitude : StrictMono f.magnitude := by
  apply strictMono_nat_of_lt_succ
  intro p
  obtain ⟨d, n, -, -, hp, hnext⟩ := f.magnitude_succ p
  rw [hp, hnext]
  gcongr
  linarith

theorem exists_magnitude {n : Nat} (hn : n ≤ 2 * 2 ^ f.fractionBits) (d : Nat) :
    ∃ q, f.magnitude q = n * 2 ^ (f.leastExponent + d) := by
  induction d generalizing n with
  | zero => exact ⟨_, f.magnitude_grid hn (.inl rfl)⟩
  | succ d ih =>
    rcases Nat.le_total (2 ^ f.fractionBits) n with h | h
    · exact ⟨_, f.magnitude_grid hn (.inr h)⟩
    · obtain ⟨q, hq⟩ := ih (n := 2 * n) (by omega)
      refine ⟨q, hq.trans ?_⟩
      rw [Nat.cast_succ, ← add_assoc, ← two_zpow_split _ 1, zpow_one]
      push_cast
      ring

/-! ## Midpoints -/

/-- Half way from a pattern to the next one. -/
def midpoint (p : Nat) : Rat := (f.magnitude p + f.magnitude (p + 1)) / 2

theorem magnitude_lt_midpoint (p : Nat) : f.magnitude p < f.midpoint p := by
  have hlt := f.strictMono_magnitude (Nat.lt_succ_self p)
  unfold midpoint
  linarith

theorem midpoint_lt_magnitude (p : Nat) : f.midpoint p < f.magnitude (p + 1) := by
  have hlt := f.strictMono_magnitude (Nat.lt_succ_self p)
  unfold midpoint
  linarith

theorem strictMono_midpoint : StrictMono f.midpoint := by
  apply strictMono_nat_of_lt_succ
  intro p
  exact (f.midpoint_lt_magnitude p).trans (f.magnitude_lt_midpoint (p + 1))

theorem midpoint_grid {d n : Nat} (hn : n < 2 * 2 ^ f.fractionBits)
    (hd : d = 0 ∨ 2 ^ f.fractionBits ≤ n) :
    f.midpoint (d * 2 ^ f.fractionBits + n) = (n + 1 / 2) * 2 ^ (f.leastExponent + d) := by
  rw [midpoint, Nat.add_assoc, f.magnitude_grid hn.le hd,
    f.magnitude_grid (Nat.succ_le_of_lt hn) (hd.imp_right Nat.le_succ_of_le)]
  push_cast
  ring

/-- The midpoint before a pattern with a leading one. Where a binade begins, the steps before it are
half as long. -/
theorem midpoint_before_le {d n r : Nat} (hn : n < 2 * 2 ^ f.fractionBits)
    (hlead : 2 ^ f.fractionBits ≤ n) (hr : d * 2 ^ f.fractionBits + n = r + 1) :
    f.midpoint r ≤ (n - 1 / 4) * 2 ^ (f.leastExponent + d) := by
  have hpos := Nat.two_pow_pos f.fractionBits
  have hscale : (0 : Rat) < 2 ^ (f.leastExponent + d) := by positivity
  by_cases hstep : d = 0 ∨ 2 ^ f.fractionBits < n
  · obtain ⟨m, rfl⟩ := Nat.exists_eq_succ_of_ne_zero (show n ≠ 0 by omega)
    obtain rfl : r = d * 2 ^ f.fractionBits + m := by omega
    rw [f.midpoint_grid (by omega) (hstep.imp_right Nat.le_of_lt_succ)]
    push_cast
    nlinarith
  · obtain ⟨c, rfl⟩ := Nat.exists_eq_succ_of_ne_zero (show d ≠ 0 by omega)
    obtain rfl : n = 2 ^ f.fractionBits := by omega
    obtain rfl : r = c * 2 ^ f.fractionBits + (2 * 2 ^ f.fractionBits - 1) := by
      rw [Nat.succ_mul] at hr
      omega
    rw [f.midpoint_grid (by omega) (.inr (by omega)), Nat.cast_succ, ← add_assoc,
      ← two_zpow_split _ 1, zpow_one, Nat.cast_sub (by omega)]
    push_cast
    apply le_of_eq
    ring

theorem quarter_le_abs_sub {d n : Nat} (hn : n < 2 * 2 ^ f.fractionBits)
    (hlead : 2 ^ f.fractionBits ≤ n) (p : Nat) :
    2 ^ (f.leastExponent + d) / 4 ≤ |f.midpoint p - n * 2 ^ (f.leastExponent + d)| := by
  have hmono := f.strictMono_midpoint.monotone
  have hscale : (0 : Rat) < 2 ^ (f.leastExponent + d) := by positivity
  rcases Nat.lt_or_ge p (d * 2 ^ f.fractionBits + n) with hlt | hge
  · obtain ⟨r, hr⟩ := Nat.exists_eq_succ_of_ne_zero (Nat.ne_zero_of_lt hlt)
    have hbefore := f.midpoint_before_le hn hlead hr
    have hle := hmono (show p ≤ r by omega)
    apply le_abs.mpr
    right
    linarith
  · have hle := hmono hge
    rw [f.midpoint_grid hn (.inr hlead)] at hle
    apply le_abs.mpr
    left
    linarith

theorem magnitude_ne_midpoint (p q : Nat) : f.magnitude q ≠ f.midpoint p := by
  intro h
  have hlow := f.magnitude_lt_midpoint p
  have hhigh := f.midpoint_lt_magnitude p
  rw [← h, f.strictMono_magnitude.lt_iff_lt] at hlow hhigh
  omega

/-- The midpoints of a pattern enclose a magnitude, which is none of them unless the pattern is
even. -/
structure Encloses (p : Nat) (x : Rat) : Prop where
  above : ∀ q < p, f.midpoint q ≤ x
  below : x ≤ f.midpoint p
  even : ∀ q, x = f.midpoint q → p % 2 = 0

variable {f}

theorem encloses_of_neighbours
    (habove : ∀ r, p = r + 1 → f.midpoint r ≤ x ∧ (x = f.midpoint r → p % 2 = 0))
    (hbelow : x ≤ f.midpoint p ∧ (x = f.midpoint p → p % 2 = 0)) : f.Encloses p x := by
  have hmono := f.strictMono_midpoint
  refine ⟨?_, hbelow.1, ?_⟩
  · intro q hq
    obtain ⟨r, rfl⟩ := Nat.exists_eq_succ_of_ne_zero (Nat.ne_zero_of_lt hq)
    exact (hmono.monotone (Nat.le_of_lt_succ hq)).trans (habove r rfl).1
  · intro q hq
    rcases Nat.lt_or_ge q p with hlt | hge
    · obtain ⟨r, rfl⟩ := Nat.exists_eq_succ_of_ne_zero (Nat.ne_zero_of_lt hlt)
      have hle := (habove r rfl).1
      rw [hq, hmono.le_iff_le] at hle
      obtain rfl : q = r := by omega
      exact (habove q rfl).2 hq
    · have hle := hbelow.1
      rw [hq, hmono.le_iff_le] at hle
      obtain rfl : q = p := by omega
      exact hbelow.2 hq

theorem encloses_magnitude (q : Nat) : f.Encloses q (f.magnitude q) := by
  have hmono := f.strictMono_magnitude.monotone
  refine ⟨?_, (f.magnitude_lt_midpoint q).le, fun p h => absurd h (f.magnitude_ne_midpoint p q)⟩
  intro p hp
  exact (f.midpoint_lt_magnitude p).le.trans (hmono hp)

namespace Encloses

/-- A magnitude is enclosed by one pattern only: neighbours are not both even. -/
theorem unique (hp : f.Encloses p x) (hq : f.Encloses q x) : p = q := by
  have hmono := f.strictMono_midpoint
  have hcase : ∀ {p q}, f.Encloses p x → f.Encloses q x → ¬ p < q := by
    intro p q hp hq hlt
    obtain ⟨r, rfl⟩ := Nat.exists_eq_succ_of_ne_zero (Nat.ne_zero_of_lt hlt)
    have hle := (hq.above r (Nat.lt_succ_self r)).trans hp.below
    rw [hmono.le_iff_le] at hle
    obtain rfl : p = r := by omega
    have heq : x = f.midpoint p := le_antisymm hp.below (hq.above p (Nat.lt_succ_self p))
    have heven := hp.even p heq
    have hodd := hq.even p heq
    omega
  exact Nat.le_antisymm (Nat.le_of_not_lt (hcase hq hp)) (Nat.le_of_not_lt (hcase hp hq))

theorem congr (h : f.Encloses p x) (hle : ∀ q, f.midpoint q ≤ x → f.midpoint q ≤ y)
    (hge : ∀ q, x ≤ f.midpoint q → y ≤ f.midpoint q)
    (heq : ∀ q, y = f.midpoint q → x = f.midpoint q) : f.Encloses p y :=
  ⟨fun q hq => hle q (h.above q hq), hge p h.below, fun q hq => h.even q (heq q hq)⟩

theorem le_of_le (h : f.Encloses p x) (hx : x ≤ f.magnitude q) : p ≤ q := by
  by_contra hlt
  have hmid := h.above q (Nat.lt_of_not_le hlt)
  have := f.magnitude_lt_midpoint q
  linarith

theorem ge_of_ge (h : f.Encloses p x) (hx : f.magnitude q ≤ x) : q ≤ p := by
  by_contra hlt
  have hmid := f.midpoint_lt_magnitude p
  have := f.strictMono_magnitude.monotone (Nat.lt_of_not_le hlt)
  have := h.below
  linarith

theorem magnitude_le_of_le (h : f.Encloses p x) (hx : x ≤ f.magnitude q) :
    f.magnitude p ≤ f.magnitude q :=
  f.strictMono_magnitude.monotone (h.le_of_le hx)

theorem magnitude_ge_of_ge (h : f.Encloses p x) (hx : f.magnitude q ≤ x) :
    f.magnitude q ≤ f.magnitude p :=
  f.strictMono_magnitude.monotone (h.ge_of_ge hx)

end Encloses

/-! ## The nearest pattern -/

variable (f)

/-- No pattern is nearer to a magnitude, and if another one is as near then this one is even. -/
structure Nearest (x : Rat) (p : Nat) : Prop where
  le : ∀ q, |x - f.magnitude p| ≤ |x - f.magnitude q|
  even : ∀ q, q ≠ p → |x - f.magnitude q| = |x - f.magnitude p| → p % 2 = 0

variable {f}

theorem Encloses.nearer_above (h : f.Encloses p x) (hq : q < p) :
    |x - f.magnitude p| ≤ |x - f.magnitude q| ∧
      (|x - f.magnitude q| = |x - f.magnitude p| → p % 2 = 0) := by
  obtain ⟨r, rfl⟩ := Nat.exists_eq_succ_of_ne_zero (Nat.ne_zero_of_lt hq)
  have hmid := h.above r (Nat.lt_succ_self r)
  have hr := f.strictMono_magnitude (Nat.lt_succ_self r)
  have hqr := f.strictMono_magnitude.monotone (Nat.le_of_lt_succ hq)
  unfold midpoint at hmid
  rw [Nat.succ_eq_add_one] at *
  rw [abs_of_nonneg (by linarith : 0 ≤ x - f.magnitude q)]
  refine ⟨abs_le.mpr ⟨by linarith, by linarith⟩, ?_⟩
  intro heq
  apply h.even r
  rcases abs_cases (x - f.magnitude (r + 1)) with ⟨habs, -⟩ | ⟨habs, -⟩
  · linarith
  · unfold midpoint
    linarith

theorem Encloses.nearer_below (h : f.Encloses p x) (hq : p < q) :
    |x - f.magnitude p| ≤ |x - f.magnitude q| ∧
      (|x - f.magnitude q| = |x - f.magnitude p| → p % 2 = 0) := by
  have hmid := h.below
  have hp := f.strictMono_magnitude (Nat.lt_succ_self p)
  have hpq := f.strictMono_magnitude.monotone (Nat.succ_le_of_lt hq)
  unfold midpoint at hmid
  rw [Nat.succ_eq_add_one] at *
  rw [abs_of_nonpos (by linarith : x - f.magnitude q ≤ 0)]
  refine ⟨abs_le.mpr ⟨by linarith, by linarith⟩, ?_⟩
  intro heq
  apply h.even p
  rcases abs_cases (x - f.magnitude p) with ⟨habs, -⟩ | ⟨habs, -⟩
  · unfold midpoint
    linarith
  · linarith

theorem Encloses.nearest (h : f.Encloses p x) : f.Nearest x p := by
  constructor
  · intro q
    rcases lt_trichotomy q p with hq | rfl | hq
    · exact (h.nearer_above hq).1
    · exact le_rfl
    · exact (h.nearer_below hq).1
  · intro q hne heq
    rcases Nat.lt_or_gt_of_ne hne with hq | hq
    · exact (h.nearer_above hq).2 heq
    · exact (h.nearer_below hq).2 heq

/-! ## Rounding -/

/-- A magnitude lies within half a step of the `n`-th step on the grid that is `d` binades up, and
that grid is its own. -/
structure OnGrid (f : Format) (x : Rat) (d n : Nat) : Prop where
  le : n ≤ 2 * 2 ^ f.fractionBits
  leading : d = 0 ∨ 2 ^ f.fractionBits ≤ n
  low : (n - 1 / 2) * 2 ^ (f.leastExponent + d) ≤ x
  high : x ≤ (n + 1 / 2) * 2 ^ (f.leastExponent + d)
  even : x = (n - 1 / 2) * 2 ^ (f.leastExponent + d) ∨ x = (n + 1 / 2) * 2 ^ (f.leastExponent + d) →
    n % 2 = 0
  below : x < 2 * 2 ^ f.fractionBits * 2 ^ (f.leastExponent + d)
  above : d = 0 ∨ 2 ^ f.fractionBits * 2 ^ (f.leastExponent + d) ≤ x

theorem OnGrid.encloses {d n : Nat} (h : f.OnGrid x d n) (hf : 0 < f.fractionBits) :
    f.Encloses (d * 2 ^ f.fractionBits + n) x := by
  have hparity : (d * 2 ^ f.fractionBits + n) % 2 = n % 2 := by
    obtain ⟨k, hk⟩ := Nat.exists_eq_succ_of_ne_zero hf.ne'
    rw [hk, Nat.pow_succ, ← Nat.mul_assoc]
    omega
  have hvalue := f.magnitude_grid h.le h.leading
  apply encloses_of_neighbours
  · intro r hr
    by_cases hstep : 0 < n ∧ (d = 0 ∨ 2 ^ f.fractionBits ≤ n - 1)
    · obtain ⟨k, rfl⟩ := Nat.exists_eq_succ_of_ne_zero hstep.1.ne'
      obtain rfl : r = d * 2 ^ f.fractionBits + k := by omega
      have hmid : f.midpoint (d * 2 ^ f.fractionBits + k) =
          ((k.succ : Nat) - 1 / 2) * 2 ^ (f.leastExponent + d) := by
        rw [f.midpoint_grid (Nat.lt_of_succ_le h.le) hstep.2]
        push_cast
        ring
      rw [hmid, hparity]
      exact ⟨h.low, fun heq => h.even (.inl heq)⟩
    · -- The grid below is finer, but a magnitude with this grid is not below the pattern.
      have hleading := h.leading
      have hn : n ≠ 0 := by
        rintro rfl
        obtain rfl : d = 0 := hleading.resolve_right (Nat.not_le_of_lt (Nat.two_pow_pos _))
        rw [Nat.zero_mul] at hr
        cases hr
      obtain ⟨hd, rfl⟩ : d ≠ 0 ∧ n = 2 ^ f.fractionBits := by omega
      have habove := h.above.resolve_left hd
      have hmid := f.midpoint_lt_magnitude r
      rw [← hr, hvalue, Nat.cast_pow, Nat.cast_ofNat] at hmid
      exact ⟨by linarith, fun heq => by linarith⟩
  · rcases Nat.lt_or_ge n (2 * 2 ^ f.fractionBits) with hlt | hge
    · rw [f.midpoint_grid hlt h.leading, hparity]
      exact ⟨h.high, fun heq => h.even (.inr heq)⟩
    · obtain rfl : n = 2 * 2 ^ f.fractionBits := Nat.le_antisymm h.le hge
      have hbelow := h.below
      have hmid := f.magnitude_lt_midpoint (d * 2 ^ f.fractionBits + 2 * 2 ^ f.fractionBits)
      rw [hvalue] at hmid
      push_cast at hmid
      exact ⟨by linarith, fun heq => by linarith⟩

theorem gridExponent_bounds (f : Format) (hx : 0 < x) :
    ∃ d : Nat, f.gridExponent x = f.leastExponent + d ∧
      x < 2 * 2 ^ f.fractionBits * 2 ^ (f.leastExponent + d) ∧
      (d = 0 ∨ 2 ^ f.fractionBits * 2 ^ (f.leastExponent + d) ≤ x) := by
  obtain ⟨hlow, hhigh⟩ := binade_bounds hx
  have hpow : ∀ e : Int, (2 : Rat) ^ f.fractionBits * 2 ^ e = 2 ^ (f.fractionBits + e) := by
    intro e
    rw [← zpow_natCast, two_zpow_split]
  have hdouble : ∀ e : Int,
      (2 : Rat) * 2 ^ f.fractionBits * 2 ^ e = 2 ^ (f.fractionBits + e + 1) := by
    intro e
    rw [mul_assoc, hpow, mul_comm, ← two_zpow_split _ 1, zpow_one]
  unfold gridExponent
  rcases le_total (binade x - f.fractionBits) f.leastExponent with h | h
  · refine ⟨0, by rw [max_eq_left h, Nat.cast_zero, add_zero], ?_, .inl rfl⟩
    rw [hdouble]
    exact hhigh.trans_le (two_zpow_le (by push_cast; omega))
  · obtain ⟨d, hd⟩ := Int.eq_ofNat_of_zero_le (Int.sub_nonneg_of_le h)
    have hgrid : binade x - f.fractionBits = f.leastExponent + d := by omega
    refine ⟨d, by rw [max_eq_right h, hgrid], ?_, .inr ?_⟩
    · rw [hdouble, ← hgrid]
      exact hhigh.trans_le (two_zpow_le (by omega))
    · rw [hpow, ← hgrid]
      exact (two_zpow_le (by omega)).trans hlow

/-- Rounding finds the grid of a magnitude and the nearest step on it. -/
theorem exists_onGrid (f : Format) (hx : 0 < x) :
    ∃ d n, f.OnGrid x d n ∧
      f.encodeMagnitude x = min (d * 2 ^ f.fractionBits + n) f.infinityBits := by
  obtain ⟨d, hgrid, hbelow, habove⟩ := f.gridExponent_bounds hx
  have hscale : (0 : Rat) < 2 ^ (f.leastExponent + d) := by positivity
  have hcode : f.encodeMagnitude x = min (d * 2 ^ f.fractionBits +
      (nearestEven (x / 2 ^ (f.leastExponent + d))).toNat) f.infinityBits := by
    rw [encodeMagnitude, if_neg hx.ne', hgrid]
    dsimp only
    rw [add_sub_cancel_left, Int.toNat_natCast, Nat.shiftLeft_eq]
  obtain ⟨⟨hlow, hhigh⟩, heven⟩ := nearestEven_bounds (x / 2 ^ (f.leastExponent + d))
  have hnonneg : 0 ≤ nearestEven (x / 2 ^ (f.leastExponent + d)) := by
    have hpos : 0 < x / 2 ^ (f.leastExponent + d) := by positivity
    have hlt : (-1 : Rat) < nearestEven (x / 2 ^ (f.leastExponent + d)) := by linarith
    exact Int.le_of_sub_one_lt (by exact_mod_cast hlt)
  obtain ⟨n, hn⟩ := Int.eq_ofNat_of_zero_le hnonneg
  rw [hn, Int.toNat_natCast] at hcode
  rw [hn, Int.cast_natCast] at hlow hhigh heven
  rw [← div_lt_iff₀ hscale] at hbelow
  rw [← le_div_iff₀ hscale] at habove
  refine ⟨d, n, ⟨?_, ?_, ?_, ?_, ?_, ?_, ?_⟩, hcode⟩
  · have hlt : (n : Rat) < (2 * 2 ^ f.fractionBits + 1 : Nat) := by
      push_cast
      linarith
    exact Nat.le_of_lt_succ (by exact_mod_cast hlt)
  · refine habove.imp_right fun hle => ?_
    have hlt : ((2 ^ f.fractionBits : Nat) : Rat) < (n + 1 : Nat) := by
      push_cast
      linarith
    exact Nat.le_of_lt_succ (by exact_mod_cast hlt)
  · rwa [← le_div_iff₀ hscale]
  · rwa [← div_le_iff₀ hscale]
  · rw [← div_eq_iff hscale.ne', ← div_eq_iff hscale.ne']
    intro htie
    have := heven htie
    omega
  · rwa [← div_lt_iff₀ hscale]
  · rwa [← le_div_iff₀ hscale]

theorem magnitude_zero (f : Format) : f.magnitude 0 = 0 := by
  simp [magnitude]

/-- Every magnitude is enclosed by one pattern, and rounding gives this pattern, or infinity if
the format ends below it. -/
theorem exists_encloses (hf : 0 < f.fractionBits) (hx : 0 ≤ x) :
    ∃ p, f.Encloses p x ∧ f.encodeMagnitude x = min p f.infinityBits := by
  rcases hx.eq_or_lt with rfl | hpos
  · refine ⟨0, f.magnitude_zero ▸ encloses_magnitude 0, ?_⟩
    rw [encodeMagnitude, if_pos rfl, Nat.zero_min]
  · obtain ⟨d, n, hgrid, hcode⟩ := f.exists_onGrid hpos
    exact ⟨_, hgrid.encloses hf, hcode⟩

theorem Encloses.encodeMagnitude_eq (h : f.Encloses p x) (hf : 0 < f.fractionBits) (hx : 0 ≤ x) :
    f.encodeMagnitude x = min p f.infinityBits := by
  obtain ⟨q, hq, hcode⟩ := exists_encloses hf hx
  rw [hcode, hq.unique h]

/-- Above the lowest binade the error is a small part of the magnitude. -/
theorem Encloses.error_le (h : f.Encloses p x) (hf : 0 < f.fractionBits)
    (hx : 2 ^ f.fractionBits * 2 ^ f.leastExponent ≤ x) :
    2 * 2 ^ f.fractionBits * |x - f.magnitude p| ≤ x := by
  have hpos : 0 < x := lt_of_lt_of_le (by positivity) hx
  obtain ⟨d, n, hgrid, -⟩ := f.exists_onGrid hpos
  obtain rfl := h.unique (hgrid.encloses hf)
  have habove : 2 ^ f.fractionBits * 2 ^ (f.leastExponent + d) ≤ x := by
    rcases hgrid.above with rfl | hle
    · simpa using hx
    · exact hle
  have hlow := hgrid.low
  have hhigh := hgrid.high
  rw [f.magnitude_grid hgrid.le hgrid.leading]
  have herror : |x - n * 2 ^ (f.leastExponent + d)| ≤ 2 ^ (f.leastExponent + d) / 2 :=
    abs_le.mpr ⟨by linarith, by linarith⟩
  calc
    2 * 2 ^ f.fractionBits * |x - n * 2 ^ (f.leastExponent + d)| ≤
        2 * 2 ^ f.fractionBits * (2 ^ (f.leastExponent + d) / 2) := by gcongr
    _ = 2 ^ f.fractionBits * 2 ^ (f.leastExponent + d) := by ring
    _ ≤ x := habove

/-! ## Reading patterns -/

theorem width_sub_one (f : Format) : f.width - 1 = f.exponentBits + f.fractionBits := by
  unfold width
  omega

theorem infinityBits_eq (f : Format) :
    f.infinityBits = (2 ^ f.exponentBits - 1) * 2 ^ f.fractionBits := by
  rw [infinityBits, Nat.one_shiftLeft, Nat.shiftLeft_eq]

theorem infinityBits_lt (f : Format) :
    f.infinityBits < 2 ^ (f.exponentBits + f.fractionBits) := by
  rw [infinityBits_eq, Nat.pow_add]
  exact Nat.mul_lt_mul_of_pos_right (Nat.sub_lt (Nat.two_pow_pos _) Nat.one_pos)
    (Nat.two_pow_pos _)

theorem decode_eq (f : Format) (raw : Nat) :
    f.decode raw =
      if raw % 2 ^ (f.exponentBits + f.fractionBits) < f.infinityBits then
        .finite (raw.testBit (f.exponentBits + f.fractionBits))
          (f.magnitude (raw % 2 ^ (f.exponentBits + f.fractionBits)))
      else if raw % 2 ^ (f.exponentBits + f.fractionBits) = f.infinityBits then
        .infinity (raw.testBit (f.exponentBits + f.fractionBits))
      else .nan := by
  have hunit := Nat.two_pow_pos f.fractionBits
  have hlt := Nat.mod_lt raw (Nat.two_pow_pos (f.exponentBits + f.fractionBits))
  -- Exponent and fraction are quotient and remainder of the pattern without its sign.
  have hexp : raw / 2 ^ f.fractionBits % 2 ^ f.exponentBits =
      raw % 2 ^ (f.exponentBits + f.fractionBits) / 2 ^ f.fractionBits := by
    rw [Nat.pow_add, Nat.mul_comm, Nat.mod_mul_right_div_self]
  have hfrac : raw % 2 ^ f.fractionBits =
      raw % 2 ^ (f.exponentBits + f.fractionBits) % 2 ^ f.fractionBits := by
    rw [Nat.pow_add, Nat.mul_comm, Nat.mod_mul_right_mod]
  unfold decode magnitude
  rw [width_sub_one, infinityBits_eq, Nat.one_shiftLeft, Nat.one_shiftLeft,
    Nat.shiftRight_eq_div_pow, hexp, hfrac]
  dsimp only
  generalize raw.testBit (f.exponentBits + f.fractionBits) = negative
  generalize raw % 2 ^ (f.exponentBits + f.fractionBits) = r at *
  rw [Nat.pow_add] at hlt
  generalize 2 ^ f.fractionBits = unit at *
  generalize 2 ^ f.exponentBits = top at *
  rcases Nat.lt_or_ge (r / unit) (top - 1) with hbelow | habove
  · rw [if_neg hbelow.ne, if_pos ((Nat.div_lt_iff_lt_mul hunit).mp hbelow)]
    split_ifs <;> rfl
  · have htop : r / unit = top - 1 := by
      have hquot := (Nat.div_lt_iff_lt_mul hunit).mpr hlt
      omega
    have hsplit := Nat.div_add_mod' r unit
    rw [htop] at hsplit
    rw [if_pos htop]
    by_cases hm : r % unit = 0
    · rw [if_pos hm, if_neg (by omega), if_pos (by omega)]
    · rw [if_neg hm, if_neg (by omega), if_neg (by omega)]

theorem decode_withSign (negative : Bool) (hp : p ≤ f.infinityBits) :
    f.decode (f.withSign negative p) =
      if p < f.infinityBits then .finite negative (f.magnitude p) else .infinity negative := by
  have hlt := hp.trans_lt f.infinityBits_lt
  have hmod : f.withSign negative p % 2 ^ (f.exponentBits + f.fractionBits) = p := by
    unfold withSign
    rw [width_sub_one, Nat.one_shiftLeft]
    split_ifs
    · rw [Nat.add_mod_left, Nat.mod_eq_of_lt hlt]
    · exact Nat.mod_eq_of_lt hlt
  have hsign : (f.withSign negative p).testBit (f.exponentBits + f.fractionBits) = negative := by
    unfold withSign
    rw [width_sub_one, Nat.one_shiftLeft]
    split_ifs with h
    · rw [Nat.testBit_two_pow_add_eq, Nat.testBit_lt_two_pow hlt, h]
      rfl
    · rw [Nat.testBit_lt_two_pow hlt, Bool.eq_false_iff.mpr h]
  rw [decode_eq, hmod, hsign]
  split_ifs with hbelow heq
  · rfl
  · rfl
  · omega

end Format

end VerdictMachine

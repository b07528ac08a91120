import VerdictMachine.Proofs.WordValue

/-!
# Division

Long division brings down one bit of the dividend after the other. After each of
them the quotient and the remainder are those of the bits read so far, the
quotient standing above the bits that are still to come. A remainder of the full
width loses a bit when it is shifted; that bit is known to be its sign bit, and a
difference that wraps gets it back. Signed division is that of the magnitudes,
with the signs put on afterwards.
-/

set_option autoImplicit false

namespace VerdictMachine.Word

variable {w : Nat} {x y d q r : Word w}

/-! ## One bit -/

/-- A remainder with the next bit of the dividend behind it, as far as the width holds it. -/
def bringDown (r : Word w) (b : Bool) : Word w :=
  if b then (ofLimbs w (r.limbs.shiftLeft 1)).setBit 0 else ofLimbs w (r.limbs.shiftLeft 1)

theorem toNat_shifted (hr : r.Canonical) (hw : 0 < w) :
    (ofLimbs w (r.limbs.shiftLeft 1)).toNat = 2 * (r.toNat % 2 ^ (w - 1)) := by
  rw [toNat_cut, Limbs.value_shiftLeft, Nat.zero_add, hr.length_limbs,
    Nat.mod_mod_of_dvd _ (pow_dvd_limbs w), Nat.pow_one, Nat.mul_comm, pow_half hw,
    Nat.mul_mod_mul_left]
  rfl

theorem canonical_bringDown (hw : 0 < w) (r : Word w) (b : Bool) : (r.bringDown b).Canonical := by
  unfold bringDown
  split_ifs
  · exact canonical_setBit (canonical_ofLimbs w _) hw
  · exact canonical_ofLimbs w _

/-- What the shift loses is the sign bit. -/
theorem toNat_bringDown (hr : r.Canonical) (hw : 0 < w) (b : Bool) :
    (r.bringDown b).toNat + 2 ^ w * r.signBit.toNat = 2 * r.toNat + b.toNat := by
  have hshift := toNat_shifted hr hw
  have hset : (r.bringDown b).toNat = 2 * (r.toNat % 2 ^ (w - 1)) + b.toNat := by
    cases b with
    | false => exact hshift
    | true =>
      rw [← hshift]
      refine toNat_setBit (canonical_ofLimbs w _) hw ?_
      rw [hshift]
      exact Nat.dvd_mul_right 2 _
  have hlt := hr.toNat_lt
  rw [hset, pow_half hw]
  rw [pow_half hw] at hlt
  cases hs : r.signBit with
  | false =>
    rw [← Bool.not_eq_true, hr.signBit_iff hw, Nat.not_le] at hs
    rw [Nat.mod_eq_of_lt hs]
    rfl
  | true =>
    rw [hr.signBit_iff hw] at hs
    rw [Nat.mod_eq_sub_mod hs, Nat.mod_eq_of_lt (by omega), Bool.toNat_true]
    omega

/-- The divisor goes into the remainder if the lost bit is set, or if the rest is not below it. -/
theorem goes_iff (hr : r.Canonical) (hd : d.Canonical) (hw : 0 < w) (b : Bool) :
    (r.signBit || (r.bringDown b).order d != .lt) = true ↔
      d.toNat ≤ 2 * r.toNat + b.toNat := by
  have hdown := toNat_bringDown hr hw b
  have hlt := hd.toNat_lt
  rw [Bool.or_eq_true, bne_iff_ne, (canonical_bringDown hw r b).order_eq_compare hd,
    Nat.compare_ne_lt]
  cases hs : r.signBit with
  | false =>
    rw [hs, Bool.toNat_false] at hdown
    simp only [Bool.false_eq_true, false_or]
    omega
  | true =>
    rw [hs, Bool.toNat_true] at hdown
    simp only [true_or, true_iff]
    omega

/-- Taking the divisor away is exact, whether or not a bit was lost before. -/
theorem toNat_taken (hr : r.Canonical) (hd : d.Canonical) (hw : 0 < w) (b : Bool)
    (hlt : r.toNat < d.toNat) (h : d.toNat ≤ 2 * r.toNat + b.toNat) :
    ((r.bringDown b).sub d false).1.toNat = 2 * r.toNat + b.toNat - d.toNat := by
  have hdown := toNat_bringDown hr hw b
  have hdlt := hd.toNat_lt
  have hb := Bool.toNat_le b
  rw [toNat_sub (canonical_bringDown hw r b) hd]
  cases hs : r.signBit with
  | false =>
    rw [hs, Bool.toNat_false] at hdown
    rw [show (r.bringDown b).toNat + (2 ^ w - d.toNat) =
      2 * r.toNat + b.toNat - d.toNat + 2 ^ w by omega, Nat.add_mod_right]
    exact Nat.mod_eq_of_lt (by omega)
  | true =>
    rw [hs, Bool.toNat_true] at hdown
    rw [show (r.bringDown b).toNat + (2 ^ w - d.toNat) =
      2 * r.toNat + b.toNat - d.toNat by omega]
    exact Nat.mod_eq_of_lt (by omega)

theorem toNat_kept (hr : r.Canonical) (hd : d.Canonical) (hw : 0 < w) (b : Bool)
    (h : 2 * r.toNat + b.toNat < d.toNat) : (r.bringDown b).toNat = 2 * r.toNat + b.toNat := by
  have hdown := toNat_bringDown hr hw b
  have hdlt := hd.toNat_lt
  cases hs : r.signBit with
  | false => rwa [hs, Bool.toNat_false, Nat.mul_zero, Nat.add_zero] at hdown
  | true =>
    rw [hs, Bool.toNat_true, Nat.mul_one] at hdown
    omega

/-! ## The loop -/

/-- All but the low `n` bits of `x` have been divided by `d`. -/
structure Dividing (x d : Word w) (n : Nat) (qr : Word w × Word w) : Prop where
  canonical_quotient : qr.1.Canonical
  canonical_remainder : qr.2.Canonical
  quotient : qr.1.toNat = 2 ^ n * (x.toNat / 2 ^ n / d.toNat)
  remainder : qr.2.toNat = x.toNat / 2 ^ n % d.toNat

/-- Reading one bit more doubles what has been read and adds the bit. -/
theorem div_two_pow (n i : Nat) :
    n / 2 ^ i = 2 * (n / 2 ^ (i + 1)) + (n.testBit i).toNat := by
  rw [Nat.toNat_testBit, Nat.pow_succ, ← Nat.div_div_eq_div_mul, Nat.div_add_mod]

theorem div_mod_double_of_lt {p d b : Nat} (h : 2 * (p % d) + b < d) :
    (2 * p + b) / d = 2 * (p / d) ∧ (2 * p + b) % d = 2 * (p % d) + b := by
  rw [Nat.div_mod_unique (Nat.zero_lt_of_lt h)]
  refine ⟨?_, h⟩
  have hp := Nat.div_add_mod p d
  rw [Nat.mul_left_comm]
  omega

theorem div_mod_double_of_le {p d b : Nat} (hd : 0 < d) (hb : b ≤ 1)
    (h : d ≤ 2 * (p % d) + b) :
    (2 * p + b) / d = 2 * (p / d) + 1 ∧ (2 * p + b) % d = 2 * (p % d) + b - d := by
  have hp := Nat.div_add_mod p d
  have hlt := Nat.mod_lt p hd
  rw [Nat.div_mod_unique hd, Nat.mul_add, Nat.mul_left_comm, Nat.mul_one]
  omega

/-- The remainder is below the divisor, so the divisor goes into its double at most once. -/
theorem Dividing.step {i : Nat} (h : Dividing x d (i + 1) (q, r)) (hi : i < w)
    (hx : x.Canonical) (hd : d.Canonical) (hpos : 0 < d.toNat) :
    Dividing x d i (divideBit x d i q r) := by
  obtain ⟨hq, hr, hquot, hrem⟩ := h
  have hw : 0 < w := Nat.zero_lt_of_lt hi
  have hlt : r.toNat < d.toNat := hrem ▸ Nat.mod_lt _ hpos
  have hread := div_two_pow x.toNat i
  change Dividing x d i (if r.signBit || (r.bringDown (x.bit i)).order d != .lt then
    (q.setBit i, ((r.bringDown (x.bit i)).sub d false).1) else (q, r.bringDown (x.bit i)))
  rw [hx.bit_eq_testBit]
  generalize x.toNat.testBit i = b at hread
  split_ifs with hgo
  · rw [goes_iff hr hd hw] at hgo
    obtain ⟨hdiv, hmod⟩ := div_mod_double_of_le hpos (Bool.toNat_le b) (hrem ▸ hgo)
    refine ⟨canonical_setBit hq hi, canonical_sub _ _ false, ?_, ?_⟩
    · rw [toNat_setBit hq hi (Dvd.intro _ hquot.symm), hquot, hread, hdiv, Nat.pow_succ]
      ring
    · rw [toNat_taken hr hd hw b hlt hgo, hread, hmod, hrem]
  · rw [goes_iff hr hd hw, Nat.not_le] at hgo
    obtain ⟨hdiv, hmod⟩ := div_mod_double_of_lt (hrem ▸ hgo)
    refine ⟨hq, canonical_bringDown hw r b, ?_, ?_⟩
    · rw [hquot, hread, hdiv, Nat.pow_succ, Nat.mul_assoc]
    · rw [toNat_kept hr hd hw b hgo, hread, hmod, hrem]

theorem Dividing.run {n : Nat} (h : Dividing x d n (q, r)) (hn : n ≤ w)
    (hx : x.Canonical) (hd : d.Canonical) (hpos : 0 < d.toNat) :
    Dividing x d 0 (divideBits x d n q r) := by
  induction n generalizing q r with
  | zero => exact h
  | succ i ih => exact ih (h.step hn hx hd hpos) (Nat.le_of_succ_le hn)

theorem dividing_zero (hx : x.Canonical) (d : Word w) : Dividing x d w (zero w, zero w) := by
  have hnone : x.toNat / 2 ^ w = 0 := Nat.div_eq_of_lt hx.toNat_lt
  refine ⟨canonical_zero w, canonical_zero w, ?_, ?_⟩
  · rw [hnone, Nat.zero_div, Nat.mul_zero]
    exact toNat_zero w
  · rw [hnone, Nat.zero_mod]
    exact toNat_zero w

theorem Dividing.toNat_eq {qr : Word w × Word w} (h : Dividing x d 0 qr) :
    qr.1.toNat = x.toNat / d.toNat ∧ qr.2.toNat = x.toNat % d.toNat := by
  have hquot := h.quotient
  have hrem := h.remainder
  rw [Nat.pow_zero, Nat.div_one] at hquot hrem
  exact ⟨hquot.trans (Nat.one_mul _), hrem⟩

theorem Dividing.eq {qr qr' : Word w × Word w} (h : Dividing x d 0 qr) (h' : Dividing x d 0 qr') :
    qr = qr' :=
  Prod.ext (h.canonical_quotient.eq_of_toNat h'.canonical_quotient
      (h.quotient.trans h'.quotient.symm))
    (h.canonical_remainder.eq_of_toNat h'.canonical_remainder
      (h.remainder.trans h'.remainder.symm))

/-! ## Words of a single limb -/

theorem toNat_low64 (hx : x.Canonical) (h : limbCount w = 1) : x.low64.toNat = x.toNat := by
  obtain ⟨l, hl⟩ := List.length_eq_one_iff.mp (hx.length_limbs.trans h)
  rw [low64, toNat, hl]
  rfl

theorem dividing_low64 (hx : x.Canonical) (hd : d.Canonical) (h : limbCount w = 1) :
    Dividing x d 0 (ofUInt64 w (x.low64 / d.low64), ofUInt64 w (x.low64 % d.low64)) := by
  have hlt := hx.toNat_lt
  refine ⟨canonical_ofUInt64 w _, canonical_ofUInt64 w _, ?_, ?_⟩
  · rw [toNat_ofUInt64, UInt64.toNat_div, toNat_low64 hx h, toNat_low64 hd h, Nat.pow_zero,
      Nat.one_mul, Nat.div_one]
    exact Nat.mod_eq_of_lt (Nat.lt_of_le_of_lt (Nat.div_le_self _ _) hlt)
  · rw [toNat_ofUInt64, UInt64.toNat_mod, toNat_low64 hx h, toNat_low64 hd h, Nat.pow_zero,
      Nat.div_one]
    exact Nat.mod_eq_of_lt (Nat.lt_of_le_of_lt (Nat.mod_le _ _) hlt)

theorem dividing_divide (hx : x.Canonical) (hd : d.Canonical) (hpos : 0 < d.toNat) :
    Dividing x d 0 (x.divide d) := by
  unfold divide
  split_ifs with h
  · exact dividing_low64 hx hd h
  · exact (dividing_zero hx d).run (Nat.le_refl w) hx hd hpos

/-! ## Signs -/

theorem toInt_allOnes (hw : 0 < w) : (allOnes w).toInt = -1 := by
  have hones := toNat_allOnes w
  have hhalf := pow_half hw
  have hpos := Nat.two_pow_pos (w - 1)
  rw [toInt_of_le (canonical_allOnes w) hw (by omega), hones]
  omega

theorem overflows_iff (hx : x.Canonical) (hy : y.Canonical) (hw : 0 < w) :
    (x == minSigned w && y == allOnes w) = true ↔
      x.toInt = -(2 ^ (w - 1) : Nat) ∧ y.toInt = -1 := by
  rw [Bool.and_eq_true, beq_iff_eq, beq_iff_eq, ← toInt_minSigned hw, ← toInt_allOnes hw]
  constructor
  · rintro ⟨rfl, rfl⟩
    exact ⟨rfl, rfl⟩
  · rintro ⟨hmin, hones⟩
    exact ⟨hx.eq_of_toInt (canonical_minSigned hw) hw hmin,
      hy.eq_of_toInt (canonical_allOnes w) hw hones⟩

/-- A magnitude with a sign put on it. -/
def withSign (negative : Bool) (m : Word w) : Word w := if negative then m.wrappingNeg else m

theorem canonical_withSign {m : Word w} (hm : m.Canonical) (negative : Bool) :
    (m.withSign negative).Canonical := by
  cases negative with
  | false => exact hm
  | true => exact canonical_wrappingNeg m

/-- There is room for one negative magnitude more than for positive ones. -/
theorem toInt_withSign {m : Word w} (hm : m.Canonical) (hw : 0 < w) {negative : Bool}
    (hle : m.toNat ≤ 2 ^ (w - 1)) (hlt : negative = false → m.toNat < 2 ^ (w - 1)) :
    (m.withSign negative).toInt = if negative then -(m.toNat : Int) else m.toNat := by
  cases negative with
  | false => exact toInt_of_lt hm hw (hlt rfl)
  | true => exact toInt_wrappingNeg hm hw hle

theorem tdiv_eq_magnitudes (hx : x.Canonical) (hy : y.Canonical) (hw : 0 < w) :
    x.toInt.tdiv y.toInt =
      if x.signBit != y.signBit then -((x.toInt.natAbs / y.toInt.natAbs : Nat) : Int)
      else ((x.toInt.natAbs / y.toInt.natAbs : Nat) : Int) := by
  have hxs := toInt_eq_magnitude hx hw
  have hys := toInt_eq_magnitude hy hw
  generalize x.toInt.natAbs = a at hxs ⊢
  generalize y.toInt.natAbs = b at hys ⊢
  rw [hxs, hys, Int.ofNat_tdiv]
  cases x.signBit <;> cases y.signBit <;> simp

theorem tmod_eq_magnitudes (hx : x.Canonical) (hy : y.Canonical) (hw : 0 < w) :
    x.toInt.tmod y.toInt =
      if x.signBit then -((x.toInt.natAbs % y.toInt.natAbs : Nat) : Int)
      else ((x.toInt.natAbs % y.toInt.natAbs : Nat) : Int) := by
  have hxs := toInt_eq_magnitude hx hw
  have hys := toInt_eq_magnitude hy hw
  generalize x.toInt.natAbs = a at hxs ⊢
  generalize y.toInt.natAbs = b at hys ⊢
  rw [hxs, hys, Int.ofNat_tmod]
  cases x.signBit <;> cases y.signBit <;> simp

theorem magnitude_pos (hy : y.Canonical) (hw : 0 < w) (hy0 : y.toNat ≠ 0) :
    0 < y.magnitude.toNat := by
  have hlt := hy.toNat_lt
  rw [toNat_magnitude hy hw]
  rcases toInt_cases hy hw with ⟨-, -, hi⟩ | ⟨-, -, hi⟩ <;> omega

/-- Of words of one sign, only the most negative one and minus one have too large a quotient. -/
theorem div_magnitudes_lt (hx : x.Canonical) (hy : y.Canonical) (hw : 0 < w)
    (hs : x.signBit = y.signBit) (h : ¬ (x.toInt = -(2 ^ (w - 1) : Nat) ∧ y.toInt = -1)) :
    x.toInt.natAbs / y.toInt.natAbs < 2 ^ (w - 1) := by
  have hle := magnitude_le hx hw
  have hpos := Nat.two_pow_pos (w - 1)
  have hylt := hy.toNat_lt
  rcases toInt_cases hx hw with ⟨-, hlt, hi⟩ | ⟨hxs, -, -⟩
  · exact Nat.lt_of_le_of_lt (Nat.div_le_self _ _) (by omega)
  · have hneg := toInt_eq_magnitude hx hw
    rw [hxs, if_pos rfl] at hneg
    rcases toInt_cases hy hw with ⟨hys, -, -⟩ | ⟨-, -, hi⟩
    · rw [hs, hys] at hxs
      cases hxs
    · by_cases hone : y.toInt = -1
      · -- The quotient is the magnitude, which only the excluded dividend makes too large.
        have hmin : x.toInt ≠ -(2 ^ (w - 1) : Nat) := fun hmin => h ⟨hmin, hone⟩
        rw [hone, Int.natAbs_neg, Int.natAbs_one, Nat.div_one]
        omega
      · have htwo : 2 ≤ y.toInt.natAbs := by omega
        calc
          x.toInt.natAbs / y.toInt.natAbs ≤ x.toInt.natAbs / 2 :=
            Nat.div_le_div_left htwo (by decide)
          _ < 2 ^ (w - 1) := by omega

theorem dividing_magnitudes (hx : x.Canonical) (hy : y.Canonical) (hw : 0 < w)
    (hy0 : y.toNat ≠ 0) :
    Dividing x.magnitude y.magnitude 0 (x.magnitude.divide y.magnitude) :=
  dividing_divide (canonical_magnitude hx) (canonical_magnitude hy) (magnitude_pos hy hw hy0)

theorem toInt_quotient (hx : x.Canonical) (hy : y.Canonical) (hw : 0 < w) (hy0 : y.toNat ≠ 0)
    (h : ¬ (x.toInt = -(2 ^ (w - 1) : Nat) ∧ y.toInt = -1)) :
    ((x.magnitude.divide y.magnitude).1.withSign (x.signBit != y.signBit)).toInt =
      x.toInt.tdiv y.toInt := by
  have hdiv := dividing_magnitudes hx hy hw hy0
  have hquot := hdiv.toNat_eq.1
  rw [toNat_magnitude hx hw, toNat_magnitude hy hw] at hquot
  have hle := Nat.le_trans (Nat.div_le_self x.toInt.natAbs y.toInt.natAbs) (magnitude_le hx hw)
  have hlt : (x.signBit != y.signBit) = false →
      x.toInt.natAbs / y.toInt.natAbs < 2 ^ (w - 1) := by
    intro hs
    exact div_magnitudes_lt hx hy hw (bne_eq_false_iff_eq.mp hs) h
  rw [← hquot] at hle hlt
  rw [toInt_withSign hdiv.canonical_quotient hw hle hlt, hquot, tdiv_eq_magnitudes hx hy hw]

theorem toInt_remainder (hx : x.Canonical) (hy : y.Canonical) (hw : 0 < w) (hy0 : y.toNat ≠ 0) :
    ((x.magnitude.divide y.magnitude).2.withSign x.signBit).toInt = x.toInt.tmod y.toInt := by
  have hdiv := dividing_magnitudes hx hy hw hy0
  have hrem := hdiv.toNat_eq.2
  have hlt := Nat.mod_lt x.magnitude.toNat (magnitude_pos hy hw hy0)
  rw [toNat_magnitude hx hw, toNat_magnitude hy hw] at hrem hlt
  have hroom := Nat.lt_of_lt_of_le hlt (magnitude_le hy hw)
  rw [← hrem] at hroom
  rw [toInt_withSign hdiv.canonical_remainder hw (Nat.le_of_lt hroom) (fun _ => hroom), hrem,
    tmod_eq_magnitudes hx hy hw]

/-! ## The operations -/

theorem divMod_eq_none_iff (x y : Word w) (signed : Bool) :
    x.divMod y signed = none ↔ y.toNat = 0 := by
  rw [← isZero_iff]
  unfold divMod
  split_ifs <;> simp_all

theorem divMod_unsigned (x : Word w) (hy0 : y.toNat ≠ 0) :
    x.divMod y false = some ((x.divide y).1, (x.divide y).2, false) := by
  rw [divMod, if_neg (by rwa [isZero_iff])]
  rfl

theorem divMod_overflow (hx : x.Canonical) (hy : y.Canonical) (hw : 0 < w) (hy0 : y.toNat ≠ 0)
    (h : x.toInt = -(2 ^ (w - 1) : Nat) ∧ y.toInt = -1) :
    x.divMod y true = some (x, zero w, true) := by
  rw [divMod, if_neg (by rwa [isZero_iff]), if_neg (by decide),
    if_pos ((overflows_iff hx hy hw).mpr h)]

theorem divMod_signed (hx : x.Canonical) (hy : y.Canonical) (hw : 0 < w) (hy0 : y.toNat ≠ 0)
    (h : ¬ (x.toInt = -(2 ^ (w - 1) : Nat) ∧ y.toInt = -1)) :
    x.divMod y true =
      some ((x.magnitude.divide y.magnitude).1.withSign (x.signBit != y.signBit),
        (x.magnitude.divide y.magnitude).2.withSign x.signBit, false) := by
  rw [divMod, if_neg (by rwa [isZero_iff]), if_neg (by decide),
    if_neg (by rwa [overflows_iff hx hy hw])]
  unfold withSign
  cases x.signBit <;> cases y.signBit <;> rfl

/-- Division by zero has no result. Any other unsigned division gives the quotient and the
remainder, which the loop computes at every width, also where a single limb makes it unnecessary.
A signed division gives the quotient toward zero and the remainder with the sign of the dividend.
The one quotient that the width does not hold is given back as the dividend, with its flag set. -/
theorem division_exact (hw : 0 < w) (hx : x.Canonical) (hy : y.Canonical) :
    (∀ signed, (x.div y signed = none ↔ y.toNat = 0) ∧ (x.mod y signed = none ↔ y.toNat = 0)) ∧
    (y.toNat ≠ 0 → ∃ q r : Word w, q.Canonical ∧ r.Canonical ∧
      x.div y false = some (q, false) ∧ x.mod y false = some (r, false) ∧
      divideBits x y w (zero w) (zero w) = (q, r) ∧
      q.toNat = x.toNat / y.toNat ∧ r.toNat = x.toNat % y.toNat) ∧
    (x.toInt = -2 ^ (w - 1) ∧ y.toInt = -1 →
      x.div y true = some (x, true) ∧ x.mod y true = some (zero w, true)) ∧
    (y.toNat ≠ 0 → ¬ (x.toInt = -2 ^ (w - 1) ∧ y.toInt = -1) →
      ∃ q r : Word w, q.Canonical ∧ r.Canonical ∧
        x.div y true = some (q, false) ∧ x.mod y true = some (r, false) ∧
        q.toInt = x.toInt.tdiv y.toInt ∧ r.toInt = x.toInt.tmod y.toInt ∧
        x.toInt = q.toInt * y.toInt + r.toInt ∧ r.toInt.natAbs < y.toInt.natAbs) := by
  have hcast : (2 ^ (w - 1) : Int) = (2 ^ (w - 1) : Nat) := by norm_cast
  rw [hcast]
  refine ⟨?_, ?_, ?_, ?_⟩
  · intro signed
    rw [div, mod, Option.map_eq_none_iff, Option.map_eq_none_iff, divMod_eq_none_iff]
    exact ⟨Iff.rfl, Iff.rfl⟩
  · intro hy0
    have hpos := Nat.pos_of_ne_zero hy0
    have hdiv := dividing_divide hx hy hpos
    have hloop := (dividing_zero hx y).run (Nat.le_refl w) hx hy hpos
    refine ⟨_, _, hdiv.canonical_quotient, hdiv.canonical_remainder, ?_, ?_, hloop.eq hdiv,
      hdiv.toNat_eq⟩
    · rw [div, divMod_unsigned x hy0]
      rfl
    · rw [mod, divMod_unsigned x hy0]
      rfl
  · intro h
    have hy0 : y.toNat ≠ 0 := by
      rcases toInt_cases hy hw with ⟨-, -, hi⟩ | ⟨-, hle, -⟩
      · omega
      · exact Nat.ne_of_gt (Nat.lt_of_lt_of_le (Nat.two_pow_pos _) hle)
    rw [div, mod, divMod_overflow hx hy hw hy0 h]
    exact ⟨rfl, rfl⟩
  · intro hy0 h
    have hpos := magnitude_pos hy hw hy0
    have hdiv := dividing_magnitudes hx hy hw hy0
    have hquot := toInt_quotient hx hy hw hy0 h
    have hrem := toInt_remainder hx hy hw hy0
    refine ⟨_, _, canonical_withSign hdiv.canonical_quotient _,
      canonical_withSign hdiv.canonical_remainder _, ?_, ?_, hquot, hrem, ?_, ?_⟩
    · rw [div, divMod_signed hx hy hw hy0 h]
      rfl
    · rw [mod, divMod_signed hx hy hw hy0 h]
      rfl
    · rw [hquot, hrem, Int.tdiv_mul_add_tmod]
    · rw [toNat_magnitude hy hw] at hpos
      rw [hrem, Int.natAbs_tmod]
      exact Nat.mod_lt _ hpos

/-- Words of more than one limb: the quotient toward zero, and the one that does not fit. -/
theorem division_exact_minSigned :
    (minSigned 65).div (allOnes 65) true = some (minSigned 65, true) ∧
      ∃ q r : Word 65, (minSigned 65).div (ofUInt64 65 3) true = some (q, false) ∧
        (minSigned 65).mod (ofUInt64 65 3) true = some (r, false) ∧
        q.toInt = -6148914691236517205 ∧ r.toInt = -1 := by
  have hw : 0 < 65 := by decide
  have hmin := canonical_minSigned hw
  have hones := (division_exact hw hmin (canonical_allOnes 65)).2.2.1 (by decide)
  obtain ⟨q, r, -, -, hq, hr, hquot, hrem, -, -⟩ :=
    (division_exact hw hmin (canonical_ofUInt64 65 3)).2.2.2 (by decide) (by decide)
  exact ⟨hones.1, q, r, hq, hr, hquot.trans (by decide), hrem.trans (by decide)⟩

end VerdictMachine.Word

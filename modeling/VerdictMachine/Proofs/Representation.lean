import Mathlib.Algebra.BigOperators.Intervals
import Mathlib.Algebra.BigOperators.Ring.Finset
import VerdictMachine.Proofs.Conversion
import VerdictMachine.Proofs.Division
import VerdictMachine.Proofs.Multiplication
import VerdictMachine.Proofs.Shifting

/-!
# One representation for each number

Whatever is computed with words, starting from their constructors, has no bit
beyond its width. So words are equal when their numbers are, the order of the
limbs is the order of the numbers, and the bytes of a word tell it: they are the
digits of its number in base 256.
-/

set_option autoImplicit false

namespace VerdictMachine

theorem Limbs.value_eq_sum (ls : Limbs) :
    ls.value = ∑ i ∈ Finset.range ls.length, (ls.getD i 0).toNat * 2 ^ (64 * i) := by
  induction ls with
  | nil => rfl
  | cons l ls ih =>
    have hshift : ∀ i, ((l :: ls).getD (i + 1) 0).toNat * 2 ^ (64 * (i + 1)) =
        UInt64.size * ((ls.getD i 0).toNat * 2 ^ (64 * i)) := by
      intro i
      rw [pow_limb, List.getD_cons_succ]
      ring
    rw [value, List.length_cons, Finset.sum_range_succ', Finset.sum_congr rfl fun i _ => hshift i,
      ← Finset.mul_sum, ← ih, List.getD_cons_zero, Nat.mul_zero, Nat.pow_zero, Nat.mul_one,
      Nat.add_comm]

theorem Bytes.toNatLE_eq_sum (bs : Bytes) :
    toNatLE bs = ∑ i ∈ Finset.range bs.length, (bs.getD i 0).toNat * 256 ^ i := by
  induction bs with
  | nil => rfl
  | cons b bs ih =>
    have hshift : ∀ i, ((b :: bs).getD (i + 1) 0).toNat * 256 ^ (i + 1) =
        256 * ((bs.getD i 0).toNat * 256 ^ i) := by
      intro i
      rw [Nat.pow_succ, List.getD_cons_succ]
      ring
    rw [toNatLE, List.length_cons, Finset.sum_range_succ', Finset.sum_congr rfl fun i _ => hshift i,
      ← Finset.mul_sum, ← ih, List.getD_cons_zero, Nat.pow_zero, Nat.mul_one, Nat.add_comm]

namespace Word

variable {w : Nat} {x y : Word w}

/-- The words that the constructors and operations give, one after another. -/
inductive Built : {w : Nat} → Word w → Prop where
  | zero (w : Nat) : Built (zero w)
  | allOnes (w : Nat) : Built (allOnes w)
  | minSigned (w : Nat) : Built (minSigned w)
  | ofUInt64 (w : Nat) (v : UInt64) : Built (ofUInt64 w v)
  | ofDouble (w : Nat) (v : BitVec 128) : Built (ofDouble w v)
  | ofBytes (w : Nat) (bs : Bytes) : Built (ofBytes w bs)
  | add {w : Nat} {x y : Word w} (signed : Bool) : Built x → Built y → Built (x.add y signed).1
  | sub {w : Nat} {x y : Word w} (signed : Bool) : Built x → Built y → Built (x.sub y signed).1
  | mul {w : Nat} {x y : Word w} (signed : Bool) : Built x → Built y → Built (x.mul y signed).1
  | div {w : Nat} {x y q : Word w} {signed overflow : Bool} :
    Built x → Built y → x.div y signed = some (q, overflow) → Built q
  | mod {w : Nat} {x y r : Word w} {signed overflow : Bool} :
    Built x → Built y → x.mod y signed = some (r, overflow) → Built r
  | neg {w : Nat} {x : Word w} : Built x → Built x.neg.1
  | and {w : Nat} {x y : Word w} : Built x → Built y → Built (x.and y)
  | or {w : Nat} {x y : Word w} : Built x → Built y → Built (x.or y)
  | xor {w : Nat} {x y : Word w} : Built x → Built y → Built (x.xor y)
  | complement {w : Nat} {x : Word w} : Built x → Built x.complement
  | shiftLeft {w : Nat} {x : Word w} (amount : Nat) : Built x → Built (x.shiftLeft amount).1
  | shiftRight {w : Nat} {x : Word w} (amount : Nat) : Built x → Built (x.shiftRight amount).1
  | rotateLeft {w : Nat} {x : Word w} (amount : Nat) : Built x → Built (x.rotateLeft amount)
  | rotateRight {w : Nat} {x : Word w} (amount : Nat) : Built x → Built (x.rotateRight amount)
  | convert {w v : Nat} {x : Word w} (signed : Bool) :
    0 < w → Built x → Built (x.convert v signed).1

/-! ## Every operation keeps words canonical -/

theorem canonical_rotateRight (hx : x.Canonical) (amount : Nat) :
    (x.rotateRight amount).Canonical := by
  rw [rotateRight_eq]
  exact canonical_rotateLeft hx _

/-- Quotient and remainder are canonical on every way through the division. -/
theorem canonical_divMod (hw : 0 < w) (hx : x.Canonical) (hy : y.Canonical) {signed : Bool}
    {qr : Word w × Word w × Bool} (h : x.divMod y signed = some qr) :
    qr.1.Canonical ∧ qr.2.1.Canonical := by
  have hy0 : y.toNat ≠ 0 := by
    intro hzero
    rw [(divMod_eq_none_iff x y signed).mpr hzero] at h
    cases h
  cases signed with
  | false =>
    rw [divMod_unsigned x hy0] at h
    cases h
    have hdiv := dividing_divide hx hy (Nat.pos_of_ne_zero hy0)
    exact ⟨hdiv.canonical_quotient, hdiv.canonical_remainder⟩
  | true =>
    by_cases hover : x.toInt = -(2 ^ (w - 1) : Nat) ∧ y.toInt = -1
    · rw [divMod_overflow hx hy hw hy0 hover] at h
      cases h
      exact ⟨hx, canonical_zero w⟩
    · rw [divMod_signed hx hy hw hy0 hover] at h
      cases h
      have hdiv := dividing_magnitudes hx hy hw hy0
      exact ⟨canonical_withSign hdiv.canonical_quotient _,
        canonical_withSign hdiv.canonical_remainder _⟩

theorem Built.canonical (h : x.Built) (hw : 0 < w) : x.Canonical := by
  induction h with
  | zero w => exact canonical_zero w
  | allOnes w => exact canonical_allOnes w
  | minSigned w => exact canonical_minSigned hw
  | ofUInt64 w v => exact canonical_ofUInt64 w v
  | ofDouble w v => exact canonical_ofLimbs w _
  | ofBytes w bs => exact canonical_ofBytes w bs
  | add signed hx hy ihx ihy => exact canonical_add _ _ signed
  | sub signed hx hy ihx ihy => exact canonical_sub _ _ signed
  | mul signed hx hy ihx ihy => exact canonical_mul _ _ signed
  | div hx hy hq ihx ihy =>
    obtain ⟨qr, hqr, heq⟩ := Option.map_eq_some_iff.mp hq
    cases heq
    exact (canonical_divMod hw (ihx hw) (ihy hw) hqr).1
  | mod hx hy hr ihx ihy =>
    obtain ⟨qr, hqr, heq⟩ := Option.map_eq_some_iff.mp hr
    cases heq
    exact (canonical_divMod hw (ihx hw) (ihy hw) hqr).2
  | neg hx ih => exact canonical_wrappingNeg _
  | and hx hy ihx ihy => exact canonical_ofLimbs _ _
  | or hx hy ihx ihy => exact canonical_or _ _
  | xor hx hy ihx ihy => exact canonical_ofLimbs _ _
  | complement hx ih => exact canonical_complement _
  | shiftLeft amount hx ih => exact canonical_shiftLeft (ih hw) amount
  | shiftRight amount hx ih => exact canonical_shiftRight (ih hw) amount
  | rotateLeft amount hx ih => exact canonical_rotateLeft (ih hw) amount
  | rotateRight amount hx ih => exact canonical_rotateRight (ih hw) amount
  | convert signed hv hx ih => exact canonical_resize _ _ signed

/-! ## What a canonical word tells -/

theorem Canonical.limb_bit_of_le (hx : x.Canonical) {i : Nat} (h : w ≤ i) :
    x.limbs.bit i = false := by
  rw [Limbs.bit_eq_testBit]
  exact Nat.testBit_lt_two_pow (hx.toNat_lt_of_le h)

theorem Canonical.eq_iff (hx : x.Canonical) (hy : y.Canonical) : x = y ↔ x.toNat = y.toNat :=
  ⟨fun h => h ▸ rfl, hx.eq_of_toNat hy⟩

theorem compare_sub (a b : Nat) (c : Int) : compare ((a : Int) - c) (b - c) = compare a b := by
  have hlt : (a : Int) - c < b - c ↔ a < b := by omega
  have heq : (a : Int) - c = b - c ↔ a = b := by omega
  simp only [compare, compareOfLessAndEq, hlt, heq]

/-- Where the signs agree, both readings differ by the same amount; else the signs decide. -/
theorem Canonical.signedOrder_eq_compare (hx : x.Canonical) (hy : y.Canonical) (hw : 0 < w) :
    x.signedOrder y = compare x.toInt y.toInt := by
  have hxlt := hx.toNat_lt
  have hylt := hy.toNat_lt
  have horder := hx.order_eq_compare hy
  unfold signedOrder
  rcases toInt_cases hx hw with ⟨hsx, -, hix⟩ | ⟨hsx, -, hix⟩ <;>
    rcases toInt_cases hy hw with ⟨hsy, -, hiy⟩ | ⟨hsy, -, hiy⟩ <;> rw [hsx, hsy, hix, hiy]
  · have hsame := compare_sub x.toNat y.toNat 0
    rw [Int.sub_zero, Int.sub_zero] at hsame
    exact horder.trans hsame.symm
  · exact (compare_gt_iff_gt.mpr (by omega)).symm
  · exact (compare_lt_iff_lt.mpr (by omega)).symm
  · exact horder.trans (compare_sub _ _ _).symm

/-- An operation that acts on each bit of the limbs alone does so on each bit of the words. -/
theorem bit_zipWith {f : UInt64 → UInt64 → UInt64} {g : Bool → Bool → Bool}
    (hf : ∀ a b i, (f a b).toNat.testBit i = g (a.toNat.testBit i) (b.toNat.testBit i))
    (hx : x.Canonical) (hy : y.Canonical) {i : Nat} (hi : i < w) :
    (ofLimbs w (List.zipWith f x.limbs y.limbs)).bit i = g (x.bit i) (y.bit i) := by
  rw [(canonical_ofLimbs w _).bit_eq_testBit, toNat_cut, Nat.testBit_mod_two_pow,
    decide_eq_true hi, Bool.true_and,
    Limbs.testBit_zipWith hf (hx.length_limbs.trans hy.length_limbs.symm), hx.bit_eq_testBit,
    hy.bit_eq_testBit]
  rfl

theorem bit_and (hx : x.Canonical) (hy : y.Canonical) {i : Nat} (hi : i < w) :
    (x.and y).bit i = (x.bit i && y.bit i) :=
  bit_zipWith (fun a b i => by rw [UInt64.toNat_and, Nat.testBit_and]) hx hy hi

theorem bit_or (hx : x.Canonical) (hy : y.Canonical) {i : Nat} (hi : i < w) :
    (x.or y).bit i = (x.bit i || y.bit i) :=
  bit_zipWith (fun a b i => by rw [UInt64.toNat_or, Nat.testBit_or]) hx hy hi

theorem bit_xor (hx : x.Canonical) (hy : y.Canonical) {i : Nat} (hi : i < w) :
    (x.xor y).bit i = (x.bit i ^^ y.bit i) :=
  bit_zipWith (fun a b i => by rw [UInt64.toNat_xor, Nat.testBit_xor]) hx hy hi

theorem bit_complement (hx : x.Canonical) {i : Nat} (hi : i < w) :
    x.complement.bit i = !x.bit i := by
  rw [(canonical_complement x).bit_eq_testBit, toNat_complement hx, hx.bit_eq_testBit,
    Nat.sub_sub, Nat.add_comm 1, Nat.testBit_two_pow_sub_succ hx.toNat_lt, decide_eq_true hi,
    Bool.true_and]

/-! ## Bytes -/

theorem length_toBytes (hx : x.Canonical) : x.toBytes.length = byteCount w := by
  rw [toBytes_eq hx, Bytes.length_ofNatLE]

theorem ofBytes_toBytes (hx : x.Canonical) : ofBytes w x.toBytes = x := by
  have hle : w ≤ 8 * byteCount w := by
    unfold byteCount
    omega
  apply (canonical_ofBytes w _).eq_of_toNat hx
  rw [toNat_ofBytes, toBytes_eq hx, Bytes.toNatLE_ofNatLE, Nat.one_shiftLeft, Nat.one_shiftLeft,
    Nat.mod_eq_of_lt (hx.toNat_lt_of_le hle), Nat.mod_eq_of_lt hx.toNat_lt]

/-- Bytes that fill the width are read without loss. -/
theorem toBytes_ofBytes (h : 8 ∣ w) {bs : Bytes} (hbs : bs.length = w / 8) :
    (ofBytes w bs).toBytes = bs := by
  have hbits : 8 * bs.length = w := by
    rw [hbs]
    exact Nat.mul_div_cancel' h
  have hcount : byteCount w = bs.length := by
    unfold byteCount
    omega
  have hlt := Bytes.toNatLE_lt bs
  rw [hbits] at hlt
  rw [toBytes_eq (canonical_ofBytes w bs), toNat_ofBytes, Nat.mod_eq_of_lt hlt, hcount,
    Bytes.ofNatLE_toNatLE]

/-- Any two words of a width, however they were computed, have no bit of their limbs beyond the
width and are below its power of two. They are equal when their numbers are, and their two orders
are those of their two readings. The operations on bits act on each bit of the width alone. A byte
string is read as its number modulo the power of two of the width; the bytes of a word give the
word back, and bytes that fill the width are given back. -/
theorem words_canonical (hw : 0 < w) (hx : x.Built) (hy : y.Built) :
    (x.limbs.length = limbCount w ∧ ∀ i, w ≤ i → x.limbs.bit i = false) ∧
    (x.toNat = ∑ i ∈ Finset.range x.limbs.length, (x.limbs.getD i 0).toNat * 2 ^ (64 * i) ∧
      x.toNat < 2 ^ w) ∧
    (x = y ↔ x.toNat = y.toNat) ∧
    x.order y = compare x.toNat y.toNat ∧
    x.signedOrder y = compare x.toInt y.toInt ∧
    (∀ i < w, (x.and y).bit i = (x.bit i && y.bit i) ∧ (x.or y).bit i = (x.bit i || y.bit i) ∧
      (x.xor y).bit i = (x.bit i ^^ y.bit i) ∧ x.complement.bit i = !x.bit i) ∧
    (∀ bs : Bytes, (ofBytes w bs).toNat =
      (∑ i ∈ Finset.range bs.length, (bs.getD i 0).toNat * 256 ^ i) % 2 ^ w) ∧
    (x.toBytes.length = (w + 7) / 8 ∧ ofBytes w x.toBytes = x) ∧
    (8 ∣ w → ∀ bs : Bytes, bs.length = w / 8 → (ofBytes w bs).toBytes = bs) := by
  have hcx := hx.canonical hw
  have hcy := hy.canonical hw
  refine ⟨⟨hcx.length_limbs, fun i => hcx.limb_bit_of_le⟩, ⟨x.limbs.value_eq_sum, hcx.toNat_lt⟩,
    hcx.eq_iff hcy, hcx.order_eq_compare hcy, hcx.signedOrder_eq_compare hcy hw, ?_, ?_,
    ⟨length_toBytes hcx, ofBytes_toBytes hcx⟩, fun h bs => toBytes_ofBytes h⟩
  · intro i hi
    exact ⟨bit_and hcx hcy hi, bit_or hcx hcy hi, bit_xor hcx hcy hi, bit_complement hcx hi⟩
  · intro bs
    rw [toNat_ofBytes, Bytes.toNatLE_eq_sum, Nat.one_shiftLeft]

/-- The most negative word of a width that ends within its second limb, and what is left of it
shifted by one: the first is the greater one without a sign and the lesser one with it. -/
theorem words_canonical_minSigned :
    (minSigned 65).order ((minSigned 65).shiftRight 1).1 = .gt ∧
      (minSigned 65).signedOrder ((minSigned 65).shiftRight 1).1 = .lt ∧
      ofBytes 65 (minSigned 65).toBytes = minSigned 65 := by
  have hbuilt := Built.minSigned 65
  obtain ⟨-, -, -, horder, hsigned, -, -, ⟨-, hbytes⟩, -⟩ :=
    words_canonical (by decide) hbuilt (hbuilt.shiftRight 1)
  exact ⟨horder.trans (by decide), hsigned.trans (by decide), hbytes⟩

end Word

end VerdictMachine

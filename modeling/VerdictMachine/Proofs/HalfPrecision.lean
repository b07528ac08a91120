import VerdictMachine.Proofs.DoubleRounding
import VerdictMachine.Proofs.HostArithmetic

/-!
# Half-precision arithmetic

The operands are widened to single precision, which is exact, and the result is
rounded to single precision and then to half precision. Main statement: for all
operands and operations this is the exact result, rounded once to the nearest
pattern of half precision.
-/

set_option autoImplicit false

namespace VerdictMachine

open Rounding Format

/-! ## Data through a wider format -/

/-- A datum with a magnitude of half precision, if it has one. -/
def HalfDatum : Datum → Prop
  | .finite _ x => HalfSize x
  | _ => True

/-- A datum whose magnitude may be rounded to single precision first. -/
def SteadyDatum : Datum → Prop
  | .finite _ x => Steady x
  | _ => True

theorem decode_encode_nan_binary32 : binary32.decode (binary32.encode .nan) = .nan := by decide

theorem decode_encode_infinity (f : Format) (s : Bool) :
    f.decode (f.encode (.infinity s)) = .infinity s := by
  rw [encode, decode_withSign s le_rfl, if_neg (Nat.lt_irrefl _)]

theorem decode_encode_finite {x : Rat} {q : Nat} (h : binary32.Encloses q x) (hx : 0 ≤ x)
    (hx' : x ≤ 2 ^ (127 : Int)) (s : Bool) :
    binary32.decode (binary32.encode (.finite s x)) = .finite s (binary32.magnitude q) := by
  have hq := lt_infinityBits_of_le h hx'
  rw [encode, h.encodeMagnitude_eq (by decide) hx, Nat.min_eq_left hq.le, decode_withSign s hq.le,
    if_pos hq]

theorem decode_encode_halfDatum {d : Datum} (h : HalfDatum d) :
    binary32.decode (binary32.encode d) = d := by
  cases d with
  | nan => exact decode_encode_nan_binary32
  | infinity s => exact decode_encode_infinity binary32 s
  | finite s x =>
    obtain ⟨q, rfl⟩ := HalfSize.exists_magnitude h
    exact decode_encode_finite (encloses_magnitude q) (HalfSize.nonneg h) (HalfSize.le h) s

theorem halfDatum_decode (a : Nat) : HalfDatum (binary16.decode a) := by
  rw [decode_eq]
  split_ifs with hlt
  · exact halfSize_magnitude hlt
  · trivial
  · trivial

theorem encode_through {d : Datum} (h : SteadyDatum d) :
    binary16.encode (binary32.decode (binary32.encode d)) = binary16.encode d := by
  cases d with
  | nan => rw [decode_encode_nan_binary32]
  | infinity s => rw [decode_encode_infinity]
  | finite s x =>
    have hx := Steady.nonneg h
    rcases h with rfl | ⟨hlow, hhigh, hclear⟩
    · have hzero : binary32.Encloses 0 0 := binary32.magnitude_zero ▸ encloses_magnitude 0
      rw [decode_encode_finite hzero hx (by positivity), magnitude_zero]
    · obtain ⟨q, hq, -⟩ := exists_encloses (f := binary32) (by decide) hx
      rw [decode_encode_finite hq hx hhigh, encode, encode, encodeMagnitude_through hq hlow hclear]

/-! ## The operations -/

theorem HalfDatum.neg {d : Datum} (h : HalfDatum d) : HalfDatum d.neg := by
  cases d with
  | nan => trivial
  | infinity s => trivial
  | finite s x => exact h

theorem HalfDatum.steady_add {d e : Datum} (hd : HalfDatum d) (he : HalfDatum e) :
    SteadyDatum (d.add e) := by
  fun_cases Datum.add d e with
  | case7 s x t y sum hzero => exact .inl rfl
  | case8 s x t y sum hzero hneg => exact abs_of_neg hneg ▸ HalfSize.steady_sum hd he s t
  | case9 s x t y sum hzero hneg =>
    exact abs_of_nonneg (le_of_not_gt hneg) ▸ HalfSize.steady_sum hd he s t
  | _ => trivial

theorem HalfDatum.steady_mul {d e : Datum} (hd : HalfDatum d) (he : HalfDatum e) :
    SteadyDatum (d.mul e) := by
  fun_cases Datum.mul d e with
  | case8 s x t y => exact HalfSize.steady_mul hd he
  | _ => trivial

theorem HalfDatum.steady_div {d e : Datum} (hd : HalfDatum d) (he : HalfDatum e) :
    SteadyDatum (d.div e) := by
  fun_cases Datum.div d e with
  | case5 s x t => exact .inl rfl
  | case8 s x t y hy => exact HalfSize.steady_div hd he hy
  | _ => trivial

theorem HalfDatum.steady_apply (op : FloatOp) {d e : Datum} (hd : HalfDatum d)
    (he : HalfDatum e) : SteadyDatum (op.apply d e) := by
  cases op with
  | add => exact hd.steady_add he
  | sub => exact hd.steady_add he.neg
  | mul => exact hd.steady_mul he
  | div => exact hd.steady_div he

/-! ## On a host -/

section

variable {host : FloatUnit}

theorem FloatUnit.Conforms.decode_widen (h : host.Conforms) (a : UInt16) :
    binary32.decode (host.widen a).toNat = binary16.decode a.toNat :=
  ((h.widen a).decode_eq (by decide)).trans (decode_encode_halfDatum (halfDatum_decode _))

/-- Computing in single precision and rounding to half precision is the operation of half
precision. -/
theorem FloatUnit.Conforms.writes_half (h : host.Conforms) (op : FloatOp) (a b : UInt16) :
    ∃ d, binary16.Writes d (host.narrow (host.single op (host.widen a) (host.widen b))).toNat ∧
      binary16.encode d = binary16.arith op a.toNat b.toNat := by
  have hsingle := h.single op (host.widen a) (host.widen b)
  rw [h.decode_widen, h.decode_widen] at hsingle
  have hsteady := (halfDatum_decode a.toNat).steady_apply op (halfDatum_decode b.toNat)
  refine ⟨_, h.narrow _, ?_⟩
  rw [hsingle.decode_eq (by decide)]
  exact encode_through hsteady

theorem FloatBank.toNat_arithOn (h : host.Conforms) (bank : FloatBank) (op : FloatOp)
    (x y : UInt64) :
    (bank.arithOn host op x y).toNat =
      bank.format.arith op (bank.pattern x) (bank.pattern y) := by
  cases bank with
  | f16 =>
    obtain ⟨d, hd, hcode⟩ := h.writes_half op x.toUInt16 y.toUInt16
    rw [UInt64.toNat_toUInt16, UInt64.toNat_toUInt16] at hcode
    have hheld : (FloatBank.f16.arithOn host op x y).toNat = binary16.encode d :=
      toNat_canonical hd
    exact hheld.trans hcode
  | f32 =>
    have hsingle := h.single op x.toUInt32 y.toUInt32
    rw [UInt64.toNat_toUInt32, UInt64.toNat_toUInt32] at hsingle
    exact toNat_canonical hsingle
  | f64 =>
    have hpattern (z : UInt64) : FloatBank.f64.pattern z = z.toNat := Nat.mod_eq_of_lt z.toNat_lt
    rw [hpattern, hpattern]
    exact toNat_canonical (h.double op x y)

theorem FloatBank.arithOn_eq_arith (h : host.Conforms) (bank : FloatBank) (op : FloatOp)
    (x y : UInt64) : bank.arithOn host op x y = bank.arith op x y := by
  apply UInt64.toNat_inj.mp
  rw [arith, toNat_arithOn h, toNat_arithOn FloatUnit.conforms_exact]

end

/-! ## One rounding of the exact result -/

/-- The datum of a rational, for which a zero needs a sign of its own. -/
def Datum.ofRat (zeroSign : Bool) (q : Rat) : Datum :=
  .finite (if q = 0 then zeroSign else decide (q < 0)) |q|

namespace FloatOp

def exact : FloatOp → Rat → Rat → Rat
  | .add, u, v => u + v
  | .sub, u, v => u - v
  | .mul, u, v => u * v
  | .div, u, v => u / v

/-- The sign of a result that is zero. -/
def zeroSign : FloatOp → Bool → Bool → Bool
  | .add, s, t => s && t
  | .sub, s, t => s && !t
  | .mul, s, t => s != t
  | .div, s, t => s != t

/-- The table of results before they are rounded, by the kinds of the operands. Two numbers give
the exact rational, unless one is divided by zero. -/
def table (op : FloatOp) : Datum → Datum → Datum
  | .nan, _ | _, .nan => .nan
  | .finite s x, .finite t y =>
    if op = .div ∧ y = 0 then if x = 0 then .nan else .infinity (s != t)
    else .ofRat (op.zeroSign s t) (op.exact (Datum.signed s x) (Datum.signed t y))
  | .infinity s, .finite t y =>
    match op with
    | .add | .sub => .infinity s
    | .mul => if y = 0 then .nan else .infinity (s != t)
    | .div => .infinity (s != t)
  | .finite s x, .infinity t =>
    match op with
    | .add => .infinity t
    | .sub => .infinity !t
    | .mul => if x = 0 then .nan else .infinity (s != t)
    | .div => .finite (s != t) 0
  | .infinity s, .infinity t =>
    match op with
    | .add => if s = t then .infinity s else .nan
    | .sub => if s = t then .nan else .infinity s
    | .mul => .infinity (s != t)
    | .div => .nan

end FloatOp

theorem Datum.add_finite (s t : Bool) (x y : Rat) :
    Datum.add (.finite s x) (.finite t y) = .ofRat (s && t) (signed s x + signed t y) := by
  unfold Datum.ofRat
  change (if signed s x + signed t y = 0 then _ else _) = _
  generalize signed s x + signed t y = sum
  split_ifs with hzero hneg
  · rw [hzero, abs_zero]
  · rw [abs_of_neg hneg, decide_eq_true hneg]
  · rw [abs_of_nonneg (le_of_not_gt hneg), decide_eq_false hneg]

theorem Datum.ofRat_signed (s : Bool) {x : Rat} (hx : 0 ≤ x) :
    Datum.ofRat s (signed s x) = .finite s x := by
  unfold Datum.ofRat
  rcases hx.eq_or_lt with rfl | hpos
  · cases s <;> simp [signed]
  · cases s with
    | false => simp [signed, hpos.ne', hpos.le]
    | true => simp [signed, hpos.ne', hpos, hpos.le]

namespace FloatOp

theorem apply_finite (op : FloatOp) (s t : Bool) {x y : Rat} (hx : 0 ≤ x) (hy : 0 ≤ y) :
    op.apply (.finite s x) (.finite t y) = op.table (.finite s x) (.finite t y) := by
  cases op with
  | add => exact Datum.add_finite s t x y
  | sub =>
    have hneg : Datum.signed (!t) y = -Datum.signed t y := by cases t <;> simp [Datum.signed]
    rw [table, if_neg (by simp), exact, zeroSign, sub_eq_add_neg, ← hneg]
    exact Datum.add_finite s (!t) x y
  | mul =>
    have hsign : Datum.signed s x * Datum.signed t y = Datum.signed (s != t) (x * y) := by
      cases s <;> cases t <;> simp [Datum.signed]
    rw [table, if_neg (by simp), exact, zeroSign, hsign, Datum.ofRat_signed _ (mul_nonneg hx hy)]
    rfl
  | div =>
    have hsign : Datum.signed s x / Datum.signed t y = Datum.signed (s != t) (x / y) := by
      cases s <;> cases t <;> simp [Datum.signed, div_neg, neg_div]
    rw [table, exact, zeroSign, hsign, Datum.ofRat_signed _ (div_nonneg hx hy)]
    simp only [true_and]
    rfl

theorem apply_eq_table (op : FloatOp) {d e : Datum} (hd : HalfDatum d) (he : HalfDatum e) :
    op.apply d e = op.table d e := by
  cases d with
  | nan => cases op <;> rfl
  | infinity s =>
    cases e with
    | nan => cases op <;> rfl
    | infinity t => cases op <;> cases s <;> cases t <;> rfl
    | finite t y => cases op <;> rfl
  | finite s x =>
    cases e with
    | nan => cases op <;> rfl
    | infinity t => cases op <;> rfl
    | finite t y => exact op.apply_finite s t (HalfSize.nonneg hd) (HalfSize.nonneg he)

end FloatOp

namespace Format

/-- A pattern is the nearest one to a datum, where a magnitude beyond the format is infinite. -/
inductive Rounded (f : Format) : Datum → Nat → Prop
  | nan : f.Rounded .nan f.quietNan
  | infinity (s : Bool) : f.Rounded (.infinity s) (f.withSign s f.infinityBits)
  | finite (s : Bool) {x : Rat} {p : Nat} (h : f.Nearest x p) :
    f.Rounded (.finite s x) (f.withSign s (min p f.infinityBits))

end Format

theorem rounded_encode {d : Datum} (h : SteadyDatum d) :
    binary16.Rounded d (binary16.encode d) := by
  cases d with
  | nan => exact .nan
  | infinity s => exact .infinity s
  | finite s x =>
    obtain ⟨p, hp, hcode⟩ := exists_encloses (f := binary16) (by decide) (Steady.nonneg h)
    rw [encode, hcode]
    exact .finite s hp.nearest

/-- Half-precision arithmetic rounds once. The result is that of the operation carried out in half
precision itself: the nearest pattern to the exact result, a tie going to the even one, and one
pattern for all that is no number. Every conforming host gives it. -/
theorem FloatBank.half_arithmetic_rounds_once (op : FloatOp) (a b : UInt64) :
    let left := binary16.decode (FloatBank.f16.pattern a)
    let right := binary16.decode (FloatBank.f16.pattern b)
    let result := FloatBank.f16.arith op a b
    result.toNat = binary16.arith op (FloatBank.f16.pattern a) (FloatBank.f16.pattern b) ∧
      binary16.Rounded (op.table left right) result.toNat ∧
      (op.table left right = .nan → result = 0x7E00) ∧
      ∀ host : FloatUnit, host.Conforms → FloatBank.f16.arithOn host op a b = result := by
  intro left right result
  have hleft : HalfDatum left := halfDatum_decode _
  have hright : HalfDatum right := halfDatum_decode _
  have hresult : result.toNat =
      binary16.arith op (FloatBank.f16.pattern a) (FloatBank.f16.pattern b) :=
    toNat_arithOn FloatUnit.conforms_exact .f16 op a b
  rw [← op.apply_eq_table hleft hright]
  refine ⟨hresult, ?_, ?_, fun host h => arithOn_eq_arith h .f16 op a b⟩
  · rw [hresult]
    exact rounded_encode (hleft.steady_apply op hright)
  · intro hnan
    apply UInt64.toNat_inj.mp
    rw [hresult, Format.arith, hnan]
    rfl

/-- A unit that sets the sign of what is no number. -/
def FloatUnit.signing : FloatUnit :=
  { exact with
    single := fun op a b =>
      if binary32.isNan (exact.single op a b).toNat then 0xFFC00000 else exact.single op a b }

theorem FloatUnit.conforms_signing : signing.Conforms where
  single op a b := by
    have hexact := conforms_exact.single op a b
    dsimp only [signing]
    split_ifs with hnan
    · cases hd : op.apply (binary32.decode a.toNat) (binary32.decode b.toNat) with
      | nan => exact .nan (by decide)
      | _ =>
        have hread := hexact.decode_eq (by decide)
        rw [isNan_iff.mp hnan] at hread
        exact absurd hread.symm (decode_encode_ne_nan (by rw [hd]; nofun))
    · exact hexact
  double := conforms_exact.double
  widen := conforms_exact.widen
  narrow := conforms_exact.narrow

/-- One and half a unit of its last place: the sum is a midpoint, and goes to the even side. Zero by
zero is no number, whatever the signs, also on a host that sets the sign of what is none. -/
theorem FloatBank.half_arithmetic_rounds_once_tie :
    binary16.Rounded (.finite false (1 + 1 / 2048))
        (FloatBank.f16.arith .add 0x3C00 0x1000).toNat ∧
      FloatBank.f16.arith .add 0x3C00 0x1000 = 0x3C00 ∧
      FloatBank.f16.arith .div 0x8000 0x0000 = 0x7E00 ∧
      FloatUnit.signing.Conforms ∧ FloatUnit.signing.single .div 0x80000000 0 = 0xFFC00000 ∧
      FloatBank.f16.arithOn .signing .div 0x8000 0x0000 = 0x7E00 := by
  have hsum : FloatOp.table .add (binary16.decode (FloatBank.f16.pattern 0x3C00))
      (binary16.decode (FloatBank.f16.pattern 0x1000)) = .finite false (1 + 1 / 2048) := by
    decide +kernel
  obtain ⟨-, hrounded, -, -⟩ := half_arithmetic_rounds_once .add 0x3C00 0x1000
  obtain ⟨-, -, hnan, hhost⟩ := half_arithmetic_rounds_once .div 0x8000 0x0000
  have hzero : FloatBank.f16.arith .div 0x8000 0x0000 = 0x7E00 := hnan (by decide +kernel)
  exact ⟨hsum ▸ hrounded, by decide +kernel, hzero, FloatUnit.conforms_signing, by decide +kernel,
    (hhost _ FloatUnit.conforms_signing).trans hzero⟩

end VerdictMachine

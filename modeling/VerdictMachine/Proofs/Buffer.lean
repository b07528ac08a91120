import Mathlib.Data.List.GetD
import VerdictMachine.Proofs.Representation

/-!
# Words in a buffer of sixteen limbs

A machine may keep words of all widths in buffers of one size. There the limbs
beyond a width are zero, an operation may run over all sixteen limbs or over
those of the width, and its result is cleared afterwards. Each operation on
words is the operation on their buffers. Division has no loop over limbs: it is
made of a shift by one place, a bit that is set, a comparison and a difference.
-/

set_option autoImplicit false

namespace VerdictMachine

namespace Limbs

variable {ls : Limbs} {k : Nat}

def padded (k : Nat) (ls : Limbs) : Limbs := ls ++ List.replicate (k - ls.length) 0

theorem value_padded (k : Nat) (ls : Limbs) : (ls.padded k).value = ls.value := by
  rw [padded, value_append, value_replicate_zero, Nat.mul_zero, Nat.add_zero]

theorem length_padded (h : ls.length ≤ k) : (ls.padded k).length = k := by
  rw [padded, List.length_append, List.length_replicate, Nat.add_sub_cancel' h]

theorem isZero_padded (k : Nat) (ls : Limbs) : (ls.padded k).isZero = ls.isZero := by
  rw [Bool.eq_iff_iff, isZero_iff, isZero_iff, value_padded]

theorem exceeds_padded (k : Nat) (ls : Limbs) (i : Nat) :
    (ls.padded k).exceeds i = ls.exceeds i := by
  rw [Bool.eq_iff_iff, exceeds_iff, exceeds_iff, value_padded]

theorem isSingleBit_padded (h : ls.length ≤ k) {i : Nat} (hi : i < 64 * ls.length) :
    (ls.padded k).isSingleBit i = ls.isSingleBit i := by
  have hpadded : i < 64 * (ls.padded k).length := by
    rw [length_padded h]
    omega
  rw [Bool.eq_iff_iff, isSingleBit_iff _ hpadded, isSingleBit_iff _ hi, value_padded]

theorem value_take (k : Nat) (ls : Limbs) :
    Limbs.value (ls.take k) = ls.value % 2 ^ (64 * k) := by
  by_cases hk : k ≤ ls.length
  · have hlen : (ls.take k).length = k := List.length_take_of_le hk
    have hlt := value_lt (ls.take k)
    have hsplit := value_append (ls.take k) (ls.drop k)
    rw [List.take_append_drop, hlen] at hsplit
    rw [hlen] at hlt
    rw [hsplit, Nat.add_mul_mod_self_left, Nat.mod_eq_of_lt hlt]
  · have hlen : ls.length ≤ k := Nat.le_of_not_le hk
    have hlt : ls.value < 2 ^ (64 * k) := (value_lt ls).trans_le
      (Nat.pow_le_pow_right (by decide) (Nat.mul_le_mul_left 64 hlen))
    rw [List.take_of_length_le hlen, Nat.mod_eq_of_lt hlt]

theorem and_lowMask_of_le (l : UInt64) (h : 64 ≤ k) : l &&& lowMask k = l := by
  rw [lowMask_of_le h]
  exact UInt64.and_neg_one

theorem getD_fit (n w i : Nat) (ls : Limbs) :
    (ls.fit n w).getD i 0 = if i < n then ls.getD i 0 &&& lowMask (w - 64 * i) else 0 := by
  induction n generalizing w ls i with
  | zero => rfl
  | succ n ih =>
    cases i with
    | zero => cases ls <;> rfl
    | succ i =>
      have hshift : w - 64 * (i + 1) = w - 64 - 64 * i := by omega
      rw [fit, List.getD_cons_succ, ih, hshift]
      cases ls with
      | nil => simp
      | cons l ls => simp

theorem append_modEq {w : Nat} (h : w ≤ 64 * ls.length) (rest : Limbs) :
    Limbs.value (ls ++ rest) ≡ ls.value [MOD 2 ^ w] := by
  obtain ⟨c, hc⟩ := Nat.pow_dvd_pow 2 h
  rw [value_append, hc, Nat.mul_assoc, Nat.ModEq, Nat.add_mul_mod_self_left]

theorem mod_modEq {w n : Nat} (h : w ≤ n) (a : Nat) : a % 2 ^ n ≡ a [MOD 2 ^ w] :=
  (Nat.mod_modEq a _).of_dvd (Nat.pow_dvd_pow 2 h)

theorem length_add {as bs : Limbs} (hl : as.length = bs.length) (carry : Bool) :
    (as.add bs carry).1.length = as.length := by
  induction as generalizing bs carry with
  | nil => rfl
  | cons a as ih =>
    cases bs with
    | nil => cases hl
    | cons b bs => exact congrArg (· + 1) (ih (Nat.succ.inj hl) _)

theorem length_ofBytes (n : Nat) (bs : Bytes) : (Limbs.ofBytes n bs).length = n := by
  induction n generalizing bs with
  | zero => rfl
  | succ n ih => rw [ofBytes, List.length_cons, ih]

theorem length_fill (n w : Nat) (ls : Limbs) : (ls.fill n w).length = n := by
  induction n generalizing w ls with
  | zero => rfl
  | succ n ih => rw [fill, List.length_cons, ih]

theorem length_shiftUp (k : Nat) (below : UInt64) (ls : Limbs) :
    (shiftUp k below ls).length = ls.length := by
  induction ls generalizing below with
  | nil => rfl
  | cons l ls ih => rw [shiftUp, List.length_cons, ih, List.length_cons]

theorem length_shiftDown (k : Nat) (ls : Limbs) : (shiftDown k ls).length = ls.length := by
  induction ls with
  | nil => rfl
  | cons l ls ih => rw [shiftDown, List.length_cons, ih, List.length_cons]

theorem getElem_padded {i : Nat} (h : i < (ls.padded k).length) :
    (ls.padded k)[i] = ls.getD i 0 := by
  unfold padded at h ⊢
  by_cases hi : i < ls.length
  · rw [List.getElem_append_left hi, List.getD_eq_getElem _ _ hi]
  · rw [List.getElem_append_right (Nat.le_of_not_lt hi), List.getElem_replicate,
      List.getD_eq_default _ _ (Nat.le_of_not_lt hi)]

end Limbs

namespace Word

variable {w v : Nat} {x y : Word w} {raw ls : Limbs}

def buffer (x : Word w) : Limbs := x.limbs.padded 16

/-- Masks the last limb of a width, unless the width fills it, and clears the limbs behind it. -/
def cleared (w : Nat) (raw : Limbs) : Limbs :=
  (if w % 64 = 0 then raw else raw.modify (limbCount w - 1) (· &&& Limbs.lowMask (w % 64))).mapIdx
    fun i l => if i < limbCount w then l else 0

theorem limbCount_le (hw : w ≤ 1024) : limbCount w ≤ 16 := by
  unfold limbCount
  omega

theorem length_cleared (w : Nat) (raw : Limbs) : (cleared w raw).length = raw.length := by
  unfold cleared
  split_ifs <;> simp

theorem getElem_cleared {i : Nat} (h : i < (cleared w raw).length) :
    (cleared w raw)[i] =
      if i < limbCount w then raw.getD i 0 &&& Limbs.lowMask (w - 64 * i) else 0 := by
  have hi : i < raw.length := length_cleared w raw ▸ h
  unfold cleared at h ⊢
  rw [List.getElem_mapIdx, List.getD_eq_getElem _ _ hi]
  by_cases hbelow : i < limbCount w
  · rw [if_pos hbelow, if_pos hbelow]
    unfold limbCount at hbelow ⊢
    -- The mask of a limb is full, except for that of the last one.
    split_ifs with hfull
    · rw [Limbs.and_lowMask_of_le _ (by omega)]
    · rw [List.getElem_modify]
      split_ifs with hlast
      · rw [show w - 64 * i = w % 64 by omega]
      · rw [Limbs.and_lowMask_of_le _ (by omega)]
  · rw [if_neg hbelow, if_neg hbelow]

/-- Cutting a list of limbs to a width is clearing it in the buffer. -/
theorem buffer_ofLimbs (hw : w ≤ 1024) (hraw : raw.length = 16) :
    (ofLimbs w raw).buffer = cleared w raw := by
  have hfit : (raw.fit (limbCount w) w).length ≤ 16 := by
    rw [Limbs.length_fit]
    exact limbCount_le hw
  apply List.ext_getElem
  · rw [length_cleared, hraw]
    exact Limbs.length_padded hfit
  · intro i h h'
    rw [getElem_cleared, ← Limbs.getD_fit]
    exact Limbs.getElem_padded h

theorem buffer_eq_cleared (hw : w ≤ 1024) (hraw : raw.length = 16)
    (h : ls.value ≡ raw.value [MOD 2 ^ w]) : (ofLimbs w ls).buffer = cleared w raw := by
  rw [← buffer_ofLimbs hw hraw]
  congr 1
  apply (canonical_ofLimbs w ls).eq_of_toNat (canonical_ofLimbs w raw)
  rw [toNat_cut, toNat_cut]
  exact h

theorem buffer_padded (hw : w ≤ 1024) (h : ls.length ≤ 16) :
    (ofLimbs w ls).buffer = cleared w (ls.padded 16) := by
  apply buffer_eq_cleared hw (Limbs.length_padded h)
  rw [Limbs.value_padded]

/-! ## Reading a buffer -/

theorem value_buffer (x : Word w) : x.buffer.value = x.toNat := Limbs.value_padded 16 x.limbs

theorem Canonical.length_buffer (hx : x.Canonical) (hw : w ≤ 1024) : x.buffer.length = 16 :=
  Limbs.length_padded (hx.length_limbs ▸ limbCount_le hw)

theorem Canonical.take_buffer (hx : x.Canonical) : x.buffer.take (limbCount w) = x.limbs := by
  rw [buffer, Limbs.padded, ← hx.length_limbs, List.take_left]

theorem Canonical.buffer_inj (hx : x.Canonical) (hy : y.Canonical) :
    x.buffer = y.buffer ↔ x = y := by
  constructor
  · intro h
    apply hx.eq_of_toNat hy
    rw [← value_buffer, h, value_buffer]
  · intro h
    rw [h]

theorem isZero_buffer (x : Word w) : x.buffer.isZero = x.isZero := Limbs.isZero_padded 16 x.limbs

theorem Canonical.bit_buffer (hx : x.Canonical) (i : Nat) : x.buffer.bit i = x.bit i := by
  rw [Limbs.bit_eq_testBit, value_buffer, hx.bit_eq_testBit]

theorem Canonical.order_buffer (hx : x.Canonical) (hy : y.Canonical) (hw : w ≤ 1024) :
    x.buffer.order y.buffer = x.order y := by
  have hlen := (hx.length_buffer hw).trans (hy.length_buffer hw).symm
  rw [Limbs.order_eq_compare hlen, value_buffer, value_buffer, hx.order_eq_compare hy]

theorem Canonical.toBytes_buffer (hx : x.Canonical) (hw : w ≤ 1024) :
    x.buffer.toBytes.take (byteCount w) = x.toBytes := by
  have hle : byteCount w ≤ 8 * 16 := by
    unfold byteCount
    omega
  rw [Limbs.toBytes_eq, hx.length_buffer hw, Bytes.take_ofNatLE hle, value_buffer,
    toBytes_eq hx]

/-! ## Operations over the whole buffer -/

theorem buffer_allOnes (hw : w ≤ 1024) :
    (allOnes w).buffer = cleared w (List.replicate 16 0xFFFFFFFFFFFFFFFF) := by
  apply buffer_eq_cleared hw List.length_replicate
  rw [← Nat.add_sub_cancel' (limbCount_le hw), List.replicate_add]
  apply (Limbs.append_modEq _ _).symm
  rw [List.length_replicate]
  exact le_limbCount w

theorem buffer_ofBytes (hw : w ≤ 1024) (bs : Bytes) :
    (ofBytes w bs).buffer = cleared w (Limbs.ofBytes 16 bs) := by
  have hvalue {n : Nat} (h : w ≤ 64 * n) :
      (Limbs.ofBytes n bs).value ≡ Bytes.toNatLE bs [MOD 2 ^ w] := by
    rw [Limbs.value_ofBytes, Nat.one_shiftLeft]
    exact Limbs.mod_modEq h _
  exact buffer_eq_cleared hw (Limbs.length_ofBytes 16 bs)
    ((hvalue (le_limbCount w)).trans (hvalue hw).symm)

theorem Canonical.buffer_setBit (hx : x.Canonical) (hw : w ≤ 1024) {i : Nat} (hi : i < w) :
    (x.setBit i).buffer = x.buffer.setBit i := by
  have hlen := hx.length_buffer hw
  apply Limbs.eq_of_value_eq
  · rw [(canonical_setBit hx hi).length_buffer hw, Limbs.length_setBit, hlen]
  · rw [Limbs.value_setBit _ (by omega), value_buffer, value_buffer]
    exact Limbs.value_setBit _ (lt_limbs hi hx)

theorem Canonical.buffer_complement (hx : x.Canonical) (hw : w ≤ 1024) :
    x.complement.buffer = cleared w (x.buffer.map (~~~·)) := by
  apply buffer_eq_cleared hw (by rw [List.length_map, hx.length_buffer hw])
  rw [buffer, Limbs.padded, List.map_append]
  apply (Limbs.append_modEq _ _).symm
  rw [List.length_map, hx.length_limbs]
  exact le_limbCount w

/-- Conjunction, disjunction and exclusive disjunction. -/
theorem Canonical.buffer_zipWith (hx : x.Canonical) (hy : y.Canonical) (hw : w ≤ 1024)
    (f : UInt64 → UInt64 → UInt64) :
    (ofLimbs w (List.zipWith f x.limbs y.limbs)).buffer =
      cleared w (List.zipWith f x.buffer y.buffer) := by
  have hlen : x.limbs.length = y.limbs.length := hx.length_limbs.trans hy.length_limbs.symm
  apply buffer_eq_cleared hw
  · rw [List.length_zipWith, hx.length_buffer hw, hy.length_buffer hw, Nat.min_self]
  · rw [buffer, buffer, Limbs.padded, Limbs.padded, List.zipWith_append hlen]
    apply (Limbs.append_modEq _ _).symm
    rw [List.length_zipWith, ← hlen, Nat.min_self, hx.length_limbs]
    exact le_limbCount w

theorem Canonical.buffer_shiftLeft (hx : x.Canonical) (hw : w ≤ 1024) (k : Nat) :
    (ofLimbs w (x.limbs.shiftLeft k)).buffer =
      cleared w ((x.buffer.shiftLeft k).take 16) := by
  have hlen := hx.length_buffer hw
  have hshifted : (x.buffer.shiftLeft k).length = k / 64 + 16 := by
    rw [Limbs.shiftLeft, Limbs.length_shiftUp, List.length_append, List.length_replicate, hlen]
  apply buffer_eq_cleared hw (List.length_take_of_le (by omega))
  rw [Limbs.value_take, Limbs.value_shiftLeft, Limbs.value_shiftLeft, value_buffer, hlen]
  have hleft : w ≤ 64 * (k / 64 + x.limbs.length) := by
    rw [hx.length_limbs]
    exact (le_limbCount w).trans (by omega)
  have hbits : w ≤ 64 * 16 := hw
  calc x.toNat * 2 ^ k % 2 ^ (64 * (k / 64 + x.limbs.length))
      ≡ x.toNat * 2 ^ k [MOD 2 ^ w] := Limbs.mod_modEq hleft _
    _ ≡ x.toNat * 2 ^ k % 2 ^ (64 * (k / 64 + 16)) [MOD 2 ^ w] :=
      (Limbs.mod_modEq (by omega) _).symm
    _ ≡ _ [MOD 2 ^ w] := (Limbs.mod_modEq hbits _).symm

theorem Canonical.buffer_shiftRight (hx : x.Canonical) (hw : w ≤ 1024) (k : Nat) :
    (ofLimbs w (x.limbs.shiftRight k)).buffer =
      cleared w ((x.buffer.shiftRight k).padded 16) := by
  have hlen : (x.buffer.shiftRight k).length ≤ 16 := by
    rw [Limbs.shiftRight, Limbs.length_shiftDown, List.length_drop, hx.length_buffer hw]
    exact Nat.sub_le _ _
  apply buffer_eq_cleared hw (Limbs.length_padded hlen)
  rw [Limbs.value_padded, Limbs.value_shiftRight, Limbs.value_shiftRight, value_buffer]
  rfl

theorem Canonical.buffer_resize (hx : x.Canonical) (hw : w ≤ 1024) (hv : v ≤ 1024)
    (signed : Bool) :
    (x.resize v signed).buffer =
      cleared v (if signed && w < v && x.signBit then x.buffer.fill 16 w else x.buffer) := by
  unfold resize
  split_ifs with hfill
  · apply buffer_eq_cleared hv (Limbs.length_fill 16 w x.buffer)
    have hwv : w ≤ 64 * limbCount v := by
      rw [Bool.and_eq_true, Bool.and_eq_true, decide_eq_true_iff] at hfill
      exact hfill.1.2.le.trans (le_limbCount v)
    have hshort := Limbs.value_fill (limbCount v) w x.limbs hwv
    have hlong := Limbs.value_fill 16 w x.buffer hw
    rw [value_buffer] at hlong
    apply Nat.ModEq.add_right_cancel' (2 ^ w)
    rw [hshort, hlong]
    have hzero {n : Nat} (h : v ≤ n) : 2 ^ n ≡ 0 [MOD 2 ^ v] :=
      Nat.modEq_zero_iff_dvd.mpr (Nat.pow_dvd_pow 2 h)
    have hbits : v ≤ 64 * 16 := hv
    exact ((hzero (le_limbCount v)).trans (hzero hbits).symm).add_left _
  · apply buffer_eq_cleared hv (hx.length_buffer hw)
    rw [value_buffer]
    rfl

/-! ## Operations over the limbs of the width -/

theorem Canonical.buffer_add (hx : x.Canonical) (hy : y.Canonical) (hw : w ≤ 1024)
    (signed : Bool) :
    let sum := Limbs.add (x.buffer.take (limbCount w)) (y.buffer.take (limbCount w)) false
    (x.add y signed).1.buffer = cleared w (sum.1.padded 16) ∧
      (x.add y false).2 = (sum.2 || (sum.1.padded 16).exceeds w) := by
  have hlen : (x.limbs.add y.limbs false).1.length ≤ 16 := by
    rw [Limbs.length_add (hx.length_limbs.trans hy.length_limbs.symm), hx.length_limbs]
    exact limbCount_le hw
  rw [hx.take_buffer, hy.take_buffer]
  refine ⟨buffer_padded hw hlen, ?_⟩
  rw [Limbs.exceeds_padded]
  rfl

theorem Canonical.buffer_sub (hx : x.Canonical) (hy : y.Canonical) (hw : w ≤ 1024)
    (signed : Bool) :
    let difference := Limbs.sub (x.buffer.take (limbCount w)) (y.buffer.take (limbCount w)) false
    (x.sub y signed).1.buffer = cleared w (difference.1.padded 16) ∧
      (x.sub y false).2 = difference.2 := by
  have hlen : (x.limbs.sub y.limbs false).1.length ≤ 16 := by
    rw [Limbs.length_sub (hx.length_limbs.trans hy.length_limbs.symm), hx.length_limbs]
    exact limbCount_le hw
  rw [hx.take_buffer, hy.take_buffer]
  exact ⟨buffer_padded hw hlen, rfl⟩

/-- The product has twice as many limbs, and its lower half is the result. -/
theorem Canonical.buffer_mul (hx : x.Canonical) (hy : y.Canonical) (hw : w ≤ 1024)
    (signed : Bool) :
    let product :=
      (Limbs.mul (x.buffer.take (limbCount w)) (y.buffer.take (limbCount w))).padded 32
    (x.mul y signed).1.buffer = cleared w (List.take 16 product) ∧
      (x.mul y false).2 = product.exceeds w := by
  have hlen : (x.limbs.mul y.limbs).length ≤ 32 := by
    have hcount := limbCount_le hw
    rw [Limbs.length_mul, hx.length_limbs, hy.length_limbs]
    omega
  rw [hx.take_buffer, hy.take_buffer]
  refine ⟨buffer_eq_cleared hw (List.length_take_of_le ?_) ?_, ?_⟩
  · rw [Limbs.length_padded hlen]
    decide
  · have hbits : w ≤ 64 * 16 := hw
    rw [Limbs.value_take, Limbs.value_padded]
    exact (Limbs.mod_modEq hbits _).symm
  · rw [Limbs.exceeds_padded]
    rfl

theorem Canonical.buffer_mul_signed (hx : x.Canonical) (hy : y.Canonical) (hpos : 0 < w)
    (hw : w ≤ 1024) :
    let size :=
      (Limbs.mul (x.magnitude.buffer.take (limbCount w))
        (y.magnitude.buffer.take (limbCount w))).padded 32
    (x.mul y true).2 =
      (size.exceeds (w - 1) && !(x.signBit != y.signBit && size.isSingleBit (w - 1))) := by
  have hcx := canonical_magnitude hx
  have hcy := canonical_magnitude hy
  have hlen : (x.magnitude.limbs.mul y.magnitude.limbs).length = limbCount w + limbCount w := by
    rw [Limbs.length_mul, hcx.length_limbs, hcy.length_limbs]
  have hcount := limbCount_le hw
  have htop := le_limbCount w
  dsimp only
  rw [hcx.take_buffer, hcy.take_buffer, Limbs.exceeds_padded,
    Limbs.isSingleBit_padded (by omega) (by omega)]
  rfl

end Word

end VerdictMachine

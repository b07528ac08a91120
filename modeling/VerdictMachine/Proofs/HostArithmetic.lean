import VerdictMachine.Bank
import VerdictMachine.Proofs.NearestEven

/-!
# Arithmetic on a host

A unit conforms if each of its results is the nearest pattern to the exact
one, and any pattern for no number where the exact result is none. Which of
these it writes is not laid down, and the banks replace it.
-/

set_option autoImplicit false

namespace VerdictMachine

namespace Format

variable {f : Format} {d : Datum} {raw : Nat}

theorem isNan_iff : f.isNan raw = true ↔ f.decode raw = .nan := by
  unfold isNan
  rw [width_sub_one, Nat.one_shiftLeft, decode_eq, decide_eq_true_iff]
  split_ifs with hbelow heq
  · exact iff_of_false (Nat.lt_asymm hbelow) nofun
  · exact iff_of_false (by omega) nofun
  · exact iff_of_true (by omega) rfl

theorem encodeMagnitude_le (f : Format) (x : Rat) : f.encodeMagnitude x ≤ f.infinityBits := by
  unfold encodeMagnitude
  split_ifs
  · exact Nat.zero_le _
  · exact Nat.min_le_right _ _

theorem quietNan_bounds (hf : 0 < f.fractionBits) :
    f.infinityBits < f.quietNan ∧ f.quietNan < 2 ^ (f.exponentBits + f.fractionBits) := by
  have hunit : 2 ^ (f.fractionBits - 1) < 2 ^ f.fractionBits :=
    Nat.pow_lt_pow_right (by decide) (by omega)
  have hsplit := Nat.pow_add 2 f.exponentBits f.fractionBits
  have hone : 2 ^ f.fractionBits ≤ 2 ^ f.exponentBits * 2 ^ f.fractionBits :=
    Nat.le_mul_of_pos_left _ (Nat.two_pow_pos _)
  have hpos := Nat.two_pow_pos (f.fractionBits - 1)
  unfold quietNan
  rw [Nat.one_shiftLeft, infinityBits_eq, Nat.sub_mul, Nat.one_mul]
  omega

theorem decode_quietNan (hf : 0 < f.fractionBits) : f.decode f.quietNan = .nan := by
  obtain ⟨habove, hlt⟩ := quietNan_bounds hf
  rw [← isNan_iff, isNan, width_sub_one, Nat.one_shiftLeft, Nat.mod_eq_of_lt hlt]
  exact decide_eq_true habove

theorem encode_lt (hf : 0 < f.fractionBits) (d : Datum) : f.encode d < 2 ^ f.width := by
  have hwidth : 2 ^ f.width = 2 * 2 ^ (f.exponentBits + f.fractionBits) := by
    rw [← Nat.pow_succ', width]
    congr 1
    omega
  have hsign : ∀ s m, m ≤ f.infinityBits → f.withSign s m < 2 ^ f.width := by
    intro s m hm
    have hlt := f.infinityBits_lt
    unfold withSign
    rw [width_sub_one, Nat.one_shiftLeft]
    split_ifs <;> omega
  cases d with
  | nan => exact (quietNan_bounds hf).2.trans_le (by omega)
  | infinity s => exact hsign s _ le_rfl
  | finite s x => exact hsign s _ (f.encodeMagnitude_le x)

theorem decode_encode_ne_nan (hd : d ≠ .nan) : f.decode (f.encode d) ≠ .nan := by
  cases d with
  | nan => exact absurd rfl hd
  | infinity s =>
    rw [encode, decode_withSign s le_rfl]
    split_ifs <;> nofun
  | finite s x =>
    rw [encode, decode_withSign s (f.encodeMagnitude_le x)]
    split_ifs <;> nofun

/-- What may be written for a datum: the nearest pattern, or for no number any pattern of none. -/
inductive Writes (f : Format) : Datum → Nat → Prop
  | nan {raw : Nat} (h : f.decode raw = .nan) : f.Writes .nan raw
  | number {d : Datum} (h : d ≠ .nan) : f.Writes d (f.encode d)

theorem writes_of_eq (hf : 0 < f.fractionBits) (h : raw = f.encode d) : f.Writes d raw := by
  subst h
  by_cases hd : d = .nan
  · subst hd
    exact .nan (decode_quietNan hf)
  · exact .number hd

/-- Readers cannot tell what was written from the pattern that the format itself would write. -/
theorem Writes.decode_eq (h : f.Writes d raw) (hf : 0 < f.fractionBits) :
    f.decode raw = f.decode (f.encode d) := by
  cases h with
  | nan h => rw [h, encode, decode_quietNan hf]
  | number h => rfl

end Format

structure FloatUnit.Conforms (host : FloatUnit) : Prop where
  single (op : FloatOp) (a b : UInt32) :
    Format.binary32.Writes
      (op.apply (Format.binary32.decode a.toNat) (Format.binary32.decode b.toNat))
      (host.single op a b).toNat
  double (op : FloatOp) (a b : UInt64) :
    Format.binary64.Writes
      (op.apply (Format.binary64.decode a.toNat) (Format.binary64.decode b.toNat))
      (host.double op a b).toNat
  widen (a : UInt16) :
    Format.binary32.Writes (Format.binary16.decode a.toNat) (host.widen a).toNat
  narrow (a : UInt32) :
    Format.binary16.Writes (Format.binary32.decode a.toNat) (host.narrow a).toNat

open Format in
theorem FloatUnit.conforms_exact : FloatUnit.exact.Conforms where
  single op a b := writes_of_eq (by decide) (UInt32.toNat_ofNat_of_lt' (encode_lt (by decide) _))
  double op a b := writes_of_eq (by decide) (UInt64.toNat_ofNat_of_lt' (encode_lt (by decide) _))
  widen a := writes_of_eq (by decide) (UInt32.toNat_ofNat_of_lt' (encode_lt (by decide) _))
  narrow a := writes_of_eq (by decide) (UInt16.toNat_ofNat_of_lt' (encode_lt (by decide) _))

/-- Whatever was written, the bank holds the format's own pattern afterwards. -/
theorem FloatBank.toNat_canonical {b : FloatBank} {d : Datum} {raw : UInt64}
    (h : b.format.Writes d raw.toNat) : (b.canonical raw).toNat = b.format.encode d := by
  unfold canonical
  generalize hp : raw.toNat = p at h
  cases h with
  | nan h =>
    rw [if_pos (Format.isNan_iff.mpr h)]
    cases b <;> rfl
  | number h =>
    rw [if_neg fun hnan => Format.decode_encode_ne_nan h (Format.isNan_iff.mp hnan), hp]

end VerdictMachine

import VerdictMachine.Instruction.Decoding
import VerdictMachine.Instruction.Encoding
import VerdictMachine.Proofs.Spelling

/-!
# What the operand decoders accept

A decoder step succeeds exactly where the code spells the encoding of its
result, and then stands behind it. Each operand has one such equivalence, in
which only what the step checks beyond the encoding remains as a condition.
-/

set_option autoImplicit false

namespace VerdictMachine.Decoder

variable {α β : Type} {code : Region} {op : Opcode} {i j : Nat}

theorem bind_eq_ok {p : Decoder α} {f : α → Decoder β} {b : β} :
    (p >>= f) i = .ok (b, j) ↔ ∃ a k, p i = .ok (a, k) ∧ f a k = .ok (b, j) := by
  change (p i >>= fun r => f r.1 r.2) = _ ↔ _
  cases h : p i with
  | error e => simp [bind, Except.bind]
  | ok r => simp [bind, Except.bind, Prod.ext_iff]

theorem pure_eq_ok {a b : α} : (pure a : Decoder α) i = .ok (b, j) ↔ b = a ∧ j = i := by
  change Except.ok (a, i) = _ ↔ _
  simp [eq_comm]

theorem throw_eq_ok {e : DecodeError} {b : α} : (throw e : Decoder α) i = .ok (b, j) ↔ False := by
  change Except.error e = _ ↔ _
  simp

theorem byte_eq_ok {b : UInt8} :
    byte code op i = .ok (b, j) ↔ code[i]? = some b ∧ j = i + 1 := by
  unfold byte
  cases h : code[i]? with
  | none => simp
  | some c => simp [eq_comm]

theorem bytes_eq_ok {n : Nat} (hn : 0 < n) {bs : Bytes} :
    bytes code op n i = .ok (bs, j) ↔ bs.length = n ∧ code.Spells i bs ∧ j = i + n := by
  unfold bytes
  constructor
  · intro h
    split_ifs at h with hs
    · obtain ⟨rfl, rfl⟩ := Prod.mk.inj (Except.ok.inj h)
      have hl : (code.read i n).length = n := by rw [Region.length_read]; omega
      exact ⟨hl, by rw [Region.spells_iff_read, hl], rfl⟩
  · rintro ⟨rfl, hs, rfl⟩
    rw [if_pos (Region.spells_le hs (List.length_pos_iff.mp hn)),
      (Region.spells_iff_read i bs).mp hs]

theorem offset16_eq_ok {t : UInt16} :
    offset16 code op i = .ok (t, j) ↔ code.Spells i (Bytes.ofNatLE 2 t.toNat) ∧ j = i + 2 := by
  simp only [offset16, bind_eq_ok, bytes_eq_ok (by decide : 0 < 2), pure_eq_ok]
  constructor
  · rintro ⟨bs, k, ⟨hl, hs, rfl⟩, rfl, rfl⟩
    have hb := Bytes.toNatLE_lt bs
    rw [hl] at hb
    have ht : (UInt16.ofNat (Bytes.toNatLE bs)).toNat = Bytes.toNatLE bs :=
      UInt16.toNat_ofNat_of_lt' hb
    rw [ht, ← hl, Bytes.ofNatLE_toNatLE]
    exact ⟨hs, rfl⟩
  · rintro ⟨hs, rfl⟩
    refine ⟨_, _, ⟨Bytes.length_ofNatLE _ _, hs, rfl⟩, ?_, rfl⟩
    have ht : t.toNat % 1 <<< (8 * 2) = t.toNat := Nat.mod_eq_of_lt t.toNat_lt
    rw [Bytes.toNatLE_ofNatLE, ht, UInt16.ofNat_toNat]

theorem register_eq_ok {r : Register} :
    register code op i = .ok (r, j) ↔ code[i]? = some (Instruction.registerByte r) ∧ j = i + 1 := by
  simp only [register, bind_eq_ok, byte_eq_ok]
  constructor
  · rintro ⟨b, k, ⟨hb, rfl⟩, h⟩
    split_ifs at h with hr
    · obtain ⟨rfl, rfl⟩ := pure_eq_ok.mp h
      simpa [Instruction.registerByte] using hb
    · exact (throw_eq_ok.mp h).elim
  · rintro ⟨hb, rfl⟩
    have hr : (Instruction.registerByte r).toNat = r.val := by
      have := r.isLt
      simp only [Instruction.registerByte, UInt8.toNat_ofNat']
      omega
    refine ⟨_, _, ⟨hb, rfl⟩, ?_⟩
    rw [dif_pos (by rw [hr]; exact r.isLt), pure_eq_ok]
    exact ⟨Fin.ext hr.symm, rfl⟩

theorem flag_eq_ok {b : Bool} :
    flag code op i = .ok (b, j) ↔ code[i]? = some (Instruction.flagByte b) ∧ j = i + 1 := by
  simp only [flag, bind_eq_ok, byte_eq_ok]
  constructor
  · rintro ⟨c, k, ⟨hc, rfl⟩, h⟩
    split_ifs at h with h0 h1
    · obtain ⟨rfl, rfl⟩ := pure_eq_ok.mp h
      exact ⟨by rw [hc, h0]; rfl, rfl⟩
    · obtain ⟨rfl, rfl⟩ := pure_eq_ok.mp h
      exact ⟨by rw [hc, h1]; rfl, rfl⟩
    · exact (throw_eq_ok.mp h).elim
  · rintro ⟨hc, rfl⟩
    refine ⟨_, _, ⟨hc, rfl⟩, ?_⟩
    cases b <;> simp [Instruction.flagByte, pure_eq_ok]

theorem condition_eq_ok {c : Condition} :
    condition code op i = .ok (c, j) ↔ code[i]? = some c.code ∧ j = i + 1 := by
  simp only [condition, bind_eq_ok, byte_eq_ok]
  constructor
  · rintro ⟨b, k, ⟨hb, rfl⟩, h⟩
    cases hc : Condition.ofCode? b with
    | none => simp only [hc, throw_eq_ok] at h
    | some c' =>
      simp only [hc, pure_eq_ok] at h
      obtain ⟨rfl, rfl⟩ := h
      exact ⟨by rw [hb, Condition.code_ofCode? hc], rfl⟩
  · rintro ⟨hb, rfl⟩
    exact ⟨_, _, ⟨hb, rfl⟩, by simp only [Condition.ofCode?_code, pure_eq_ok, and_self]⟩

theorem bankOf_eq_ok {select : Bank → Option β} {b : β} :
    bankOf code op select i = .ok (b, j) ↔
      ∃ bank : Bank, code[i]? = some bank.code ∧ select bank = some b ∧ j = i + 1 := by
  simp only [bankOf, bind_eq_ok, byte_eq_ok]
  constructor
  · rintro ⟨c, k, ⟨hc, rfl⟩, h⟩
    cases hb : (Bank.ofCode? c).bind select with
    | none => simp only [hb, throw_eq_ok] at h
    | some x =>
      simp only [hb, pure_eq_ok] at h
      obtain ⟨rfl, rfl⟩ := h
      obtain ⟨bank, hk, hx⟩ := Option.bind_eq_some_iff.mp hb
      exact ⟨bank, by rw [hc, Bank.code_ofCode? hk], hx, rfl⟩
  · rintro ⟨bank, hc, hb, rfl⟩
    refine ⟨_, _, ⟨hc, rfl⟩, ?_⟩
    simp only [Bank.ofCode?_code, Option.bind_some, hb, pure_eq_ok, and_self]

theorem bank_eq_ok {b : Bank} :
    bank code op i = .ok (b, j) ↔ code[i]? = some b.code ∧ j = i + 1 := by
  simp [bank, bankOf_eq_ok]

theorem intBank_eq_ok {b : IntBank} :
    intBank code op i = .ok (b, j) ↔ code[i]? = some b.toBank.code ∧ j = i + 1 := by
  simp [intBank, bankOf_eq_ok, IntBank.ofBank?_eq_some_iff]

theorem floatBank_eq_ok {b : FloatBank} :
    floatBank code op i = .ok (b, j) ↔ code[i]? = some b.toBank.code ∧ j = i + 1 := by
  simp [floatBank, bankOf_eq_ok, FloatBank.ofBank?_eq_some_iff]

theorem wideBank_eq_ok {b : WideBank} :
    wideBank code op i = .ok (b, j) ↔ code[i]? = some b.toBank.code ∧ j = i + 1 := by
  simp [wideBank, bankOf_eq_ok, WideBank.ofBank?_eq_some_iff]

theorem immediateBank_eq_ok {b : Bank} :
    immediateBank code op i = .ok (b, j) ↔ code[i]? = some b.code ∧ b.bytes ≤ 32 ∧ j = i + 1 := by
  simp only [immediateBank, bankOf_eq_ok]
  constructor
  · rintro ⟨c, hc, hb, rfl⟩
    split_ifs at hb with hw
    obtain rfl := Option.some.inj hb
    exact ⟨hc, hw, rfl⟩
  · rintro ⟨hc, hw, rfl⟩
    exact ⟨b, hc, if_pos hw, rfl⟩

theorem segment_eq_ok {admits : Segment → Bool} {s : Segment} :
    segment code op admits i = .ok (s, j) ↔
      code[i]? = some (Instruction.segmentByte s) ∧ (s.selector?.isSome ∧ admits s) ∧
        j = i + 1 := by
  simp only [segment, bind_eq_ok, byte_eq_ok]
  constructor
  · rintro ⟨b, k, ⟨hb, rfl⟩, h⟩
    cases hs : (Segment.ofSelector? b).filter admits with
    | none => simp only [hs, throw_eq_ok] at h
    | some s' =>
      simp only [hs, pure_eq_ok] at h
      obtain ⟨rfl, rfl⟩ := h
      obtain ⟨hs, ha⟩ := Option.filter_eq_some_iff.mp hs
      have hc := Segment.ofSelector?_eq_some_iff.mp hs
      refine ⟨?_, ⟨?_, ha⟩, rfl⟩
      · rw [hb, Instruction.segmentByte, hc, Option.getD_some]
      · rw [hc]
        rfl
  · rintro ⟨hb, ⟨hc, ha⟩, rfl⟩
    obtain ⟨b, hc⟩ := Option.isSome_iff_exists.mp hc
    rw [Instruction.segmentByte, hc, Option.getD_some] at hb
    have hf : (Segment.ofSelector? b).filter admits = some s :=
      Option.filter_eq_some_iff.mpr ⟨Segment.ofSelector?_eq_some_iff.mpr hc, ha⟩
    exact ⟨b, _, ⟨hb, rfl⟩, by simp only [hf, pure_eq_ok, and_self]⟩

theorem absolute_eq_ok {t : UInt16} :
    absolute code op i = .ok (t, j) ↔
      code.Spells i (Bytes.ofNatLE 2 t.toNat) ∧ t.toNat < code.size ∧ j = i + 2 := by
  simp only [absolute, bind_eq_ok, offset16_eq_ok]
  constructor
  · rintro ⟨t', k, ⟨hs, rfl⟩, h⟩
    split_ifs at h with ht
    · obtain ⟨rfl, rfl⟩ := pure_eq_ok.mp h
      exact ⟨hs, ht, rfl⟩
    · exact (throw_eq_ok.mp h).elim
  · rintro ⟨hs, ht, rfl⟩
    exact ⟨t, _, ⟨hs, rfl⟩, by rw [if_pos ht, pure_eq_ok]; exact ⟨rfl, rfl⟩⟩

theorem get_eq_ok {n : Nat} : (get : Decoder Nat) i = .ok (n, j) ↔ n = i ∧ j = i := by
  change Except.ok (i, i) = _ ↔ _
  simp [eq_comm]

theorem relative_eq_ok {k : Int8} :
    relative code op i = .ok (k, j) ↔
      code[i]? = some k.toUInt8 ∧ (0 ≤ (j : Int) + k.toInt ∧ (j : Int) + k.toInt < code.size) ∧
        j = i + 1 := by
  simp only [relative, bind_eq_ok, byte_eq_ok, get_eq_ok]
  constructor
  · rintro ⟨b, _, ⟨hb, rfl⟩, n, _, ⟨rfl, rfl⟩, h⟩
    split_ifs at h with ht
    · obtain ⟨rfl, rfl⟩ := pure_eq_ok.mp h
      exact ⟨hb, ht, rfl⟩
    · exact (throw_eq_ok.mp h).elim
  · rintro ⟨hb, ht, rfl⟩
    refine ⟨_, _, ⟨hb, rfl⟩, _, _, ⟨rfl, rfl⟩, ?_⟩
    rw [Int8.toInt8_toUInt8, if_pos ht, pure_eq_ok]
    exact ⟨rfl, rfl⟩

end VerdictMachine.Decoder

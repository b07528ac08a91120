import VerdictMachine.Proofs.Operands

/-!
# Encoding and decoding are inverse

An instruction is well-formed at a place of the code if its operands are ones
that an encoding can carry and its target, if it has one, lies inside the code.
Decoding succeeds exactly where the code spells the encoding of a well-formed
instruction. Targets are integers here: a distance may lead below zero.
-/

set_option autoImplicit false

namespace VerdictMachine

namespace Instruction

/-- Where a jump or a call inside the program goes, given the offset of the next instruction. -/
def target? (next : Nat) : Instruction → Option Int
  | .jump _ (.absolute target) | .call target => some target.toNat
  | .jump _ (.relative offset) => some (next + offset.toInt)
  | _ => none

/-- Operands that an encoding can carry and the machine admits. -/
def Permitted : Instruction → Prop
  | .put bank _ imm => bank.bytes ≤ 32 ∧ ∀ b ∈ imm.bytes.drop bank.bytes, b = 0
  | .ld seg .. | .sha3Mem seg .. | .verifyMerkle _ _ seg _ => seg.readable = true
  | .st seg .. => seg.writable = true
  | .len seg _ => seg = .constant ∨ seg = .static ∨ seg = .input ∨ seg = .output
  | _ => True

structure WellFormed (size next : Nat) (i : Instruction) : Prop where
  permitted : i.Permitted
  inside : ∀ t, i.target? next = some t → 0 ≤ t ∧ t < size

theorem WellFormed.of_permitted {size next : Nat} {i : Instruction} (hp : i.Permitted)
    (ht : i.target? next = none) : i.WellFormed size next := by
  refine ⟨hp, ?_⟩
  intro t h
  rw [ht] at h
  cases h

end Instruction

namespace Segment

theorem selector_of_readable (s : Segment) (h : s.readable = true) : s.selector?.isSome := by
  cases s <;> first | rfl | cases h

theorem selector_of_writable (s : Segment) (h : s.writable = true) : s.selector?.isSome := by
  cases s <;> first | rfl | cases h

end Segment

namespace Decoder

variable {β : Type} {code : Region} {op : Opcode} {i j : Nat} {ins : Instruction}

open Instruction (Permitted)

theorem bank_two_eq_ok {p : Decoder β} {bankByte : β → UInt8}
    {f : β → Register → Register → Instruction}
    (hp : ∀ {i j : Nat} {b : β}, p i = .ok (b, j) ↔ code[i]? = some (bankByte b) ∧ j = i + 1) :
    (do return f (← p) (← register code op) (← register code op) : Decoder Instruction) i =
        .ok (ins, j) ↔
      ∃ b r s, ins = f b r s ∧ code.Spells i (bankByte b :: Instruction.registerBytes [r, s]) ∧
        j = i + 3 := by
  simp only [bind_eq_ok, pure_eq_ok, hp, register_eq_ok, and_assoc, exists_and_left, exists_eq_left]
  constructor
  · rintro ⟨b, hb, r, hr, s, hs, rfl, rfl⟩
    exact ⟨b, r, s, rfl, ⟨hb, hr, hs, trivial⟩, rfl⟩
  · rintro ⟨b, r, s, rfl, ⟨hb, hr, hs, -⟩, rfl⟩
    exact ⟨b, hb, r, hr, s, hs, rfl, rfl⟩

theorem bank_three_eq_ok {p : Decoder β} {bankByte : β → UInt8}
    {f : β → Register → Register → Register → Instruction}
    (hp : ∀ {i j : Nat} {b : β}, p i = .ok (b, j) ↔ code[i]? = some (bankByte b) ∧ j = i + 1) :
    (do return f (← p) (← register code op) (← register code op) (← register code op) :
        Decoder Instruction) i = .ok (ins, j) ↔
      ∃ b r s t, ins = f b r s t ∧
        code.Spells i (bankByte b :: Instruction.registerBytes [r, s, t]) ∧ j = i + 4 := by
  simp only [bind_eq_ok, pure_eq_ok, hp, register_eq_ok, and_assoc, exists_and_left, exists_eq_left]
  constructor
  · rintro ⟨b, hb, r, hr, s, hs, t, ht, rfl, rfl⟩
    exact ⟨b, r, s, t, rfl, ⟨hb, hr, hs, ht, trivial⟩, rfl⟩
  · rintro ⟨b, r, s, t, rfl, ⟨hb, hr, hs, ht, -⟩, rfl⟩
    exact ⟨b, hb, r, hr, s, hs, t, ht, rfl, rfl⟩

theorem three_eq_ok {f : Register → Register → Register → Instruction} :
    (do return f (← register code op) (← register code op) (← register code op) :
        Decoder Instruction) i = .ok (ins, j) ↔
      ∃ r s t, ins = f r s t ∧ code.Spells i (Instruction.registerBytes [r, s, t]) ∧ j = i + 3 := by
  simp only [bind_eq_ok, pure_eq_ok, register_eq_ok, and_assoc, exists_and_left, exists_eq_left]
  constructor
  · rintro ⟨r, hr, s, hs, t, ht, rfl, rfl⟩
    exact ⟨r, s, t, rfl, ⟨hr, hs, ht, trivial⟩, rfl⟩
  · rintro ⟨r, s, t, rfl, ⟨hr, hs, ht, -⟩, rfl⟩
    exact ⟨r, hr, s, hs, t, ht, rfl, rfl⟩

theorem segment_bank_two_eq_ok {admits : Segment → Bool}
    {f : Segment → Bank → Register → Register → Instruction} :
    (do return f (← segment code op admits) (← bank code op) (← register code op)
          (← register code op) : Decoder Instruction) i = .ok (ins, j) ↔
      ∃ s b r t, ins = f s b r t ∧ (s.selector?.isSome ∧ admits s) ∧
        code.Spells i (Instruction.segmentByte s :: b.code :: Instruction.registerBytes [r, t]) ∧
        j = i + 4 := by
  simp only [bind_eq_ok, pure_eq_ok, segment_eq_ok, bank_eq_ok, register_eq_ok, and_assoc,
    exists_and_left, exists_eq_left]
  constructor
  · rintro ⟨s, hs, hc, ha, b, hb, r, hr, t, ht, rfl, rfl⟩
    exact ⟨s, b, r, t, rfl, hc, ha, ⟨hs, hb, hr, ht, trivial⟩, rfl⟩
  · rintro ⟨s, b, r, t, rfl, hc, ha, ⟨hs, hb, hr, ht, -⟩, rfl⟩
    exact ⟨s, hs, hc, ha, b, hb, r, hr, t, ht, rfl, rfl⟩

theorem put_eq_ok :
    put code op i = .ok (ins, j) ↔ ∃ bank dst imm, ins = .put bank dst imm ∧ ins.Permitted ∧
      code.Spells i ins.operands ∧ j = i + ins.operands.length := by
  simp only [put, bind_eq_ok, pure_eq_ok, immediateBank_eq_ok, register_eq_ok, and_assoc,
    exists_and_left, exists_eq_left]
  constructor
  · rintro ⟨b, hb, hw, dst, hd, bs, k, h, rfl, rfl⟩
    have hp : 0 < b.bytes := by cases b <;> decide
    obtain ⟨hl, hs, rfl⟩ := (bytes_eq_ok hp).mp h
    have hf := Block.bytes_fit_of_length (by omega : bs.length ≤ 32)
    have ht : (Block.fit 32 bs).bytes.take b.bytes = bs := by rw [hf, ← hl, List.take_left']; rfl
    have hz : (Block.fit 32 bs).bytes.drop b.bytes = List.replicate (32 - bs.length) 0 := by
      rw [hf, ← hl, List.drop_left']; rfl
    refine ⟨b, dst, _, rfl, ⟨hw, ?_⟩, ⟨hb, hd, ?_⟩, ?_⟩
    · rw [hz]
      exact fun x hx => List.eq_of_mem_replicate hx
    · rwa [ht]
    · simp only [Instruction.operands, ht, List.length_cons, hl]
      omega
  · rintro ⟨b, dst, imm, rfl, ⟨hw, hz⟩, ⟨hb, hd, hs⟩, rfl⟩
    have hp : 0 < b.bytes := by cases b <;> decide
    have hl : (imm.bytes.take b.bytes).length = b.bytes := by
      rw [List.length_take, imm.length_bytes]
      omega
    refine ⟨b, hb, hw, dst, hd, _, _, (bytes_eq_ok hp).mpr ⟨hl, hs, rfl⟩, ?_, ?_⟩
    · rw [Block.fit_take_of_zero imm hz]
    · simp only [Instruction.operands, List.length_cons, hl]
      omega

theorem callLib_eq_ok :
    operands code .callLib i = .ok (ins, j) ↔ ∃ library entry, ins = .callLib library entry ∧
      code.Spells i ins.operands ∧ j = i + ins.operands.length := by
  simp only [operands, bind_eq_ok, pure_eq_ok, bytes_eq_ok (by decide : 0 < 32), offset16_eq_ok,
    and_assoc, exists_and_left, exists_eq_left]
  constructor
  · rintro ⟨bs, hl, hs, entry, he, rfl, rfl⟩
    have hf : (Block.fit 32 bs).bytes = bs := by
      rw [Block.bytes_fit_of_length (by omega : bs.length ≤ 32), hl, Nat.sub_self,
        List.replicate_zero, List.append_nil]
    refine ⟨_, entry, rfl, ?_, ?_⟩
    · simp only [Instruction.operands, ProgramId.bytes, hf, Region.spells_append, hl]
      exact ⟨hs, he⟩
    · simp [Instruction.operands, ProgramId.bytes, hf, hl]
  · rintro ⟨⟨block⟩, entry, rfl, hs, rfl⟩
    have hl := block.length_bytes
    simp only [Instruction.operands, ProgramId.bytes, Region.spells_append, hl] at hs
    refine ⟨block.bytes, hl, hs.1, entry, hs.2, by rw [Block.fit_bytes], ?_⟩
    simp [Instruction.operands, ProgramId.bytes, hl]

/-- What is decoded is well-formed, and its encoding stands where it was read. -/
theorem operands_sound (h : operands code op i = .ok (ins, j)) :
    ins.opcode = op ∧ code.Spells i ins.operands ∧ j = i + ins.operands.length ∧
      ins.WellFormed code.size j := by
  cases op
  case nop | stop | fail | succ | ret | invCarry | clearCarry =>
    obtain ⟨rfl, rfl⟩ := pure_eq_ok.mp h
    exact ⟨rfl, trivial, rfl, .of_permitted trivial rfl⟩
  case jmp | call =>
    simp only [operands, bind_eq_ok, pure_eq_ok, absolute_eq_ok, and_assoc, exists_and_left,
      exists_eq_left] at h
    obtain ⟨t, hs, ht, rfl, rfl⟩ := h
    exact ⟨rfl, hs, rfl, trivial, by simpa [Instruction.target?] using ht⟩
  case jif =>
    simp only [operands, bind_eq_ok, pure_eq_ok, condition_eq_ok, absolute_eq_ok, and_assoc,
      exists_and_left, exists_eq_left] at h
    obtain ⟨c, hc, t, hs, ht, rfl, rfl⟩ := h
    exact ⟨rfl, ⟨hc, hs⟩, rfl, trivial, by simpa [Instruction.target?] using ht⟩
  case jmpr =>
    simp only [operands, bind_eq_ok, pure_eq_ok, relative_eq_ok] at h
    obtain ⟨k, _, ⟨hs, ht, rfl⟩, rfl, rfl⟩ := h
    exact ⟨rfl, ⟨hs, trivial⟩, rfl, trivial, by simpa [Instruction.target?] using ht⟩
  case jifr =>
    simp only [operands, bind_eq_ok, pure_eq_ok, condition_eq_ok, relative_eq_ok] at h
    obtain ⟨c, _, ⟨hc, rfl⟩, k, _, ⟨hs, ht, rfl⟩, rfl, rfl⟩ := h
    exact ⟨rfl, ⟨hc, hs, trivial⟩, rfl, trivial, by simpa [Instruction.target?] using ht⟩
  case callLib =>
    obtain ⟨library, entry, rfl, hs, rfl⟩ := callLib_eq_ok.mp h
    exact ⟨rfl, hs, rfl, .of_permitted trivial rfl⟩
  case autoHalt =>
    simp only [operands, bind_eq_ok, pure_eq_ok, flag_eq_ok] at h
    obtain ⟨b, _, ⟨hb, rfl⟩, rfl, rfl⟩ := h
    exact ⟨rfl, ⟨hb, trivial⟩, rfl, .of_permitted trivial rfl⟩
  case put =>
    obtain ⟨bank, dst, imm, rfl, hp, hs, rfl⟩ := put_eq_ok.mp h
    exact ⟨rfl, hs, rfl, .of_permitted hp rfl⟩
  case mov | swp =>
    obtain ⟨bank, r, s, rfl, hs, rfl⟩ := (bank_two_eq_ok bank_eq_ok).mp h
    exact ⟨rfl, hs, rfl, .of_permitted trivial rfl⟩
  case clr =>
    simp only [operands, bind_eq_ok, pure_eq_ok, bank_eq_ok, register_eq_ok] at h
    obtain ⟨b, _, ⟨hb, rfl⟩, r, _, ⟨hr, rfl⟩, rfl, rfl⟩ := h
    exact ⟨rfl, ⟨hb, hr, trivial⟩, rfl, .of_permitted trivial rfl⟩
  case conv =>
    simp only [operands, bind_eq_ok, pure_eq_ok, intBank_eq_ok, register_eq_ok, flag_eq_ok] at h
    obtain ⟨b, _, ⟨hb, rfl⟩, r, _, ⟨hr, rfl⟩, c, _, ⟨hc, rfl⟩, s, _, ⟨hs, rfl⟩, f, _, ⟨hf, rfl⟩,
      rfl, rfl⟩ := h
    exact ⟨rfl, ⟨hb, hr, hc, hs, hf, trivial⟩, rfl, .of_permitted trivial rfl⟩
  case ldc =>
    simp only [operands, bind_eq_ok, pure_eq_ok, bank_eq_ok, register_eq_ok, offset16_eq_ok] at h
    obtain ⟨b, _, ⟨hb, rfl⟩, r, _, ⟨hr, rfl⟩, t, _, ⟨ht, rfl⟩, rfl, rfl⟩ := h
    exact ⟨rfl, ⟨hb, hr, ht⟩, rfl, .of_permitted trivial rfl⟩
  case ld | st =>
    obtain ⟨seg, bank, r, s, rfl, ⟨-, ha⟩, hs, rfl⟩ := segment_bank_two_eq_ok.mp h
    exact ⟨rfl, hs, rfl, .of_permitted ha rfl⟩
  case len =>
    simp only [operands, bind_eq_ok, pure_eq_ok, segment_eq_ok, register_eq_ok] at h
    obtain ⟨seg, _, ⟨hs, ⟨hc, -⟩, rfl⟩, r, _, ⟨hr, rfl⟩, rfl, rfl⟩ := h
    refine ⟨rfl, ⟨hs, hr, trivial⟩, rfl, .of_permitted ?_ rfl⟩
    cases seg <;> simp [Segment.selector?, Permitted] at hc ⊢
  case add | sub | mul | div | rem | addS | subS | mulS | divS | remS | and | or | xor | shl | shr
      | rol | ror =>
    obtain ⟨bank, r, s, t, rfl, hs, rfl⟩ := (bank_three_eq_ok intBank_eq_ok).mp h
    exact ⟨rfl, hs, rfl, .of_permitted trivial rfl⟩
  case neg | eq | lt | ltS | not =>
    obtain ⟨bank, r, s, rfl, hs, rfl⟩ := (bank_two_eq_ok intBank_eq_ok).mp h
    exact ⟨rfl, hs, rfl, .of_permitted trivial rfl⟩
  case fAdd | fSub | fMul | fDiv =>
    obtain ⟨bank, r, s, t, rfl, hs, rfl⟩ := (bank_three_eq_ok floatBank_eq_ok).mp h
    exact ⟨rfl, hs, rfl, .of_permitted trivial rfl⟩
  case fNeg | fEq | fLt =>
    obtain ⟨bank, r, s, rfl, hs, rfl⟩ := (bank_two_eq_ok floatBank_eq_ok).mp h
    exact ⟨rfl, hs, rfl, .of_permitted trivial rfl⟩
  case sha3 =>
    obtain ⟨bank, r, s, rfl, hs, rfl⟩ := (bank_two_eq_ok wideBank_eq_ok).mp h
    exact ⟨rfl, hs, rfl, .of_permitted trivial rfl⟩
  case sha3Mem =>
    simp only [operands, bind_eq_ok, pure_eq_ok, segment_eq_ok, register_eq_ok] at h
    obtain ⟨seg, _, ⟨hs, ⟨-, ha⟩, rfl⟩, r, _, ⟨hr, rfl⟩, s, _, ⟨h1, rfl⟩, t, _, ⟨h2, rfl⟩,
      rfl, rfl⟩ := h
    exact ⟨rfl, ⟨hs, hr, h1, h2, trivial⟩, rfl, .of_permitted ha rfl⟩
  case verifySchnorr | verifyEcdsa =>
    obtain ⟨r, s, t, rfl, hs, rfl⟩ := three_eq_ok.mp h
    exact ⟨rfl, hs, rfl, .of_permitted trivial rfl⟩
  case verifyMerkle =>
    simp only [operands, bind_eq_ok, pure_eq_ok, segment_eq_ok, register_eq_ok] at h
    obtain ⟨r, _, ⟨hr, rfl⟩, s, _, ⟨hs, rfl⟩, seg, _, ⟨h1, ⟨-, ha⟩, rfl⟩, t, _, ⟨h2, rfl⟩,
      rfl, rfl⟩ := h
    exact ⟨rfl, ⟨hr, hs, h1, h2, trivial⟩, rfl, .of_permitted ha rfl⟩

/-- A well-formed instruction is found again wherever its operands are spelled. -/
theorem operands_complete (hs : code.Spells i ins.operands)
    (hw : ins.WellFormed code.size (i + ins.operands.length)) :
    operands code ins.opcode i = .ok (ins, i + ins.operands.length) := by
  have hi := hw.inside
  have hp := hw.permitted
  cases ins with
  | nop | stop | fail | succ | ret | invCarry | clearCarry => rfl
  | jump guard dest =>
    cases guard <;> cases dest <;> simp only [Instruction.opcode, operands, bind_eq_ok, pure_eq_ok,
      condition_eq_ok, absolute_eq_ok, relative_eq_ok]
    case none.absolute t =>
      exact ⟨t, _, ⟨hs, by simpa [Instruction.target?] using hi, rfl⟩, rfl, rfl⟩
    case none.relative k =>
      exact ⟨k, _, ⟨hs.1, hi _ rfl, rfl⟩, rfl, rfl⟩
    case some.absolute c t =>
      exact ⟨c, _, ⟨hs.1, rfl⟩, t, _, ⟨hs.2, by simpa [Instruction.target?] using hi, rfl⟩,
        rfl, rfl⟩
    case some.relative c k =>
      exact ⟨c, _, ⟨hs.1, rfl⟩, k, _, ⟨hs.2.1, hi _ rfl, rfl⟩, rfl, rfl⟩
  | call t =>
    simp only [Instruction.opcode, operands, bind_eq_ok, pure_eq_ok, absolute_eq_ok]
    exact ⟨t, _, ⟨hs, by simpa [Instruction.target?] using hi, rfl⟩, rfl, rfl⟩
  | callLib library entry => exact callLib_eq_ok.mpr ⟨library, entry, rfl, hs, rfl⟩
  | autoHalt b =>
    simp only [Instruction.opcode, operands, bind_eq_ok, pure_eq_ok, flag_eq_ok]
    exact ⟨b, _, ⟨hs.1, rfl⟩, rfl, rfl⟩
  | put bank dst imm => exact put_eq_ok.mpr ⟨bank, dst, imm, rfl, hp, hs, rfl⟩
  | mov bank r s | swp bank r s =>
    exact (bank_two_eq_ok bank_eq_ok).mpr ⟨bank, r, s, rfl, hs, rfl⟩
  | clr bank r =>
    simp only [Instruction.opcode, operands, bind_eq_ok, pure_eq_ok, bank_eq_ok, register_eq_ok]
    exact ⟨bank, _, ⟨hs.1, rfl⟩, r, _, ⟨hs.2.1, rfl⟩, rfl, rfl⟩
  | conv b r c s f =>
    obtain ⟨hb, hr, hc, hs, hf, -⟩ := hs
    simp only [Instruction.opcode, operands, bind_eq_ok, pure_eq_ok, intBank_eq_ok, register_eq_ok,
      flag_eq_ok]
    exact ⟨b, _, ⟨hb, rfl⟩, r, _, ⟨hr, rfl⟩, c, _, ⟨hc, rfl⟩, s, _, ⟨hs, rfl⟩, f, _, ⟨hf, rfl⟩,
      rfl, rfl⟩
  | ldc bank r t =>
    simp only [Instruction.opcode, operands, bind_eq_ok, pure_eq_ok, bank_eq_ok, register_eq_ok,
      offset16_eq_ok]
    exact ⟨bank, _, ⟨hs.1, rfl⟩, r, _, ⟨hs.2.1, rfl⟩, t, _, ⟨hs.2.2, rfl⟩, rfl, rfl⟩
  | ld seg bank r s =>
    exact segment_bank_two_eq_ok.mpr
      ⟨seg, bank, r, s, rfl, ⟨seg.selector_of_readable hp, hp⟩, hs, rfl⟩
  | st seg bank r s =>
    exact segment_bank_two_eq_ok.mpr
      ⟨seg, bank, r, s, rfl, ⟨seg.selector_of_writable hp, hp⟩, hs, rfl⟩
  | len seg r =>
    have hc : seg.selector?.isSome := by
      rcases hp with rfl | rfl | rfl | rfl <;> rfl
    simp only [Instruction.opcode, operands, bind_eq_ok, pure_eq_ok, segment_eq_ok, register_eq_ok]
    exact ⟨seg, _, ⟨hs.1, ⟨hc, trivial⟩, rfl⟩, r, _, ⟨hs.2.1, rfl⟩, rfl, rfl⟩
  | arith o signed bank r s t =>
    cases o <;> cases signed <;>
      exact (bank_three_eq_ok intBank_eq_ok).mpr ⟨bank, r, s, t, rfl, hs, rfl⟩
  | bitwise o bank r s t | shift o bank r s t =>
    cases o <;> exact (bank_three_eq_ok intBank_eq_ok).mpr ⟨bank, r, s, t, rfl, hs, rfl⟩
  | neg bank r s | not bank r s =>
    exact (bank_two_eq_ok intBank_eq_ok).mpr ⟨bank, r, s, rfl, hs, rfl⟩
  | compare rel bank r s =>
    cases rel <;> exact (bank_two_eq_ok intBank_eq_ok).mpr ⟨bank, r, s, rfl, hs, rfl⟩
  | float o bank r s t =>
    cases o <;> exact (bank_three_eq_ok floatBank_eq_ok).mpr ⟨bank, r, s, t, rfl, hs, rfl⟩
  | floatNeg bank r s => exact (bank_two_eq_ok floatBank_eq_ok).mpr ⟨bank, r, s, rfl, hs, rfl⟩
  | floatCompare rel bank r s =>
    cases rel <;> exact (bank_two_eq_ok floatBank_eq_ok).mpr ⟨bank, r, s, rfl, hs, rfl⟩
  | sha3 bank r s => exact (bank_two_eq_ok wideBank_eq_ok).mpr ⟨bank, r, s, rfl, hs, rfl⟩
  | sha3Mem seg r s t =>
    obtain ⟨h0, hr, hs, ht, -⟩ := hs
    simp only [Instruction.opcode, operands, bind_eq_ok, pure_eq_ok, segment_eq_ok, register_eq_ok]
    exact ⟨seg, _, ⟨h0, ⟨seg.selector_of_readable hp, hp⟩, rfl⟩, r, _, ⟨hr, rfl⟩, s, _, ⟨hs, rfl⟩,
      t, _, ⟨ht, rfl⟩, rfl, rfl⟩
  | verifySchnorr r s t | verifyEcdsa r s t =>
    exact three_eq_ok.mpr ⟨r, s, t, rfl, hs, rfl⟩
  | verifyMerkle r s seg t =>
    obtain ⟨hr, hs, h0, ht, -⟩ := hs
    simp only [Instruction.opcode, operands, bind_eq_ok, pure_eq_ok, segment_eq_ok, register_eq_ok]
    exact ⟨r, _, ⟨hr, rfl⟩, s, _, ⟨hs, rfl⟩, seg, _, ⟨h0, ⟨seg.selector_of_readable hp, hp⟩, rfl⟩,
      t, _, ⟨ht, rfl⟩, rfl, rfl⟩

end Decoder

namespace Instruction

variable {code : Region} {o : UInt16} {d : Decoded}

/-- The decoder accepts exactly the encodings of well-formed instructions. -/
theorem decode_eq_ok_iff :
    decode code o = .ok d ↔
      d.offset = o ∧ code.Spells o.toNat d.instruction.encode ∧
        d.next.toNat = o.toNat + d.instruction.encode.length ∧
        d.instruction.WellFormed code.size d.next.toNat := by
  unfold decode
  constructor
  · intro h
    cases hb : code[o.toNat]? with
    | none => simp [hb] at h
    | some b =>
      cases ho : Opcode.ofByte? b with
      | none => simp [hb, ho] at h
      | some op =>
        cases hx : Decoder.operands code op (o.toNat + 1) with
        | error e => simp [hb, ho, hx] at h
        | ok r =>
          obtain ⟨i, next⟩ := r
          simp only [hb, ho, hx] at h
          split_ifs at h with hn
          obtain rfl := Except.ok.inj h
          obtain ⟨rfl, hs, hl, hw⟩ := Decoder.operands_sound hx
          have hm : (UInt16.ofNat next).toNat = next := UInt16.toNat_ofNat_of_lt' hn
          refine ⟨rfl, ⟨by rw [hb, Opcode.byte_ofByte? ho], hs⟩, ?_, by rwa [hm]⟩
          simp only [hm, encode, List.length_cons]
          omega
  · rintro ⟨rfl, ⟨hb, hs⟩, hl, hw⟩
    simp only [encode, List.length_cons] at hl
    have hn : d.offset.toNat + 1 + d.instruction.operands.length = d.next.toNat := by omega
    have hx := Decoder.operands_complete hs (by rwa [hn])
    simp only [hb, Opcode.ofByte?_byte, hx, hn, UInt16.ofNat_toNat]
    exact if_pos d.next.toNat_lt

theorem decode_offset (h : decode code o = .ok d) : d.offset = o :=
  (decode_eq_ok_iff.mp h).1

theorem lt_next_of_decode (h : decode code o = .ok d) : o.toNat < d.next.toNat := by
  obtain ⟨-, -, hn, -⟩ := decode_eq_ok_iff.mp h
  simp only [encode, List.length_cons] at hn
  omega

theorem next_le_of_decode (h : decode code o = .ok d) : d.next.toNat ≤ code.size := by
  obtain ⟨-, hs, hn, -⟩ := decode_eq_ok_iff.mp h
  rw [hn]
  exact Region.spells_le hs (List.cons_ne_nil _ _)

theorem lt_size_of_decode (h : decode code o = .ok d) : o.toNat < code.size :=
  Nat.lt_of_lt_of_le (lt_next_of_decode h) (next_le_of_decode h)

theorem decode_past_end (h : code.size ≤ o.toNat) : decode code o = .error (.endOfCode o) := by
  rw [decode, Array.getElem?_eq_none h]

end Instruction

namespace Decoded

theorem localTarget_eq_some_iff (d : Decoded) (t : UInt16) :
    d.localTarget = some t ↔ d.instruction.target? d.next.toNat = some (t.toNat : Int) := by
  obtain ⟨ins, offset, next⟩ := d
  cases ins with
  | jump guard dest =>
    cases dest with
    | absolute target =>
      simp only [localTarget, Instruction.target?, Option.some.injEq, ← UInt16.toNat_inj]
      omega
    | relative distance =>
      have ht := t.toNat_lt
      simp only [localTarget, Instruction.target?, Option.some.injEq]
      generalize (next.toNat : Int) + distance.toInt = x
      constructor
      · intro h
        split_ifs at h with hx
        obtain rfl := Option.some.inj h
        rw [UInt16.toNat_ofNat_of_lt' (show x.toNat < 65536 by omega)]
        omega
      · rintro rfl
        rw [if_pos (by omega), Int.toNat_natCast, UInt16.ofNat_toNat]
  | call target =>
    simp only [localTarget, Instruction.target?, Option.some.injEq, ← UInt16.toNat_inj]
    omega
  | _ => simp [localTarget, Instruction.target?]

/-- In code that 16-bit offsets can address, every decoded jump or call has its target there. -/
theorem exists_localTarget {code : Region} {o : UInt16} {d : Decoded} {t : Int}
    (h : Instruction.decode code o = .ok d) (hc : code.size ≤ 65535)
    (ht : d.instruction.target? d.next.toNat = some t) :
    ∃ target : UInt16, d.localTarget = some target ∧ (target.toNat : Int) = t := by
  obtain ⟨-, -, -, hw⟩ := Instruction.decode_eq_ok_iff.mp h
  have hi := hw.inside t ht
  have hn : (UInt16.ofNat t.toNat).toNat = t.toNat :=
    UInt16.toNat_ofNat_of_lt' (show t.toNat < 65536 by omega)
  have he : ((UInt16.ofNat t.toNat).toNat : Int) = t := by omega
  exact ⟨_, (localTarget_eq_some_iff d _).mpr (by rw [he, ht]), he⟩

end Decoded

namespace Instruction

/-- A library call and the widest immediate are the longest encodings. -/
theorem length_encode_le (i : Instruction) : i.encode.length ≤ 35 := by
  cases i with
  | jump guard dest => cases guard <;> cases dest <;> simp [encode, operands, Destination.bytes]
  | callLib library entry =>
    simp [encode, operands, ProgramId.bytes, library.digest.length_bytes]
  | put bank dst imm =>
    have hl : (imm.bytes.take bank.bytes).length ≤ 32 := by
      rw [List.length_take, imm.length_bytes]
      exact Nat.min_le_right _ _
    simp only [encode, operands, List.length_cons]
    omega
  | _ => simp [encode, operands, registerBytes]

theorem isSome_target? (i : Instruction) (next : Nat) :
    (i.target? next).isSome ↔ (∃ guard dest, i = .jump guard dest) ∨ ∃ t, i = .call t := by
  cases i with
  | jump guard dest => cases dest <;> simp [target?]
  | _ => simp [target?]

/-- Encoding and decoding are exact inverses: bytes that spell an instruction decode to it
if and only if it is well-formed there, and whatever decodes is well-formed and spelled by
the bytes it was decoded from. -/
theorem decode_exact (code : Region) (o : UInt16) :
    (∀ i : Instruction, code.read o.toNat i.encode.length = i.encode →
      o.toNat + i.encode.length ≤ 65535 →
      (decode code o = .ok ⟨i, o, UInt16.ofNat (o.toNat + i.encode.length)⟩ ↔
        i.WellFormed code.size (o.toNat + i.encode.length))) ∧
    ∀ d, decode code o = .ok d →
      d.offset = o ∧ code.read o.toNat (d.next.toNat - o.toNat) = d.instruction.encode ∧
      1 ≤ d.next.toNat - o.toNat ∧ d.next.toNat - o.toNat ≤ 35 ∧ d.next.toNat ≤ code.size ∧
      d.instruction.WellFormed code.size d.next.toNat ∧
      (code.size ≤ 65535 →
        (∃ guard dest, d.instruction = .jump guard dest) ∨ (∃ t, d.instruction = .call t) →
        ∃ t, d.localTarget = some t ∧ t.toNat < code.size ∧
          d.instruction.target? d.next.toNat = some (t.toNat : Int)) := by
  constructor
  · intro i hr hl
    have hn : (UInt16.ofNat (o.toNat + i.encode.length)).toNat = o.toNat + i.encode.length :=
      UInt16.toNat_ofNat_of_lt' (show _ < 65536 by omega)
    have hs := (Region.spells_iff_read _ _).mpr hr
    simp only [decode_eq_ok_iff, hn, hs, true_and]
  · intro d hd
    obtain ⟨ho, hs, hn, hw⟩ := decode_eq_ok_iff.mp hd
    have hlen : d.next.toNat - o.toNat = d.instruction.encode.length := by omega
    have hlt := lt_next_of_decode hd
    refine ⟨ho, ?_, by omega, ?_, next_le_of_decode hd, hw, ?_⟩
    · rw [hlen]
      exact (Region.spells_iff_read _ _).mp hs
    · rw [hlen]
      exact length_encode_le d.instruction
    · intro hc hj
      obtain ⟨t, ht⟩ := Option.isSome_iff_exists.mp ((isSome_target? _ d.next.toNat).mpr hj)
      obtain ⟨target, hl, rfl⟩ := Decoded.exists_localTarget hd hc ht
      have hi := hw.inside _ ht
      exact ⟨target, hl, by omega, ht⟩

/-- A guarded jump back over the instruction before it, to the first byte of the code. -/
theorem decode_exact_backward :
    let code : Region := #[0x00, 0x07, 0x02, 0xFC]
    let i : Instruction := .jump (some .failureSet) (.relative (-4))
    code.read 1 i.encode.length = i.encode ∧ decode code 1 = .ok ⟨i, 1, 4⟩ ∧ i.WellFormed 4 4 ∧
      ∃ t, Decoded.localTarget ⟨i, 1, 4⟩ = some t ∧ t.toNat < 4 := by
  intro code i
  have hr : code.read (1 : UInt16).toNat i.encode.length = i.encode := by decide
  have hd : decode code 1 = .ok ⟨i, 1, 4⟩ := by rfl
  obtain ⟨hforward, hback⟩ := decode_exact code 1
  obtain ⟨-, -, -, -, -, -, ht⟩ := hback _ hd
  obtain ⟨t, ht, hlt, -⟩ := ht (by decide) (.inl ⟨_, _, rfl⟩)
  exact ⟨hr, hd, (hforward i hr (by decide)).mp hd, t, ht, hlt⟩

end Instruction

end VerdictMachine

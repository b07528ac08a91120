import Mathlib.Data.Nat.Bitwise
import VerdictMachine.Proofs.Codec
import VerdictMachine.Proofs.Denotation
import VerdictMachine.Program.Basic

/-!
# The linear sweep and what loading establishes

Loading reads one instruction after the other. The offsets it comes to are
described twice: as a relation, and as the chain of the instructions found.
The chain is what the sweep returns; the relation is what boundaries, jump
targets and the program counter of a run are compared with.
-/

set_option autoImplicit false

namespace VerdictMachine

namespace OffsetSet

/-- The bits of the set, also past the size for which it was made. -/
def Has (s : OffsetSet) (word bit : Nat) : Prop :=
  ∃ bits, s.words[word]? = some bits ∧ bits.toNat.testBit bit = true

theorem toNat_bitMask (o : UInt16) : (bitMask o).toNat = 2 ^ (o.toNat % 64) := by
  rw [bitMask, Limbs.toNat_one_shiftLeft (Nat.mod_lt _ (by decide)), Nat.one_shiftLeft]

theorem contains_iff (s : OffsetSet) (o : UInt16) :
    s.contains o = true ↔ s.Has (o.toNat / 64) (o.toNat % 64) := by
  unfold contains Has
  cases hw : s.words[o.toNat / 64]? with
  | none => simp
  | some bits =>
    have hzero : bits &&& bitMask o = 0 ↔ bits.toNat.testBit (o.toNat % 64) = false := by
      rw [← UInt64.toNat_inj, UInt64.toNat_and, toNat_bitMask, Nat.and_two_pow]
      cases bits.toNat.testBit (o.toNat % 64) <;> simp
    simp [hzero]

theorem has_insert (s : OffsetSet) (o : UInt16) (word bit : Nat) :
    (s.insert o).Has word bit ↔
      s.Has word bit ∨ word < s.words.size ∧ o.toNat / 64 = word ∧ o.toNat % 64 = bit := by
  unfold Has insert
  rw [Array.getElem?_modify]
  by_cases hw : word < s.words.size
  · rw [Array.getElem?_eq_getElem hw]
    by_cases ho : o.toNat / 64 = word
    · simp [ho, hw, UInt64.toNat_or, toNat_bitMask, Nat.testBit_two_pow]
    · simp [ho]
  · simp [hw]

theorem not_has_empty (size word bit : Nat) : ¬ (empty size).Has word bit := by
  rintro ⟨bits, hbits, hbit⟩
  obtain ⟨_, rfl⟩ := Array.getElem?_eq_some_iff.mp hbits
  simp [empty] at hbit

end OffsetSet

namespace Program

open Instruction (decode decode_offset lt_next_of_decode next_le_of_decode lt_size_of_decode
  decode_past_end)

variable {code : Region} {o e : UInt16} {ds : List Decoded}

/-- The offsets that a sweep from the first byte comes to. -/
inductive Swept (code : Region) : UInt16 → Prop
  | start : Swept code 0
  | next {o : UInt16} {d : Decoded} (h : Swept code o) (hd : decode code o = .ok d) :
      Swept code d.next

/-- Instructions that follow each other in the code, from one offset to another. -/
def Chain (code : Region) : UInt16 → List Decoded → UInt16 → Prop
  | o, [], e => o = e
  | o, d :: ds, e => decode code o = .ok d ∧ Chain code d.next ds e

theorem Swept.le (h : Swept code o) : o.toNat ≤ code.size := by
  cases h with
  | start => exact Nat.zero_le _
  | next _ hd => exact next_le_of_decode hd

theorem Chain.append {cs : List Decoded} :
    Chain code o (ds ++ cs) e ↔ ∃ a, Chain code o ds a ∧ Chain code a cs e := by
  induction ds generalizing o with
  | nil => simp [Chain]
  | cons d ds ih => simp [Chain, ih, and_assoc]

theorem Chain.mem (h : Chain code o ds e) {d : Decoded} (hd : d ∈ ds) :
    decode code d.offset = .ok d ∧ o.toNat ≤ d.offset.toNat := by
  induction ds generalizing o with
  | nil => cases hd
  | cons c ds ih =>
    have ho := decode_offset h.1
    rcases List.mem_cons.mp hd with rfl | hd
    · exact ⟨by rw [ho, h.1], Nat.le_of_eq (congrArg UInt16.toNat ho.symm)⟩
    · have hl := lt_next_of_decode h.1
      have hm := ih h.2 hd
      exact ⟨hm.1, by omega⟩

theorem Chain.swept (h : Chain code o ds e) (ho : Swept code o) : Swept code e := by
  induction ds generalizing o with
  | nil => exact h ▸ ho
  | cons d ds ih => exact ih h.2 (ho.next h.1)

theorem Chain.mem_swept (h : Chain code o ds e) (ho : Swept code o) {d : Decoded} (hd : d ∈ ds) :
    Swept code d.offset := by
  induction ds generalizing o with
  | nil => cases hd
  | cons c ds ih =>
    rcases List.mem_cons.mp hd with rfl | hd
    · rwa [decode_offset h.1]
    · exact ih h.2 (ho.next h.1) hd

theorem Chain.start (h : Chain code o ds e) : o = e ∨ ∃ d ∈ ds, d.offset = o := by
  cases ds with
  | nil => exact .inl h
  | cons d ds => exact .inr ⟨d, List.mem_cons_self, decode_offset h.1⟩

theorem Chain.next (h : Chain code o ds e) {d : Decoded} (hd : d ∈ ds) :
    d.next = e ∨ ∃ c ∈ ds, c.offset = d.next := by
  induction ds generalizing o with
  | nil => cases hd
  | cons c ds ih =>
    have hs : d.next = e ∨ ∃ c ∈ ds, c.offset = d.next := by
      rcases List.mem_cons.mp hd with rfl | hd
      · exact h.2.start
      · exact ih h.2 hd
    rcases hs with hs | ⟨b, hb, hs⟩
    · exact .inl hs
    · exact .inr ⟨b, List.mem_cons_of_mem c hb, hs⟩

/-- A chain whose end does not decode holds everything that the sweep comes to. -/
theorem Chain.of_swept (h : Chain code 0 ds e) (he : ∀ d, decode code e ≠ .ok d)
    (ho : Swept code o) : o = e ∨ ∃ d ∈ ds, d.offset = o := by
  induction ho with
  | start => exact h.start
  | @next o d _ hd ih =>
    rcases ih with rfl | ⟨c, hc, rfl⟩
    · exact (he d hd).elim
    · have hm := (h.mem hc).1
      obtain rfl : c = d := Except.ok.inj (hm.symm.trans hd)
      exact h.next hc

theorem Chain.end_eq (h : Chain code 0 ds e) (he : ∀ d, decode code e ≠ .ok d)
    (ho : Swept code o) (hs : ∀ d, decode code o ≠ .ok d) : o = e := by
  rcases h.of_swept he ho with rfl | ⟨d, hd, rfl⟩
  · rfl
  · exact (hs d (h.mem hd).1).elim

theorem Chain.unique {cs : List Decoded} {a : UInt16} (h : Chain code o ds e)
    (hc : Chain code o cs a) (he : ∀ d, decode code e ≠ .ok d) (ha : ∀ d, decode code a ≠ .ok d) :
    ds = cs ∧ e = a := by
  induction ds generalizing o cs with
  | nil =>
    obtain rfl : o = e := h
    cases cs with
    | nil => exact ⟨rfl, hc⟩
    | cons c cs => exact (he c hc.1).elim
  | cons d ds ih =>
    cases cs with
    | nil =>
      obtain rfl : o = a := hc
      exact (ha d h.1).elim
    | cons c cs =>
      obtain rfl : d = c := Except.ok.inj (h.1.symm.trans hc.1)
      obtain ⟨rfl, rfl⟩ := ih h.2 hc.2
      exact ⟨rfl, rfl⟩

/-- With fuel for the rest of the code, a sweep ends behind the last instruction
or at the first offset that does not decode. -/
theorem sweep_cases (code : Region) (n : Nat) (o : UInt16) (found : List Decoded)
    (hn : code.size ≤ o.toNat + n) :
    ∃ ds e, Chain code o ds e ∧
      (code.size ≤ e.toNat ∧ sweep code n o found = .ok (found.reverse ++ ds) ∨
        ∃ cause, e.toNat < code.size ∧ decode code e = .error cause ∧
          sweep code n o found = .error (.decode e cause)) := by
  induction n generalizing o found with
  | zero => exact ⟨[], o, rfl, .inl ⟨by omega, by simp [sweep]⟩⟩
  | succ n ih =>
    by_cases ho : o.toNat < code.size
    · rw [sweep, if_pos ho]
      cases hd : decode code o with
      | error cause => exact ⟨[], o, rfl, .inr ⟨cause, ho, hd, rfl⟩⟩
      | ok d =>
        have hl := lt_next_of_decode hd
        obtain ⟨ds, e, hc, h⟩ := ih d.next (d :: found) (by omega)
        refine ⟨d :: ds, e, ⟨hd, hc⟩, ?_⟩
        simpa using h
    · rw [sweep, if_neg ho]
      exact ⟨[], o, rfl, .inl ⟨by omega, by simp⟩⟩

/-- A sweep gets stuck at one place only. -/
theorem Swept.stuck_unique {a : UInt16} (ho : Swept code o) (ha : Swept code a)
    (hos : ∀ d, decode code o ≠ .ok d) (has : ∀ d, decode code a ≠ .ok d) : o = a := by
  obtain ⟨ds, e, hc, h⟩ := sweep_cases code code.size 0 [] (Nat.le_add_left _ _)
  have he : ∀ d, decode code e ≠ .ok d := by
    rcases h with ⟨h, -⟩ | ⟨cause, -, h, -⟩
    · simp [decode_past_end h]
    · simp [h]
  rw [hc.end_eq he ho hos, hc.end_eq he ha has]

theorem disassemble_eq_ok_iff :
    disassemble code = .ok ds ↔ ∃ e, Chain code 0 ds e ∧ code.size ≤ e.toNat := by
  obtain ⟨cs, a, hc, h⟩ := sweep_cases code code.size 0 [] (Nat.le_add_left _ _)
  rw [disassemble]
  constructor
  · intro hd
    rcases h with ⟨ha, h⟩ | ⟨cause, -, -, h⟩
    · obtain rfl : cs = ds := by simpa [h] using hd
      exact ⟨a, hc, ha⟩
    · simp [h] at hd
  · rintro ⟨e, hd, he⟩
    have hs : ∀ d, decode code e ≠ .ok d := by simp [decode_past_end he]
    rcases h with ⟨ha, h⟩ | ⟨cause, hl, hx, -⟩
    · obtain ⟨rfl, -⟩ := hd.unique hc hs (by simp [decode_past_end ha])
      simpa using h
    · obtain rfl := hd.end_eq hs (hc.swept .start) (by simp [hx])
      omega

theorem disassemble_eq_error_iff {err : LoadError} :
    disassemble code = .error err ↔
      ∃ o cause, Swept code o ∧ o.toNat < code.size ∧ decode code o = .error cause ∧
        err = .decode o cause := by
  obtain ⟨cs, a, hc, h⟩ := sweep_cases code code.size 0 [] (Nat.le_add_left _ _)
  rw [disassemble]
  constructor
  · intro hd
    rcases h with ⟨-, h⟩ | ⟨cause, hl, hx, h⟩
    · simp [h] at hd
    · exact ⟨a, cause, hc.swept .start, hl, hx, Except.error.inj (hd.symm.trans h)⟩
  · rintro ⟨o, cause, ho, hl, hx, rfl⟩
    have hs : ∀ d, decode code o ≠ .ok d := by simp [hx]
    rcases h with ⟨ha, -⟩ | ⟨cause', -, hy, h⟩
    · obtain rfl := hc.end_eq (by simp [decode_past_end ha]) ho hs
      omega
    · obtain rfl := hc.end_eq (by simp [hy]) ho hs
      obtain rfl := Except.error.inj (hx.symm.trans hy)
      exact h

theorem has_marks (ds : List Decoded) (s : OffsetSet) (word bit : Nat) :
    (ds.foldl (fun marks d => marks.insert d.offset) s).Has word bit ↔
      s.Has word bit ∨ word < s.words.size ∧
        ∃ d ∈ ds, d.offset.toNat / 64 = word ∧ d.offset.toNat % 64 = bit := by
  induction ds generalizing s with
  | nil => simp
  | cons d ds ih =>
    have hsize : (s.insert d.offset).words.size = s.words.size := by simp [OffsetSet.insert]
    rw [List.foldl_cons, ih, OffsetSet.has_insert, hsize]
    simp only [List.mem_cons, exists_eq_or_imp]
    tauto

/-- The marks of a list of instructions are their offsets, if all of them have a word. -/
theorem contains_marks {size : Nat} (hds : ∀ d ∈ ds, d.offset.toNat < size) (o : UInt16) :
    (marks size ds).contains o = true ↔ ∃ d ∈ ds, d.offset = o := by
  rw [OffsetSet.contains_iff, marks, has_marks]
  simp only [OffsetSet.not_has_empty, false_or]
  simp only [OffsetSet.empty, Array.size_replicate]
  constructor
  · rintro ⟨-, d, hd, hword, hbit⟩
    exact ⟨d, hd, UInt16.toNat_inj.mp (by omega)⟩
  · rintro ⟨d, hd, rfl⟩
    have hlt := hds d hd
    exact ⟨by omega, d, hd, rfl, rfl⟩

theorem Chain.offset_lt (h : Chain code o ds e) : ∀ d ∈ ds, d.offset.toNat < code.size :=
  fun _ hd => lt_size_of_decode (h.mem hd).1

/-- The marks of a complete chain are the offsets inside the code that the sweep comes to. -/
theorem contains_iff_swept (h : Chain code 0 ds e) (he : code.size ≤ e.toNat) (o : UInt16) :
    (marks code.size ds).contains o = true ↔ Swept code o ∧ o.toNat < code.size := by
  rw [contains_marks h.offset_lt]
  constructor
  · rintro ⟨d, hd, rfl⟩
    exact ⟨h.mem_swept .start hd, h.offset_lt d hd⟩
  · rintro ⟨hs, ho⟩
    rcases h.of_swept (by simp [decode_past_end he]) hs with rfl | hd
    · omega
    · exact hd

theorem strayTarget?_eq_some_iff {marks : OffsetSet} {d : Decoded} {t : UInt16} :
    strayTarget? marks d = some (o, t) ↔
      d.offset = o ∧ d.localTarget = some t ∧ ¬ marks.contains t = true := by
  unfold strayTarget?
  cases hd : d.localTarget with
  | none => simp
  | some a =>
    by_cases hm : marks.contains a = true
    · simp only [if_pos hm, Option.some.injEq, reduceCtorEq, false_iff]
      rintro ⟨-, rfl, hf⟩
      exact hf hm
    · simp only [if_neg hm, Option.some.injEq, Prod.mk.injEq]
      constructor
      · rintro ⟨rfl, rfl⟩
        exact ⟨rfl, rfl, hm⟩
      · rintro ⟨rfl, rfl, -⟩
        exact ⟨rfl, rfl⟩

/-- The outcomes of loading, in the order in which they are looked for. -/
inductive Loads (code constants : Bytes) : Except LoadError Program → Prop
  | codeTooLarge (hc : 65535 < code.length) :
      Loads code constants (.error (.segmentTooLarge .code code.length))
  | constantsTooLarge (hc : code.length ≤ 65535) (hk : 65536 < constants.length) :
      Loads code constants (.error (.segmentTooLarge .constant constants.length))
  | undecodable {err : LoadError} (hc : code.length ≤ 65535) (hk : constants.length ≤ 65536)
      (hd : disassemble code.toArray = .error err) : Loads code constants (.error err)
  | stray {ds : List Decoded} {offset target : UInt16} (hc : code.length ≤ 65535)
      (hk : constants.length ≤ 65536) (hd : disassemble code.toArray = .ok ds)
      (hs : ds.findSome? (strayTarget? (marks code.toArray.size ds)) = some (offset, target)) :
      Loads code constants (.error (.misalignedJumpTarget offset target))
  | accepted {ds : List Decoded} (hc : code.length ≤ 65535) (hk : constants.length ≤ 65536)
      (hd : disassemble code.toArray = .ok ds)
      (hs : ds.findSome? (strayTarget? (marks code.toArray.size ds)) = none) :
      Loads code constants (.ok ⟨code.toArray, constants.toArray,
        ProgramId.ofContents code constants, marks code.toArray.size ds⟩)

theorem load_spec (code constants : Bytes) : Loads code constants (load code constants) := by
  simp only [load]
  by_cases hc : Segment.limit .code < code.length
  · rw [if_pos hc]
    exact .codeTooLarge hc
  rw [if_neg hc]
  replace hc : code.length ≤ 65535 := Nat.le_of_not_lt hc
  by_cases hk : Segment.limit .constant < constants.length
  · rw [if_pos hk]
    exact .constantsTooLarge hc hk
  rw [if_neg hk]
  replace hk : constants.length ≤ 65536 := Nat.le_of_not_lt hk
  cases hd : disassemble code.toArray with
  | error err => exact .undecodable hc hk hd
  | ok ds =>
    cases hs : ds.findSome? (strayTarget? (marks code.toArray.size ds)) with
    | some r =>
      simp only [hs]
      exact .stray hc hk hd hs
    | none =>
      simp only [hs]
      exact .accepted hc hk hd hs

theorem loads_iff {code constants : Bytes} {r : Except LoadError Program} :
    Loads code constants r ↔ load code constants = r := by
  constructor
  · intro h
    have hl := load_spec code constants
    generalize load code constants = s at hl
    cases h <;> cases hl <;> grind
  · rintro rfl
    exact load_spec code constants

/-- What every loaded program satisfies: it decodes wherever the sweep comes to,
its boundaries are those offsets, and its jumps and calls go to boundaries. -/
structure Valid (p : Program) : Prop where
  size_le : p.code.size ≤ 65535
  decodes : ∀ o, Swept p.code o → o.toNat < p.code.size → ∃ d, decode p.code o = .ok d
  isBoundary_iff : ∀ o, p.isBoundary o = true ↔ Swept p.code o ∧ o.toNat < p.code.size
  aligned : ∀ o d t, Swept p.code o → decode p.code o = .ok d → d.localTarget = some t →
    p.isBoundary t = true

theorem decodes_of_chain (h : Chain code 0 ds e) (he : code.size ≤ e.toNat) (hs : Swept code o)
    (ho : o.toNat < code.size) : ∃ d ∈ ds, decode code o = .ok d := by
  rcases h.of_swept (by simp [decode_past_end he]) hs with rfl | ⟨d, hd, rfl⟩
  · omega
  · exact ⟨d, hd, (h.mem hd).1⟩

theorem valid_of_load {code constants : Bytes} {p : Program} (h : load code constants = .ok p) :
    p.Valid := by
  have hl := load_spec code constants
  rw [h] at hl
  cases hl with
  | @accepted ds hc hk hd hs =>
    obtain ⟨e, hch, he⟩ := disassemble_eq_ok_iff.mp hd
    have hm := contains_iff_swept hch he
    refine ⟨by simpa using hc, ?_, hm, ?_⟩
    · intro o ho hlt
      obtain ⟨d, -, hd⟩ := decodes_of_chain hch he ho hlt
      exact ⟨d, hd⟩
    · intro o d t ho hd ht
      obtain ⟨c, hmem, hc⟩ := decodes_of_chain hch he ho (lt_size_of_decode hd)
      obtain rfl : c = d := Except.ok.inj (hc.symm.trans hd)
      by_contra hb
      have hn := List.findSome?_eq_none_iff.mp hs c hmem
      rw [strayTarget?_eq_some_iff.mpr ⟨rfl, ht, hb⟩] at hn
      cases hn

end Program

end VerdictMachine

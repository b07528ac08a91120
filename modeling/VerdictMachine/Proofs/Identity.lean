import VerdictMachine.Proofs.Sweep
import VerdictMachine.Proofs.VerdictImage

/-!
# Identifiers separate programs

An identifier is the digest of the code and the constants, each behind its
length. A string behind its length can be cut off from whatever follows it, so
the second length is looked for at one place only, whatever bytes stand there in
another program. Two programs of admitted size thus have different bytes under
the digest, and an identifier that they share is a collision. Nothing is assumed
of the digest.
-/

set_option autoImplicit false

namespace VerdictMachine

namespace Bytes

/-- A byte string behind its length, of which four bytes are written. -/
def framed (bs : Bytes) : Bytes := ofNatLE 4 bs.length ++ bs

theorem framed_append_inj {a b rest rest' : Bytes} (ha : a.length < 1 <<< 32)
    (hb : b.length < 1 <<< 32) (h : framed a ++ rest = framed b ++ rest') :
    a = b ∧ rest = rest' := by
  rw [framed, framed, List.append_assoc, List.append_assoc] at h
  obtain ⟨hfields, hbodies⟩ := List.append_inj h (by simp)
  have hlength : a.length = b.length := by
    rw [← toNatLE_ofNatLE_of_lt (n := 4) ha, hfields, toNatLE_ofNatLE_of_lt hb]
  exact List.append_inj hbodies hlength

/-- Two byte strings that have one digest. -/
def Collide (a b : Bytes) : Prop := a ≠ b ∧ sha3 a = sha3 b

end Bytes

namespace Program

/-- Loading does not refuse the segments for their sizes. -/
def SizesAdmitted (code constants : Bytes) : Prop :=
  ∀ segment size, load code constants ≠ .error (.segmentTooLarge segment size)

theorem sizesAdmitted_iff {code constants : Bytes} :
    SizesAdmitted code constants ↔ code.length ≤ 65535 ∧ constants.length ≤ 65536 := by
  have hloads := load_spec code constants
  unfold SizesAdmitted
  generalize load code constants = r at hloads ⊢
  cases hloads with
  | codeTooLarge hc => exact iff_of_false (fun h => h _ _ rfl) (by omega)
  | constantsTooLarge hc hk => exact iff_of_false (fun h => h _ _ rfl) (by omega)
  | undecodable hc hk hd =>
    obtain ⟨o, cause, -, -, -, rfl⟩ := disassemble_eq_error_iff.mp hd
    exact iff_of_true (by simp) ⟨hc, hk⟩
  | stray hc hk hd hs => exact iff_of_true (by simp) ⟨hc, hk⟩
  | accepted hc hk hd hs => exact iff_of_true (by simp) ⟨hc, hk⟩

theorem id_of_load {code constants : Bytes} {p : Program} (h : load code constants = .ok p) :
    p.id = ProgramId.ofContents code constants := by
  cases loads_iff.mpr h with
  | accepted hc hk hd hs => rfl

end Program

namespace ProgramId

open Program (SizesAdmitted)

variable {code constants code' constants' : Bytes}

theorem preimage_eq (code constants : Bytes) :
    preimage code constants =
      Bytes.ofText "verity:program" ++ (Bytes.framed code ++ Bytes.framed constants) := by
  simp [preimage, Bytes.framed]

theorem preimage_append_inj {rest rest' : Bytes} (h : SizesAdmitted code constants)
    (h' : SizesAdmitted code' constants')
    (heq : preimage code constants ++ rest = preimage code' constants' ++ rest') :
    code = code' ∧ constants = constants' ∧ rest = rest' := by
  obtain ⟨hc, hk⟩ := Program.sizesAdmitted_iff.mp h
  obtain ⟨hc', hk'⟩ := Program.sizesAdmitted_iff.mp h'
  have hroom : 65536 < 1 <<< 32 := by decide
  simp only [preimage_eq, List.append_assoc, List.append_cancel_left_eq] at heq
  obtain ⟨hcode, hrest⟩ := Bytes.framed_append_inj (by omega) (by omega) heq
  exact ⟨hcode, Bytes.framed_append_inj (by omega) (by omega) hrest⟩

theorem eq_of_preimage_eq (h : SizesAdmitted code constants) (h' : SizesAdmitted code' constants')
    (heq : preimage code constants = preimage code' constants') :
    code = code' ∧ constants = constants' := by
  obtain ⟨hcode, hconstants, -⟩ := preimage_append_inj h h' (congrArg (· ++ []) heq)
  exact ⟨hcode, hconstants⟩

theorem collide_of_ofContents_eq (h : SizesAdmitted code constants)
    (h' : SizesAdmitted code' constants')
    (hid : ofContents code constants = ofContents code' constants')
    (hne : (code, constants) ≠ (code', constants')) :
    Bytes.Collide (preimage code constants) (preimage code' constants') := by
  refine ⟨?_, congrArg digest hid⟩
  intro heq
  obtain ⟨rfl, rfl⟩ := eq_of_preimage_eq h h' heq
  exact hne rfl

/-- Of two pairs of code and constants, neither too large for loading, the bytes under the digest
are equal only if code and constants are. If the pairs differ and have one identifier, those bytes
are a collision. So two loaded programs with one identifier are the same, or exhibit a collision. -/
theorem contents_separated (h : SizesAdmitted code constants)
    (h' : SizesAdmitted code' constants') :
    (preimage code constants = preimage code' constants' →
      code = code' ∧ constants = constants') ∧
    (ofContents code constants = ofContents code' constants' →
      (code, constants) ≠ (code', constants') →
      Bytes.Collide (preimage code constants) (preimage code' constants')) ∧
    ∀ p p', Program.load code constants = .ok p → Program.load code' constants' = .ok p' →
      p.id = p'.id →
      p = p' ∨ Bytes.Collide (preimage code constants) (preimage code' constants') := by
  refine ⟨eq_of_preimage_eq h h', collide_of_ofContents_eq h h', ?_⟩
  intro p p' hp hp' hid
  rw [Program.id_of_load hp, Program.id_of_load hp'] at hid
  by_cases heq : (code, constants) = (code', constants')
  · cases heq
    exact .inl (Except.ok.inj (hp.symm.trans hp'))
  · exact .inr (collide_of_ofContents_eq h h' hid heq)

/-- A byte moved from the code to the constants is seen, although the contents put one behind the
other are the same. -/
theorem contents_separated_split :
    SizesAdmitted [0, 1] [] ∧ SizesAdmitted [0] [1] ∧
      preimage [0, 1] [] ≠ preimage [0] [1] ∧
      (ofContents [0, 1] [] = ofContents [0] [1] →
        Bytes.Collide (preimage [0, 1] []) (preimage [0] [1])) := by
  have h : SizesAdmitted [0, 1] [] := Program.sizesAdmitted_iff.mpr (by decide)
  have h' : SizesAdmitted [0] [1] := Program.sizesAdmitted_iff.mpr (by decide)
  obtain ⟨hpreimage, hid, -⟩ := contents_separated h h'
  refine ⟨h, h', ?_, fun heq => hid heq (by decide)⟩
  intro heq
  exact absurd (hpreimage heq).1 (by decide)

end ProgramId

end VerdictMachine

import VerdictMachine.Proofs.Sweep

/-!
# The language of loadable programs

A listing of a code segment is a list of instructions that assembles to it,
each well-formed where it stands and with targets only at the starts of
others. Loading accepts exactly the segments of admitted size that have a
listing; that listing is the only one, and its starts are the boundaries of
the program. A refusal names the first thing that is wrong.
-/

set_option autoImplicit false

namespace VerdictMachine

namespace Instruction

/-- The instructions of a list, each with the offset at which its encoding starts. -/
def layout : Nat → List Instruction → List (Nat × Instruction)
  | _, [] => []
  | o, i :: is => (o, i) :: layout (o + i.encode.length) is

def starts (is : List Instruction) : List Nat := (layout 0 is).map Prod.fst

structure Assembles (code : Bytes) (is : List Instruction) : Prop where
  assembled : assemble is = code
  wellFormed : ∀ o i, (o, i) ∈ layout 0 is → i.WellFormed code.length (o + i.encode.length)

structure Listing (code : Bytes) (is : List Instruction) : Prop extends Assembles code is where
  aligned : ∀ o i t, (o, i) ∈ layout 0 is → i.target? (o + i.encode.length) = some t →
    ∃ s ∈ starts is, (s : Int) = t

end Instruction

namespace Program

open Instruction (decode decode_eq_ok_iff decode_past_end lt_size_of_decode assemble layout starts
  Assembles Listing)

variable {code : Region} {o e : UInt16} {ds : List Decoded}

theorem assemble_cons (i : Instruction) (is : List Instruction) :
    assemble (i :: is) = i.encode ++ assemble is := by
  simp [assemble]

theorem Chain.layout (h : Chain code o ds e) :
    layout o.toNat (ds.map (·.instruction)) = ds.map (fun d => (d.offset.toNat, d.instruction)) ∧
      code.Spells o.toNat (assemble (ds.map (·.instruction))) ∧
      e.toNat = o.toNat + (assemble (ds.map (·.instruction))).length := by
  induction ds generalizing o with
  | nil => exact ⟨rfl, trivial, congrArg UInt16.toNat h.symm⟩
  | cons d ds ih =>
    obtain ⟨ho, hs, hn, -⟩ := decode_eq_ok_iff.mp h.1
    obtain ⟨hl, ht, he⟩ := ih h.2
    rw [hn] at hl ht he
    refine ⟨?_, ?_, ?_⟩
    · rw [List.map_cons, Instruction.layout, hl, List.map_cons, ho]
    · rw [List.map_cons, assemble_cons, Region.spells_append]
      exact ⟨hs, ht⟩
    · rw [List.map_cons, assemble_cons, List.length_append]
      omega

theorem chain_of_spells (is : List Instruction) (o : UInt16)
    (hs : code.Spells o.toNat (assemble is))
    (hw : ∀ a i, (a, i) ∈ layout o.toNat is → i.WellFormed code.size (a + i.encode.length))
    (hl : o.toNat + (assemble is).length ≤ 65535) :
    ∃ ds e, Chain code o ds e ∧ ds.map (·.instruction) = is := by
  induction is generalizing o with
  | nil => exact ⟨[], o, rfl, rfl⟩
  | cons i is ih =>
    rw [assemble_cons, Region.spells_append] at hs
    rw [assemble_cons, List.length_append] at hl
    have hn : (UInt16.ofNat (o.toNat + i.encode.length)).toNat = o.toNat + i.encode.length :=
      UInt16.toNat_ofNat_of_lt' (show _ < 65536 by omega)
    have hd : decode code o = .ok ⟨i, o, UInt16.ofNat (o.toNat + i.encode.length)⟩ := by
      refine decode_eq_ok_iff.mpr ⟨rfl, hs.1, hn, ?_⟩
      rw [hn]
      exact hw o.toNat i List.mem_cons_self
    obtain ⟨ds, e, hc, rfl⟩ := ih (UInt16.ofNat (o.toNat + i.encode.length))
      (by rw [hn]; exact hs.2)
      (by rw [hn]; exact fun a j hj => hw a j (List.mem_cons_of_mem _ hj)) (by rw [hn]; omega)
    exact ⟨_ :: ds, e, ⟨hd, hc⟩, rfl⟩

theorem Chain.mem_layout_iff (h : Chain code 0 ds e) {a : Nat} {i : Instruction} :
    (a, i) ∈ Instruction.layout 0 (ds.map (·.instruction)) ↔
      ∃ d ∈ ds, d.offset.toNat = a ∧ d.instruction = i := by
  have hl := h.layout.1
  rw [UInt16.toNat_zero] at hl
  simp [hl]

theorem Chain.mem_starts_iff (h : Chain code 0 ds e) {a : Nat} :
    a ∈ starts (ds.map (·.instruction)) ↔ ∃ d ∈ ds, d.offset.toNat = a := by
  have hl := h.layout.1
  rw [UInt16.toNat_zero] at hl
  simp [starts, hl]

theorem Chain.mem_spec (h : Chain code o ds e) {d : Decoded} (hd : d ∈ ds) :
    d.next.toNat = d.offset.toNat + d.instruction.encode.length ∧
      d.instruction.WellFormed code.size d.next.toNat := by
  obtain ⟨-, -, hn, hw⟩ := decode_eq_ok_iff.mp (h.mem hd).1
  exact ⟨hn, hw⟩

theorem marked_iff_start (h : Chain code 0 ds e) (o : UInt16) :
    (marks code.size ds).contains o = true ↔ o.toNat ∈ starts (ds.map (·.instruction)) := by
  simp only [contains_marks h.offset_lt, h.mem_starts_iff, UInt16.toNat_inj]

section Listing

variable {code constants : Bytes} {is : List Instruction}

theorem assembles_iff (hc : code.length ≤ 65535) :
    Assembles code is ↔
      ∃ ds, disassemble code.toArray = .ok ds ∧ ds.map (·.instruction) = is := by
  constructor
  · rintro ⟨rfl, hw⟩
    obtain ⟨ds, e, h, rfl⟩ := chain_of_spells is 0 (Region.spells_toArray _)
      (by simpa using hw) (by simpa using hc)
    refine ⟨ds, disassemble_eq_ok_iff.mpr ⟨e, h, ?_⟩, rfl⟩
    rw [h.layout.2.2]
    simp
  · rintro ⟨ds, hd, rfl⟩
    obtain ⟨e, h, he⟩ := disassemble_eq_ok_iff.mp hd
    obtain ⟨-, hs, hn⟩ := h.layout
    have hz : e.toNat = code.toArray.size := Nat.le_antisymm (h.swept .start).le he
    have ha := Region.eq_of_spells hs (by simpa [← hz] using hn.symm)
    refine ⟨by simpa using ha, ?_⟩
    intro a i hi
    obtain ⟨d, hd, rfl, rfl⟩ := h.mem_layout_iff.mp hi
    obtain ⟨hn, hw⟩ := h.mem_spec hd
    simpa [hn] using hw

theorem listing_iff (hc : code.length ≤ 65535) :
    Listing code is ↔
      ∃ ds, disassemble code.toArray = .ok ds ∧
        ds.findSome? (strayTarget? (marks code.toArray.size ds)) = none ∧
        ds.map (·.instruction) = is := by
  constructor
  · rintro ⟨ha, hal⟩
    obtain ⟨ds, hd, rfl⟩ := (assembles_iff hc).mp ha
    obtain ⟨e, h, he⟩ := disassemble_eq_ok_iff.mp hd
    refine ⟨ds, hd, List.findSome?_eq_none_iff.mpr ?_, rfl⟩
    intro d hmem
    by_contra hne
    obtain ⟨⟨a, t⟩, hst⟩ := Option.ne_none_iff_exists'.mp hne
    obtain ⟨rfl, ht, hm⟩ := strayTarget?_eq_some_iff.mp hst
    rw [Decoded.localTarget_eq_some_iff, (h.mem_spec hmem).1] at ht
    obtain ⟨s, hs, hst⟩ := hal _ _ _ (h.mem_layout_iff.mpr ⟨d, hmem, rfl, rfl⟩) ht
    obtain rfl : s = t.toNat := by omega
    exact hm ((marked_iff_start h t).mpr hs)
  · rintro ⟨ds, hd, hn, rfl⟩
    obtain ⟨e, h, he⟩ := disassemble_eq_ok_iff.mp hd
    refine ⟨(assembles_iff hc).mpr ⟨ds, hd, rfl⟩, ?_⟩
    intro a i t hi ht
    obtain ⟨d, hmem, rfl, rfl⟩ := h.mem_layout_iff.mp hi
    rw [← (h.mem_spec hmem).1] at ht
    obtain ⟨u, hu, rfl⟩ := Decoded.exists_localTarget (h.mem hmem).1 (by simpa using hc) ht
    have hno := List.findSome?_eq_none_iff.mp hn d hmem
    have hm : (marks code.toArray.size ds).contains u = true := by
      by_contra hm
      rw [strayTarget?_eq_some_iff.mpr ⟨rfl, hu, hm⟩] at hno
      cases hno
    exact ⟨u.toNat, (marked_iff_start h u).mp hm, rfl⟩

theorem exists_load_of_listing (hc : code.length ≤ 65535) (hk : constants.length ≤ 65536)
    (h : Listing code is) : ∃ p, load code constants = .ok p := by
  obtain ⟨ds, hd, hs, -⟩ := (listing_iff hc).mp h
  exact ⟨_, loads_iff.mp (.accepted hc hk hd hs)⟩

/-- An instruction that the sweep comes to and whose target is no boundary. -/
def Stray (code : Region) (o t : UInt16) : Prop :=
  ∃ d, Swept code o ∧ decode code o = .ok d ∧
    d.instruction.target? d.next.toNat = some (t.toNat : Int) ∧
    ¬ (Swept code t ∧ t.toNat < code.size)

/-- Why loading refuses: each reason presupposes that those before it do not apply. -/
inductive Refused (code constants : Bytes) : LoadError → Prop
  | codeTooLarge (hc : 65535 < code.length) :
      Refused code constants (.segmentTooLarge .code code.length)
  | constantsTooLarge (hc : code.length ≤ 65535) (hk : 65536 < constants.length) :
      Refused code constants (.segmentTooLarge .constant constants.length)
  | undecodable {o : UInt16} {cause : DecodeError} (hc : code.length ≤ 65535)
      (hk : constants.length ≤ 65536) (hs : Swept code.toArray o) (hl : o.toNat < code.length)
      (hd : decode code.toArray o = .error cause)
      (first : ∀ a, Swept code.toArray a → a.toNat < o.toNat → ∃ d, decode code.toArray a = .ok d) :
      Refused code constants (.decode o cause)
  | stray {o t : UInt16} (hc : code.length ≤ 65535) (hk : constants.length ≤ 65536)
      (hd : ∀ a, Swept code.toArray a → a.toNat < code.length → ∃ d, decode code.toArray a = .ok d)
      (hs : Stray code.toArray o t)
      (first : ∀ a b, Stray code.toArray a b → o.toNat ≤ a.toNat) :
      Refused code constants (.misalignedJumpTarget o t)

theorem Stray.target_unique {code : Region} {o t a : UInt16} (h : Stray code o t)
    (ha : Stray code o a) : t = a := by
  obtain ⟨d, -, hd, ht, -⟩ := h
  obtain ⟨c, -, hc, hca, -⟩ := ha
  obtain rfl : d = c := Except.ok.inj (hd.symm.trans hc)
  exact UInt16.toNat_inj.mp (Int.ofNat.inj (Option.some.inj (ht.symm.trans hca)))

theorem stray_iff {code : Region} {e : UInt16} {ds : List Decoded} (h : Chain code 0 ds e)
    (he : code.size ≤ e.toNat) {o t : UInt16} :
    Stray code o t ↔ ∃ d ∈ ds, strayTarget? (marks code.size ds) d = some (o, t) := by
  simp only [strayTarget?_eq_some_iff, Decoded.localTarget_eq_some_iff, contains_iff_swept h he]
  constructor
  · rintro ⟨d, hs, hd, ht, hn⟩
    obtain ⟨c, hc, hcd⟩ := decodes_of_chain h he hs (lt_size_of_decode hd)
    obtain rfl : c = d := Except.ok.inj (hcd.symm.trans hd)
    exact ⟨c, hc, Instruction.decode_offset hd, ht, hn⟩
  · rintro ⟨d, hd, rfl, ht, hn⟩
    exact ⟨d, h.mem_swept .start hd, (h.mem hd).1, ht, hn⟩

theorem first_stray {code : Region} {e : UInt16} {ds : List Decoded} (h : Chain code 0 ds e)
    (he : code.size ≤ e.toNat) {o t : UInt16}
    (hf : ds.findSome? (strayTarget? (marks code.size ds)) = some (o, t)) :
    Stray code o t ∧ ∀ a b, Stray code a b → o.toNat ≤ a.toNat := by
  obtain ⟨as, d, bs, hds, hd, has⟩ := List.findSome?_eq_some_iff.mp hf
  have hmem : d ∈ ds := by simp [hds]
  refine ⟨(stray_iff h he).mpr ⟨d, hmem, hd⟩, ?_⟩
  intro a b hab
  obtain ⟨c, hc, hcs⟩ := (stray_iff h he).mp hab
  obtain ⟨rfl, -⟩ := strayTarget?_eq_some_iff.mp hd
  obtain ⟨rfl, -⟩ := strayTarget?_eq_some_iff.mp hcs
  rw [hds] at h hc
  rcases List.mem_append.mp hc with hc | hc
  · rw [has c hc] at hcs
    cases hcs
  · obtain ⟨m, -, hm⟩ := Chain.append.mp h
    rw [Instruction.decode_offset hm.1]
    exact (hm.mem hc).2

theorem loads_of_refused {err : LoadError} (h : Refused code constants err) :
    Loads code constants (.error err) := by
  cases h with
  | codeTooLarge hc => exact .codeTooLarge hc
  | constantsTooLarge hc hk => exact .constantsTooLarge hc hk
  | undecodable hc hk hs hl hd first =>
    exact .undecodable hc hk (disassemble_eq_error_iff.mpr ⟨_, _, hs, by simpa using hl, hd, rfl⟩)
  | @stray o t hc hk hd hs first =>
    cases hx : disassemble code.toArray with
    | error err =>
      obtain ⟨a, cause, ha, hl, he, -⟩ := disassemble_eq_error_iff.mp hx
      obtain ⟨d, hd⟩ := hd a ha (by simpa using hl)
      simp [he] at hd
    | ok ds =>
      obtain ⟨e, h, he⟩ := disassemble_eq_ok_iff.mp hx
      cases hf : ds.findSome? (strayTarget? (marks code.toArray.size ds)) with
      | none =>
        obtain ⟨d, hmem, hd⟩ := (stray_iff h he).mp hs
        rw [List.findSome?_eq_none_iff.mp hf d hmem] at hd
        cases hd
      | some r =>
        -- Both are the first, and the instruction there has one target.
        obtain ⟨a, b⟩ := r
        obtain ⟨hr, hmin⟩ := first_stray h he hf
        obtain rfl : o = a := UInt16.toNat_inj.mp (Nat.le_antisymm (first _ _ hr) (hmin _ _ hs))
        obtain rfl := hs.target_unique hr
        exact .stray hc hk hx hf

theorem refused_of_loads {err : LoadError} (h : Loads code constants (.error err)) :
    Refused code constants err := by
  cases h with
  | codeTooLarge hc => exact .codeTooLarge hc
  | constantsTooLarge hc hk => exact .constantsTooLarge hc hk
  | undecodable hc hk hd =>
    obtain ⟨o, cause, hs, hl, hx, rfl⟩ := disassemble_eq_error_iff.mp hd
    refine .undecodable hc hk hs (by simpa using hl) hx ?_
    intro a ha hao
    by_contra hn
    have hoa := hs.stuck_unique ha (by simp [hx]) (fun d hd => hn ⟨d, hd⟩)
    rw [hoa] at hao
    exact Nat.lt_irrefl _ hao
  | stray hc hk hd hs =>
    obtain ⟨e, h, he⟩ := disassemble_eq_ok_iff.mp hd
    obtain ⟨hst, hmin⟩ := first_stray h he hs
    refine .stray hc hk ?_ hst hmin
    intro a ha hl
    obtain ⟨d, -, hd⟩ := decodes_of_chain h he ha (by simpa using hl)
    exact ⟨d, hd⟩

end Listing

/-- Loading accepts exactly the well-formed programs. A loaded program has one
listing, whose starts are its boundaries; every refusal is for the first reason
that applies. -/
theorem load_accepts_exactly (code constants : Bytes) :
    ((∃ p, load code constants = .ok p) ↔
      code.length ≤ 65535 ∧ constants.length ≤ 65536 ∧ ∃ is, Listing code is) ∧
    (∀ p, load code constants = .ok p →
      p.code = code.toArray ∧ p.constants = constants.toArray ∧
      ∃ is, Listing code is ∧ (∀ js, Assembles code js → js = is) ∧
        ∀ o : UInt16, p.isBoundary o = true ↔ o.toNat ∈ starts is) ∧
    ∀ err, load code constants = .error err ↔ Refused code constants err := by
  refine ⟨⟨?_, ?_⟩, ?_, ?_⟩
  · rintro ⟨p, hp⟩
    cases loads_iff.mpr hp with
    | accepted hc hk hd hs => exact ⟨hc, hk, _, (listing_iff hc).mpr ⟨_, hd, hs, rfl⟩⟩
  · rintro ⟨hc, hk, is, his⟩
    exact exists_load_of_listing hc hk his
  · intro p hp
    cases loads_iff.mpr hp with
    | @accepted ds hc hk hd hs =>
      refine ⟨rfl, rfl, _, (listing_iff hc).mpr ⟨ds, hd, hs, rfl⟩, ?_, ?_⟩
      · intro js hjs
        obtain ⟨cs, hcs, rfl⟩ := (assembles_iff hc).mp hjs
        rw [Except.ok.inj (hcs.symm.trans hd)]
      · intro o
        obtain ⟨e, h, he⟩ := disassemble_eq_ok_iff.mp hd
        exact marked_iff_start h o
  · intro err
    rw [← loads_iff]
    exact ⟨refused_of_loads, loads_of_refused⟩

/-- A jump into the middle of an instruction, here of itself. -/
example : load [0x04, 0x01, 0x00] [] = .error (.misalignedJumpTarget 0 1) := by rfl

end Program

end VerdictMachine

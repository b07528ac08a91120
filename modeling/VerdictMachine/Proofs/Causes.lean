import VerdictMachine.Proofs.Footprint

/-!
# Why a step faults

For each fault there is a condition on the machine before the step, said without
executing anything: the code has ended, the price is beyond the limit, a range
does not lie in its segment, a library is not to be had, a frame does not fit or
is not there, the transfers are spent. A step faults if and only if one of these
conditions holds, and if several do, the fault is the one that ranks first.

The other ways out that the definitions leave open never come up in a run: a
frame that cannot be read, a caller that is not known, a jump without a target,
a proof whose address wraps.
-/

set_option autoImplicit false

namespace VerdictMachine

namespace Fault

/-- The order in which the causes of faults count. -/
def rank : Fault → Nat
  | .endOfCode => 0
  | .complexityLimitExceeded => 1
  | .segmentOutOfBounds => 2
  | .libraryNotFound => 3
  | .libraryMismatch => 4
  | .invalidLibraryEntry => 5
  | .stackUnderflow => 6
  | .stackOverflow => 7
  | .cycleLimitExceeded => 8
  | .illegalInstruction => 9

theorem eq_of_rank_eq {f g : Fault} (h : f.rank = g.rank) : f = g := by
  cases f <;> cases g <;> first | rfl | cases h

/-- A condition holds for no fault that ranks before this one. -/
def Clear (cause : Fault → Prop) (f : Fault) : Prop := ∀ g, g.rank < f.rank → ¬ cause g

theorem Clear.upTo {cause : Fault → Prop} {f : Fault} (h : Clear cause f) (f' : Fault)
    (hr : f'.rank = f.rank + 1) (hf : ¬ cause f) : Clear cause f' := by
  intro g hg
  by_cases hlt : g.rank < f.rank
  · exact h g hlt
  · obtain rfl : g = f := eq_of_rank_eq (by omega)
    exact hf

/-- The fault that ranks first of those for which a condition holds. -/
structure First (cause : Fault → Prop) (f : Fault) : Prop where
  holds : cause f
  earlier : Clear cause f

theorem First.unique {cause : Fault → Prop} {f g : Fault} (hf : First cause f)
    (hg : First cause g) : f = g := by
  apply eq_of_rank_eq
  apply Nat.le_antisymm
  · exact Nat.le_of_not_lt fun h => hf.earlier g h hg.holds
  · exact Nat.le_of_not_lt fun h => hg.earlier f h hf.holds

end Fault

/-- An effect is a fault for the first cause that holds, and no fault if none does. -/
def Effect.Explained (cause : Fault → Prop) : Effect → Prop
  | .fault f _ => Fault.First cause f
  | .done .. => ∀ f, ¬ cause f

theorem Control.charge_error_limit {c : Control} {cost : UInt64} {f : Fault}
    (h : c.charge cost = .error f) :
    ∃ limit, c.limit = some limit ∧ limit < saturatingAdd c.complexity cost := by
  unfold charge at h
  cases hl : c.limit with
  | none => simp [hl] at h
  | some limit =>
    simp only [hl] at h
    split_ifs at h with hlt
    exact ⟨limit, rfl, hlt⟩

theorem Program.Loaded.constants_le {p : Program} (h : p.Loaded) : p.constants.size ≤ 65536 := by
  obtain ⟨code, constants, h⟩ := h
  have hl := Program.load_spec code constants
  rw [h] at hl
  cases hl with
  | accepted hc hk hd hs => exact hk

theorem Library.Supplies.unique {l : Library} {host : Resolver} {id : ProgramId} {p q : Program}
    (hp : l.Supplies host id p) (hq : l.Supplies host id q) : p = q := by
  rcases hp with hp | ⟨hn, hp, -⟩ <;> rcases hq with hq | ⟨hn', hq, -⟩
  · exact Option.some.inj (hp.symm.trans hq)
  · rw [hp] at hn'
    cases hn'
  · rw [hq] at hn
    cases hn
  · exact Option.some.inj (hp.symm.trans hq)

theorem CallStack.fits_iff (s : CallStack) (f : Frame) :
    s.fits f = true ↔ ¬ s.capacity < s.top + f.size := by
  simp [fits, capacity]

namespace Memory

/-- How many bytes a segment has. For the output this is what it can take, not its length. -/
def extent (m : Memory) (constants : Region) : Segment → Nat
  | .constant => constants.size
  | .static => m.static.size
  | .input => m.input.size
  | .output => m.outputCells.size
  | .code | .callStack => 0

theorem exists_readable (m : Memory) (constants : Region) {seg : Segment}
    (h : seg.readable = true) :
    ∃ cells, m.readable? constants seg = some cells ∧ cells.size = m.extent constants seg := by
  cases seg with
  | constant | static | input => exact ⟨_, rfl, rfl⟩
  | code | callStack | output => cases h

theorem read_of_readable {m : Memory} {constants cells : Region} {seg : Segment}
    (h : m.readable? constants seg = some cells) (address : UInt32) (len : Nat) :
    m.read constants seg address len =
      if cells.size < address.toNat + len then .error .segmentOutOfBounds
      else .ok (cells.read address.toNat len) := by
  simp only [read, h, Segment.range?]
  by_cases hl : address.toNat + len ≤ cells.size
  · rw [if_pos hl, if_neg (Nat.not_lt.mpr hl)]
  · rw [if_neg hl, if_pos (Nat.lt_of_not_le hl)]

theorem admits_iff (m : Memory) (constants : Region) {seg : Segment} (h : seg.writable = true)
    (address : UInt32) (len : Nat) :
    m.admits seg address len = true ↔ address.toNat + len ≤ m.extent constants seg := by
  have hr : ∀ size, (Segment.range? size address len).isSome = true ↔
      address.toNat + len ≤ size := by
    intro size
    unfold Segment.range?
    split_ifs with hl
    · simp [hl]
    · simp [hl]
  cases seg with
  | static => exact hr m.static.size
  | output => exact hr m.outputCells.size
  | code | constant | callStack | input => cases h

end Memory

namespace Machine

def extent (m : Machine) (seg : Segment) : Nat := m.memory.extent m.program.constants seg

/-- The byte at an offset of a segment that can be read. -/
def byte? (m : Machine) (seg : Segment) (i : Nat) : Option UInt8 :=
  (m.memory.readable? m.program.constants seg).bind (·[i]?)

/-- What an instruction reads or stores does not lie in its segment. A Merkle proof has a header
of five bytes; its siblings count only if the depth at its start is not too large. -/
def Overruns (m : Machine) : Instruction → Prop
  | .ldc bank _ offset => m.extent .constant < offset.toNat + bank.bytes
  | .ld seg bank _ addr | .st seg bank _ addr =>
    m.extent seg < (m.registers.a32 addr).toNat + bank.bytes
  | .sha3Mem seg _ addr size =>
    m.extent seg < (m.registers.a32 addr).toNat + (m.registers.a32 size).toNat
  | .verifyMerkle _ _ seg addr =>
    m.extent seg < (m.registers.a32 addr).toNat + 5 ∨
      ∃ depth, m.byte? seg (m.registers.a32 addr).toNat = some depth ∧ depth.toNat ≤ 32 ∧
        m.extent seg < (m.registers.a32 addr).toNat + 5 + 32 * depth.toNat
  | _ => False

/-- What keeps an instruction that has been paid for from completing. -/
def Hinders (host : Resolver) (m : Machine) (i : Instruction) : Fault → Prop
  | .segmentOutOfBounds => m.Overruns i
  | .libraryNotFound =>
    match i with
    | .callLib id _ => m.libraries.find? id = none ∧ host id = none
    | _ => False
  | .libraryMismatch =>
    match i with
    | .callLib id _ => m.libraries.find? id = none ∧ ∃ p, host id = some p ∧ p.id ≠ id
    | _ => False
  | .invalidLibraryEntry =>
    match i with
    | .callLib id entry => ∃ p, m.libraries.Supplies host id p ∧ p.isBoundary entry = false
    | _ => False
  | .stackUnderflow => i = .ret ∧ m.stack.top = 0
  | .stackOverflow =>
    match i with
    | .call _ => m.stack.capacity < m.stack.top + 3
    | .callLib .. => m.stack.capacity < m.stack.top + 35
    | _ => False
  | .cycleLimitExceeded => m.transfers i = true ∧ m.control.cycles = 65535
  | .illegalInstruction | .endOfCode | .complexityLimitExceeded => False

/-- What makes the next step of a machine fault. -/
def Cause (host : Resolver) (m : Machine) : Fault → Prop
  | .endOfCode => m.pc.toNat = m.program.code.size
  | .complexityLimitExceeded =>
    ∃ d limit, Instruction.decode m.program.code m.pc = .ok d ∧ m.control.limit = some limit ∧
      limit.toNat < m.control.complexity.toNat + d.instruction.cost.toNat
  | f => ∃ d, Instruction.decode m.program.code m.pc = .ok d ∧ m.Hinders host d.instruction f

/-- No segment is larger than its limit, and so none is near the end of the range of addresses. -/
def Bounded (m : Machine) : Prop := ∀ seg : Segment, m.extent seg ≤ seg.limit

variable {host : Resolver} {d : Decoded} {m : Machine} {i : Instruction}

theorem hinders_of_not_transfers {f : Fault} (hi : m.transfers i = false)
    (h : m.Hinders host i f) : f = .segmentOutOfBounds ∧ m.Overruns i := by
  cases f with
  | segmentOutOfBounds => exact ⟨rfl, h⟩
  | libraryNotFound | libraryMismatch | invalidLibraryEntry =>
    cases i with
    | callLib => cases hi
    | _ => exact h.elim
  | stackUnderflow =>
    rw [h.1] at hi
    cases hi
  | stackOverflow =>
    cases i with
    | call | callLib => cases hi
    | _ => exact h.elim
  | cycleLimitExceeded =>
    rw [show m.transfers i = true from h.1] at hi
    cases hi
  | illegalInstruction | endOfCode | complexityLimitExceeded => exact h.elim

theorem explained_done (hi : m.transfers i = false) (hn : ¬ m.Overruns i) (flow : Flow)
    (m' : Machine) : (Effect.done flow m').Explained (m.Hinders host i) :=
  fun _ h => hn (hinders_of_not_transfers hi h).2

theorem explained_range (hi : m.transfers i = false) (ho : m.Overruns i) (m' : Machine) :
    (Effect.fault .segmentOutOfBounds m').Explained (m.Hinders host i) := by
  refine ⟨ho, ?_⟩
  intro g hg h
  obtain ⟨rfl, -⟩ := hinders_of_not_transfers hi h
  exact Nat.lt_irrefl _ hg

theorem read_cases (m : Machine) {seg : Segment} (hseg : seg.readable = true) (address : UInt32)
    (len : Nat) :
    m.extent seg < address.toNat + len ∧
        m.memory.read m.program.constants seg address len = .error .segmentOutOfBounds ∨
      ¬ m.extent seg < address.toNat + len ∧
        ∃ bs, m.memory.read m.program.constants seg address len = .ok bs := by
  obtain ⟨cells, hcells, hsize⟩ := m.memory.exists_readable m.program.constants hseg
  rw [Memory.read_of_readable hcells, hsize]
  by_cases hl : m.extent seg < address.toNat + len
  · exact .inl ⟨hl, if_pos hl⟩
  · exact .inr ⟨hl, _, if_neg hl⟩

theorem loadRegister_explained {seg : Segment} (hseg : seg.readable = true) (bank : Bank)
    (dst : Register) (address : UInt32) (hi : m.transfers i = false)
    (ho : m.Overruns i ↔ m.extent seg < address.toNat + bank.bytes) :
    (m.loadRegister seg bank dst address).Explained (m.Hinders host i) := by
  unfold loadRegister
  rcases m.read_cases hseg address bank.bytes with ⟨hl, hr⟩ | ⟨hl, bs, hr⟩
  · rw [hr]
    exact explained_range hi (ho.mpr hl) m
  · rw [hr]
    exact explained_done hi (fun h => hl (ho.mp h)) _ _

theorem hashRange_explained {seg : Segment} (hseg : seg.readable = true)
    (dst addr size : Register) :
    (m.hashRange seg dst addr size).Explained (m.Hinders host (.sha3Mem seg dst addr size)) := by
  have hi : m.transfers (.sha3Mem seg dst addr size) = false := rfl
  unfold hashRange
  dsimp only
  rcases m.read_cases hseg (m.registers.a32 addr) (m.registers.a32 size).toNat with
    ⟨hl, hr⟩ | ⟨hl, bs, hr⟩
  · rw [hr]
    exact explained_range hi hl m
  · rw [hr]
    exact explained_done hi hl _ _

theorem storeRegister_explained {seg : Segment} (hseg : seg.writable = true) (bank : Bank)
    (src addr : Register) :
    (m.storeRegister seg bank src (m.registers.a32 addr)).Explained
      (m.Hinders host (.st seg bank src addr)) := by
  have hi : m.transfers (.st seg bank src addr) = false := rfl
  have ha := m.memory.admits_iff m.program.constants hseg (m.registers.a32 addr) bank.bytes
  rw [storeRegister_eq, m.registers.length_slot]
  by_cases hl : m.memory.admits seg (m.registers.a32 addr) bank.bytes = true
  · rw [if_pos hl]
    exact explained_done hi (Nat.not_lt.mpr (ha.mp hl)) _ _
  · rw [if_neg hl]
    exact explained_range hi (Nat.lt_of_not_le fun h => hl (ha.mpr h)) m

/-- Once the header of a proof is there, its first byte decides what else is read. The segment is
short, so the address behind the header does not wrap. -/
theorem merkleHolds_of_header {seg : Segment} {cells : Region} {address : UInt32} {depth : UInt8}
    (hcells : m.memory.readable? m.program.constants seg = some cells)
    (hsize : cells.size ≤ 1048576) (hh : address.toNat + 5 ≤ cells.size)
    (hdepth : cells[address.toNat]? = some depth) (root leaf : Register) :
    ∃ valid, m.merkleHolds root leaf seg address =
      if 32 < depth.toNat then .ok false
      else if cells.size < address.toNat + 5 + 32 * depth.toNat then .error .segmentOutOfBounds
      else .ok valid := by
  have hfit : ¬ UInt32.size ≤ address.toNat + 5 := by
    simp only [UInt32.size]
    omega
  have hnext : (address + UInt32.ofNat 5).toNat = address.toNat + 5 := by
    simp only [UInt32.toNat_add, UInt32.toNat_ofNat']
    omega
  have hone : Bytes.toNatLE [depth] = depth.toNat := by simp [Bytes.toNatLE]
  simp only [merkleHolds, Memory.read_of_readable hcells, proofHeaderBytes, bind, Except.bind,
    if_neg (Nat.not_lt.mpr hh), Region.read_succ 4 hdepth, List.take_succ_cons, List.take_zero,
    hone, Merkle.maxDepth, if_neg hfit, hnext]
  by_cases hd : 32 < depth.toNat
  · exact ⟨false, by rw [if_pos hd, if_pos hd]; rfl⟩
  · by_cases hl : cells.size < address.toNat + 5 + 32 * depth.toNat
    · exact ⟨false, by rw [if_neg hd, if_pos hl, if_neg hd, if_pos hl]⟩
    · rw [if_neg hd, if_neg hl]
      exact ⟨_, by rw [if_neg hd, if_neg hl]; rfl⟩

theorem merkleHolds_cases (hb : m.Bounded) (root leaf : Register) {seg : Segment}
    (hseg : seg.readable = true) (addr : Register) :
    m.Overruns (.verifyMerkle root leaf seg addr) ∧
        m.merkleHolds root leaf seg (m.registers.a32 addr) = .error .segmentOutOfBounds ∨
      ¬ m.Overruns (.verifyMerkle root leaf seg addr) ∧
        ∃ valid, m.merkleHolds root leaf seg (m.registers.a32 addr) = .ok valid := by
  obtain ⟨cells, hcells, hsize⟩ := m.memory.exists_readable m.program.constants hseg
  change cells.size = m.extent seg at hsize
  have hle : m.extent seg ≤ 1048576 := Nat.le_trans (hb seg) (by cases seg <;> decide)
  have hbyte : m.byte? seg (m.registers.a32 addr).toNat = cells[(m.registers.a32 addr).toNat]? := by
    rw [byte?, hcells, Option.bind_some]
  simp only [Overruns, hbyte, ← hsize]
  generalize m.registers.a32 addr = address
  by_cases hh : cells.size < address.toNat + 5
  · left
    refine ⟨.inl hh, ?_⟩
    simp only [merkleHolds, Memory.read_of_readable hcells, proofHeaderBytes, if_pos hh, bind,
      Except.bind]
  · have hdepth : ∃ depth, cells[address.toNat]? = some depth :=
      ⟨_, Array.getElem?_eq_getElem (by omega)⟩
    obtain ⟨depth, hdepth⟩ := hdepth
    obtain ⟨valid, heq⟩ := merkleHolds_of_header hcells (by omega) (Nat.le_of_not_lt hh) hdepth
      root leaf
    rw [heq, hdepth]
    by_cases hover : depth.toNat ≤ 32 ∧ cells.size < address.toNat + 5 + 32 * depth.toNat
    · left
      rw [if_neg (Nat.not_lt.mpr hover.1), if_pos hover.2]
      exact ⟨.inr ⟨depth, rfl, hover⟩, rfl⟩
    · right
      refine ⟨?_, ?_⟩
      · rintro (hx | ⟨other, ho, hx⟩)
        · exact hh hx
        · obtain rfl := Option.some.inj ho
          exact hover hx
      · by_cases hd : 32 < depth.toNat
        · exact ⟨false, if_pos hd⟩
        · exact ⟨valid, by rw [if_neg hd, if_neg fun hl => hover ⟨Nat.le_of_not_lt hd, hl⟩]⟩

theorem demandMerkle_explained (hb : m.Bounded) (root leaf : Register) {seg : Segment}
    (hseg : seg.readable = true) (addr : Register) :
    (m.demandMerkle root leaf seg (m.registers.a32 addr)).Explained
      (m.Hinders host (.verifyMerkle root leaf seg addr)) := by
  have hi : m.transfers (.verifyMerkle root leaf seg addr) = false := rfl
  unfold demandMerkle
  rcases m.merkleHolds_cases hb root leaf hseg addr with ⟨ho, h⟩ | ⟨ho, valid, h⟩
  · rw [h]
    exact explained_range hi ho m
  · rw [h]
    exact explained_done hi ho _ _

theorem explained_recordCycle (hi : m.transfers i = true)
    (hn : Fault.Clear (m.Hinders host i) .cycleLimitExceeded) {next : Control → Effect}
    (hnext : ∀ control, ∃ flow m', next control = .done flow m') :
    Effect.Explained (m.Hinders host i)
      (match m.control.recordCycle with
        | .error f => .fault f m
        | .ok control => next control) := by
  rcases m.control.recordCycle_cases with ⟨hc, hr⟩ | ⟨hc, hr⟩
  · rw [hr]
    exact ⟨⟨hi, hc⟩, hn⟩
  · rw [hr]
    have hclear := hn.upTo .illegalInstruction rfl fun h => hc h.2
    obtain ⟨flow, m', he⟩ := hnext { m.control with cycles := m.control.cycles + 1 }
    dsimp only
    rw [he]
    intro g hg
    cases g with
    | illegalInstruction => exact hg
    | _ => exact hclear _ (by decide) hg

theorem jump_explained (hs : m.course.Sound) (hd : Instruction.decode m.program.code m.pc = .ok d)
    {guard : Option Condition} {dest : Destination} (hi : d.instruction = .jump guard dest) :
    (m.jump guard d.localTarget).Explained (m.Hinders host (.jump guard dest)) := by
  obtain ⟨t, ht⟩ : ∃ t, d.instruction.target? d.next.toNat = some t := by
    rw [hi]
    cases dest <;> exact ⟨_, rfl⟩
  obtain ⟨target, ht, -⟩ := Decoded.exists_localTarget hd hs.loaded.valid.size_le ht
  rw [ht]
  rcases m.jump_cases guard dest target with ⟨hf, h⟩ | ⟨hf, h⟩
  · rw [h]
    exact explained_done hf (fun ho => ho) _ _
  · rw [h]
    refine explained_recordCycle hf ?_ fun control => ⟨_, _, rfl⟩
    intro g hg hx
    cases g with
    | stackUnderflow => cases hx.1
    | cycleLimitExceeded | illegalInstruction => exact absurd hg (by decide)
    | _ => exact hx

theorem pushFrame_explained (hi : m.transfers i = true) {frame : Frame}
    (hf : m.Hinders host i .stackOverflow ↔ m.stack.capacity < m.stack.top + frame.size)
    (hn : Fault.Clear (m.Hinders host i) .stackOverflow) (flow : Flow) :
    (m.pushFrame frame flow).Explained (m.Hinders host i) := by
  rw [pushFrame_eq]
  by_cases hfit : m.stack.fits frame = true
  · rw [if_neg (by simp [hfit])]
    have hclear : Fault.Clear (m.Hinders host i) .cycleLimitExceeded :=
      hn.upTo _ rfl fun ho => (m.stack.fits_iff frame).mp hfit (hf.mp ho)
    exact explained_recordCycle hi hclear fun control => ⟨_, _, rfl⟩
  · rw [if_pos (by simp [hfit])]
    have hover : m.stack.capacity < m.stack.top + frame.size := by
      by_contra hle
      exact hfit ((m.stack.fits_iff frame).mpr hle)
    exact ⟨hf.mpr hover, hn⟩

theorem call_explained (t ret : UInt16) :
    (m.call t ret).Explained (m.Hinders host (.call t)) := by
  refine pushFrame_explained rfl Iff.rfl ?_ _
  intro g hg hx
  cases g with
  | stackUnderflow => cases hx.1
  | stackOverflow | cycleLimitExceeded | illegalInstruction => exact absurd hg (by decide)
  | _ => exact hx

/-- Without a library there is no call of it; with one, nothing stands against the call as yet
but its entry, the stack and the cycles. -/
theorem resolve_explained (m : Machine) (host : Resolver) (id : ProgramId) (entry : UInt16) :
    (∃ f, Fault.First (m.Hinders host (.callLib id entry)) f ∧ m.resolve host id = .error f) ∨
      ∃ p, m.libraries.Supplies host id p ∧
        Fault.Clear (m.Hinders host (.callLib id entry)) .invalidLibraryEntry ∧
        m.resolve host id = .ok p := by
  have hclear : Fault.Clear (m.Hinders host (.callLib id entry)) .libraryNotFound := by
    intro g hg hx
    cases g with
    | endOfCode | complexityLimitExceeded | segmentOutOfBounds => exact hx
    | _ => exact absurd hg (by decide)
  unfold resolve
  cases hl : m.libraries.find? id with
  | some p =>
    have hknown : m.libraries.find? id ≠ none := by
      rw [hl]
      nofun
    refine .inr ⟨p, .inl hl, ?_, rfl⟩
    have hfound := hclear.upTo .libraryMismatch rfl fun h => hknown h.1
    exact hfound.upTo _ rfl fun h => hknown h.1
  | none =>
    cases hh : host id with
    | none => exact .inl ⟨.libraryNotFound, ⟨⟨hl, hh⟩, hclear⟩, rfl⟩
    | some p =>
      have hfound : Fault.Clear (m.Hinders host (.callLib id entry)) .libraryMismatch := by
        apply hclear.upTo _ rfl
        rintro ⟨-, hn⟩
        rw [hh] at hn
        cases hn
      by_cases hp : p.id = id
      · refine .inr ⟨p, .inr ⟨hl, hh, hp⟩, hfound.upTo _ rfl ?_, if_pos hp⟩
        rintro ⟨-, q, hq, hne⟩
        obtain rfl := Option.some.inj (hh.symm.trans hq)
        exact hne hp
      · exact .inl ⟨.libraryMismatch, ⟨⟨hl, p, hh, hp⟩, hfound⟩, if_neg hp⟩

theorem callLibrary_explained (id : ProgramId) (entry ret : UInt16) :
    (m.callLibrary host id entry ret).Explained (m.Hinders host (.callLib id entry)) := by
  unfold callLibrary
  rcases m.resolve_explained host id entry with ⟨f, hf, h⟩ | ⟨p, hp, hclear, h⟩
  · rw [h]
    exact hf
  · rw [h]
    dsimp only
    by_cases he : p.isBoundary entry = true
    · rw [if_neg (by simp [he])]
      have hentry : ¬ m.Hinders host (.callLib id entry) .invalidLibraryEntry := by
        rintro ⟨q, hq, hne⟩
        obtain rfl := hp.unique hq
        rw [he] at hne
        cases hne
      have hframe := (hclear.upTo .stackUnderflow rfl hentry).upTo .stackOverflow rfl
        fun h => nomatch h.1
      have hpush : (m.pushFrame (.library m.program.id ret) (.enter id entry)).Explained
          (m.Hinders host (.callLib id entry)) := pushFrame_explained rfl Iff.rfl hframe _
      cases hx : m.pushFrame (.library m.program.id ret) (.enter id entry) with
      | fault f m' =>
        rw [hx] at hpush
        exact hpush
      | done flow m' =>
        rw [hx] at hpush
        exact hpush
    · rw [if_pos (by simp [he])]
      exact ⟨⟨p, hp, by simpa using he⟩, hclear⟩

/-- A return comes to nothing unexpected: at a sound course there is a frame if the stack is not
empty, and the caller that it names is known. -/
theorem ret_explained (hs : m.course.Sound) : m.ret.Explained (m.Hinders host .ret) := by
  obtain ⟨fs, entry, hf, hu⟩ := hs.unwinds
  change m.stack.Holds fs at hf
  have hclear : Fault.Clear (m.Hinders host .ret) .stackUnderflow := by
    intro g hg hx
    cases g with
    | stackUnderflow | stackOverflow | cycleLimitExceeded | illegalInstruction =>
      exact absurd hg (by decide)
    | _ => exact hx
  rw [ret_eq]
  cases fs with
  | nil =>
    rw [if_pos (hf.isEmpty_iff.mpr rfl)]
    exact ⟨⟨rfl, by simpa [CallStack.isEmpty] using hf.isEmpty_iff.mpr rfl⟩, hclear⟩
  | cons f fs =>
    have he : ¬ m.stack.isEmpty = true := fun h => List.cons_ne_nil _ _ (hf.isEmpty_iff.mp h)
    have hp : m.stack.peek = some f := hf.peek
    rw [if_neg he]
    have hframe : ¬ m.Hinders host .ret .stackUnderflow :=
      fun h => he (by simp [CallStack.isEmpty, h.2])
    have hcycle := (hclear.upTo .stackOverflow rfl hframe).upTo .cycleLimitExceeded rfl id
    refine explained_recordCycle rfl hcycle fun control => ?_
    rw [hp]
    cases hu with
    | plain hr hu => exact ⟨_, _, rfl⟩
    | library hl hr hu =>
      change m.libraries.find? _ = some _ at hl
      dsimp only [returnTo]
      rw [hl]
      exact ⟨_, _, rfl⟩

theorem execute_explained (hs : m.course.Sound)
    (hd : Instruction.decode m.program.code m.pc = .ok d) (hb : m.Bounded) :
    (execute host d m).Explained (m.Hinders host d.instruction) := by
  have hperm := (Instruction.decode_eq_ok_iff.mp hd).2.2.2.permitted
  unfold execute
  cases hi : d.instruction with
  | jump guard dest => exact jump_explained hs hd hi
  | call t => exact call_explained t d.next
  | callLib id entry => exact callLibrary_explained id entry d.next
  | ret => exact ret_explained hs
  | ldc bank dst offset =>
    have ho : offset.toUInt32.toNat = offset.toNat := UInt16.toNat_toUInt32 offset
    exact loadRegister_explained rfl bank dst _ rfl (by rw [ho]; exact Iff.rfl)
  | ld seg bank dst addr =>
    rw [hi] at hperm
    exact loadRegister_explained hperm bank dst _ rfl Iff.rfl
  | st seg bank src addr =>
    rw [hi] at hperm
    exact storeRegister_explained hperm bank src addr
  | sha3Mem seg dst addr size =>
    rw [hi] at hperm
    exact hashRange_explained hperm dst addr size
  | verifyMerkle root leaf seg addr =>
    rw [hi] at hperm
    exact demandMerkle_explained hb root leaf hperm addr
  | _ => exact explained_done rfl id _ _

theorem hinders_pay (m : Machine) (cost : UInt64) (i : Instruction) :
    (m.pay cost).Hinders host i = m.Hinders host i := by
  funext f
  cases f <;> rfl

theorem Executes.state_eq {flow : Flow} {m' : Machine} (h : Executes host d m (.done flow m')) :
    m'.state = m.state := by
  cases h with
  | next hi h => exact h.state
  | halt => rfl
  | transfer hi hf ht hm hpc hs hn hc => exact hs

theorem cause_eq_hinders (hu : m.Unsaturated)
    (hd : Instruction.decode m.program.code m.pc = .ok d)
    (hc : m.control.charge d.instruction.cost = .ok (m.pay d.instruction.cost).control) :
    m.Cause host = m.Hinders host d.instruction := by
  funext f
  have hiff : (∃ e, Instruction.decode m.program.code m.pc = .ok e ∧
      m.Hinders host e.instruction f) ↔ m.Hinders host d.instruction f := by
    constructor
    · rintro ⟨e, he, h⟩
      obtain rfl := Except.ok.inj (hd.symm.trans he)
      exact h
    · exact fun h => ⟨d, hd, h⟩
  apply propext
  cases f with
  | endOfCode => exact ⟨Nat.ne_of_lt (Instruction.lt_size_of_decode hd), False.elim⟩
  | complexityLimitExceeded =>
    refine ⟨?_, False.elim⟩
    rintro ⟨e, limit, he, hl, hlt⟩
    obtain rfl := Except.ok.inj (hd.symm.trans he)
    have hle := UInt64.le_iff_toNat_le.mp ((Control.charge_eq_ok hc).2 limit hl)
    rw [hu.charge] at hle
    exact Nat.not_lt.mpr hle hlt
  | _ => exact hiff

theorem Guarded.step_explained (h : m.Guarded) (hb : m.Bounded) (hu : m.Unsaturated)
    (hr : m.state = .running) (host : Resolver) :
    (∃ f, (m.step host).machine.state = .failed (.runtime f) ∧ Fault.First (m.Cause host) f) ∨
      (∀ f, (m.step host).machine.state ≠ .failed (.runtime f)) ∧ ∀ f, ¬ m.Cause host f := by
  have hexec : ∀ d, Instruction.decode m.program.code m.pc = .ok d →
      m.control.charge d.instruction.cost = .ok (m.pay d.instruction.cost).control →
      (execute host d (m.pay d.instruction.cost)).Explained (m.Cause host) := by
    intro d hd hc
    rw [cause_eq_hinders hu hd hc, ← m.hinders_pay d.instruction.cost]
    exact execute_explained h.sound hd hb
  have hstages := step_stages host h.sound hr
  generalize m.step host = r at hstages
  cases hstages with
  | ended hd =>
    refine .inl ⟨.endOfCode, rfl, ?_, fun g hg => absurd hg (Nat.not_lt_zero _)⟩
    rcases h.sound.decode_cases with ⟨-, d, hd'⟩ | ⟨he, -⟩
    · cases hd.symm.trans hd'
    · exact he
  | @refused d hd hc =>
    obtain ⟨limit, hl, hlt⟩ := Control.charge_error_limit hc
    rw [UInt64.lt_iff_toNat_lt, hu.charge] at hlt
    refine .inl ⟨.complexityLimitExceeded, rfl, ⟨d, limit, hd, hl, hlt⟩, ?_⟩
    intro g hg hx
    cases g with
    | endOfCode => exact Nat.ne_of_lt (Instruction.lt_size_of_decode hd) hx
    | _ => exact absurd hg (by decide)
  | @faulted d f hd hc hx =>
    have he := hexec d hd hc
    rw [hx] at he
    exact .inl ⟨f, rfl, he⟩
  | @settled d flow m' hd hc hx =>
    have he := hexec d hd hc
    have hspec : Executes host d (m.pay d.instruction.cost) _ := execute_spec h.sound hd
    rw [hx] at he hspec
    refine .inr ⟨?_, he⟩
    intro f
    apply (m'.settles_settle _ _ _ _ _).legal
    rw [hspec.state_eq, show (m.pay d.instruction.cost).state = .running from hr]
    nofun

variable {hosts : Nat → Resolver} {m₀ : Machine} {p : Program} {code constants input : Bytes}
  {config : Config}

theorem bounded_load (hp : p.Loaded) (hm : Machine.load p input config = .ok m₀) :
    m₀.Bounded := by
  have hstart := load_eq_ok hm
  simp only [load, checkCapacity, bind, Except.bind, throw, throwThe, MonadExceptOf.throw, pure,
    Except.pure] at hm
  split_ifs at hm with hi hs hc ho
  rw [hstart]
  intro seg
  cases seg with
  | constant => exact hp.constants_le
  | static => exact Nat.le_trans (Nat.le_of_eq (Array.size_replicate ..)) (Nat.le_of_not_lt hs)
  | input => exact Nat.le_of_not_lt hi
  | output => exact Nat.le_trans (Nat.le_of_eq (Array.size_replicate ..)) (Nat.le_of_not_lt ho)
  | code | callStack => exact Nat.zero_le _

theorem bounded_after (hp : Program.load code constants = .ok p)
    (hm : Machine.load p input config = .ok m₀) (hh : ∀ k, (hosts k).Genuine) (n : Nat) :
    (m₀.after hosts n).Bounded := by
  have hb := bounded_load ⟨code, constants, hp⟩ hm
  have hkept : ∀ part : Part, part.fixed = true → m₀.Agree (m₀.after hosts n) part :=
    fun part h => agree_after_of_fixed hp hm hh h n
  intro seg
  cases seg with
  | constant => exact ((guarded_load hp hm).after hh n).sound.loaded.constants_le
  | static => exact Nat.le_trans (Nat.le_of_eq (hkept .staticSize rfl)) (hb .static)
  | input => exact Nat.le_trans (Nat.le_of_eq (congrArg Array.size (hkept .input rfl))) (hb .input)
  | output => exact Nat.le_trans (Nat.le_of_eq (hkept .outputSize rfl)) (hb .output)
  | code | callStack => exact Nat.zero_le _

/-- At every point of every run, a step faults if and only if there is a cause for it, and then
with the fault that ranks first of those that there is a cause for. -/
theorem fault_cause_exact (hp : Program.load code constants = .ok p)
    (hm : Machine.load p input config = .ok m₀) (hh : ∀ k, (hosts k).Genuine) {n : Nat}
    (host : Resolver) (hr : (m₀.after hosts n).state = .running) (f : Fault) :
    let m := m₀.after hosts n
    (m.step host).machine.state = .failed (.runtime f) ↔
      m.Cause host f ∧ ∀ g, g.rank < f.rank → ¬ m.Cause host g := by
  intro m
  have hg : m.Guarded := (guarded_load hp hm).after hh n
  have hu : m.Unsaturated := unsaturated_after hp hm hh n
  rcases hg.step_explained (bounded_after hp hm hh n) hu hr host with ⟨g, hs, hfirst⟩ | ⟨hs, hn⟩
  · rw [hs]
    constructor
    · intro he
      obtain rfl : g = f := Reason.runtime.inj (RunState.failed.inj he)
      exact ⟨hfirst.holds, hfirst.earlier⟩
    · rintro ⟨hc, hearlier⟩
      rw [hfirst.unique ⟨hc, hearlier⟩]
  · exact ⟨fun he => absurd he (hs f), fun hc => absurd hc.1 (hn f)⟩

/-- A call that recurses with a full stack when the limit is used up as well: the limit is what
it faults for. -/
theorem fault_cause_exact_two :
    ∃ p m₀, Program.load [8, 0, 0] [] = .ok p ∧
      Machine.load p [] { stackCapacity := 3, complexityLimit := some 3 } = .ok m₀ ∧
      let m := m₀.after (fun _ => Resolver.none) 1
      m.Cause Resolver.none .stackOverflow ∧ m.Cause Resolver.none .complexityLimitExceeded ∧
        (m.step Resolver.none).machine.state = .failed (.runtime .complexityLimitExceeded) := by
  obtain ⟨p, m₀, hp, hm, hr, hd, hpc, htop, hl, hc⟩ :
      ∃ p m₀, Program.load [8, 0, 0] [] = .ok p ∧
        Machine.load p [] { stackCapacity := 3, complexityLimit := some 3 } = .ok m₀ ∧
        (m₀.after (fun _ => Resolver.none) 1).state = .running ∧
        Instruction.decode (m₀.after (fun _ => Resolver.none) 1).program.code
          (m₀.after (fun _ => Resolver.none) 1).pc = .ok ⟨.call 0, 0, 3⟩ ∧
        (m₀.after (fun _ => Resolver.none) 1).pc.toNat ≠
          (m₀.after (fun _ => Resolver.none) 1).program.code.size ∧
        (m₀.after (fun _ => Resolver.none) 1).stack.capacity <
          (m₀.after (fun _ => Resolver.none) 1).stack.top + 3 ∧
        (m₀.after (fun _ => Resolver.none) 1).control.limit = some 3 ∧
        (m₀.after (fun _ => Resolver.none) 1).control.complexity.toNat = 2 := by
    refine ⟨_, _, rfl, rfl, ?_, ?_, ?_, ?_, ?_, ?_⟩ <;> decide +kernel
  have hcause : (m₀.after (fun _ => Resolver.none) 1).Cause Resolver.none
      .complexityLimitExceeded := by
    refine ⟨_, 3, hd, hl, ?_⟩
    rw [hc]
    decide
  refine ⟨p, m₀, hp, hm, ⟨_, hd, htop⟩, hcause, ?_⟩
  refine (fault_cause_exact hp hm (fun _ => Resolver.genuine_none) Resolver.none hr _).mpr
    ⟨hcause, ?_⟩
  intro g hg
  cases g with
  | endOfCode => exact hpc
  | _ => exact absurd hg (by decide)

end Machine

end VerdictMachine

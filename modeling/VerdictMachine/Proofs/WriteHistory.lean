import VerdictMachine.Proofs.Causes

/-!
# Memory as a history of writes

What a memory holds is told by the writes that it has taken. A place of the
static or of the output segment holds the byte of the last write that covers it,
or zero if none does, and the output is as long as the furthest write reaches.
Writes that are refused and reads have no part in it. Input and constants stay
as they were given.

Both segments that can be written are regions written in the same way, so one
lemma on regions serves both.
-/

set_option autoImplicit false

namespace VerdictMachine

structure MemoryWrite where
  segment : Segment
  address : UInt32
  bytes : Bytes

inductive MemoryRequest where
  | read (segment : Segment) (address : UInt32) (len : Nat)
  | write (w : MemoryWrite)

namespace MemoryWrite

/-- The place after the last one that a write covers. -/
def stop (w : MemoryWrite) : Nat := w.address.toNat + w.bytes.length

/-- The byte that a write puts at a place of a segment, if it covers that place. -/
def byte? (w : MemoryWrite) (segment : Segment) (i : Nat) : Option UInt8 :=
  if w.segment = segment ∧ w.address.toNat ≤ i then w.bytes[i - w.address.toNat]? else none

/-- The byte of the last of some writes that covers a place, or zero. -/
def lastByte (ws : List MemoryWrite) (segment : Segment) (i : Nat) : UInt8 :=
  (ws.reverse.findSome? (·.byte? segment i)).getD 0

/-- How far some writes reach in the output. -/
def furthest (ws : List MemoryWrite) : Nat :=
  ((ws.filter (·.segment = .output)).map stop).foldl max 0

theorem lastByte_append (ws : List MemoryWrite) (w : MemoryWrite) (segment : Segment) (i : Nat) :
    lastByte (ws ++ [w]) segment i = (w.byte? segment i).getD (lastByte ws segment i) := by
  rw [lastByte, List.reverse_append, List.reverse_singleton, List.singleton_append,
    List.findSome?_cons]
  cases w.byte? segment i with
  | none => rfl
  | some b => rfl

theorem byte?_of_ne {w : MemoryWrite} {segment : Segment} (h : w.segment ≠ segment) (i : Nat) :
    w.byte? segment i = none := by
  simp [byte?, h]

theorem lastByte_append_of_ne (ws : List MemoryWrite) {w : MemoryWrite} {segment : Segment}
    (h : w.segment ≠ segment) : lastByte (ws ++ [w]) segment = lastByte ws segment := by
  funext i
  rw [lastByte_append, byte?_of_ne h, Option.getD_none]

theorem furthest_append (ws : List MemoryWrite) (w : MemoryWrite) :
    furthest (ws ++ [w]) =
      if w.segment = .output then max (furthest ws) w.stop else furthest ws := by
  by_cases h : w.segment = .output <;> simp [furthest, h]

end MemoryWrite

open MemoryWrite

namespace Region

variable {cells : Region} {capacity : Nat} {content : Nat → UInt8}

/-- Cells up to a capacity, each with the byte that its place has. -/
structure Shows (cells : Region) (capacity : Nat) (content : Nat → UInt8) : Prop where
  size_eq : cells.size = capacity
  get_eq : ∀ i < capacity, cells[i]? = some (content i)

theorem shows_zeros (capacity : Nat) : (zeros capacity).Shows capacity fun _ => 0 := by
  refine ⟨size_zeros capacity, ?_⟩
  intro i hi
  simp [zeros, hi]

theorem Shows.read_eq (h : cells.Shows capacity content) (len : Nat) {start : Nat}
    (hb : start + len ≤ capacity) : cells.read start len = (List.range' start len).map content := by
  induction len generalizing start with
  | zero => simp [read]
  | succ len ih =>
    rw [read_succ len (h.get_eq start (by omega)), ih (by omega), List.range'_succ, List.map_cons]

theorem Shows.overwrite {ws : List MemoryWrite} {w : MemoryWrite}
    (h : cells.Shows capacity (lastByte ws w.segment)) :
    (cells.overwrite w.address.toNat w.bytes).Shows capacity
      (lastByte (ws ++ [w]) w.segment) := by
  refine ⟨(size_overwrite _ _ _).trans h.size_eq, ?_⟩
  intro i hi
  rw [lastByte_append, byte?]
  by_cases hcover : w.address.toNat ≤ i ∧ i < w.address.toNat + w.bytes.length
  · obtain ⟨k, rfl⟩ := Nat.exists_eq_add_of_le hcover.1
    have hk : k < w.bytes.length := by omega
    rw [overwrite_get _ _ _ _ hk (by rw [h.size_eq]; exact hi), if_pos ⟨rfl, hcover.1⟩,
      Nat.add_sub_cancel_left, List.getElem?_eq_getElem hk, Option.getD_some]
  · have hnone : (if w.segment = w.segment ∧ w.address.toNat ≤ i then
        w.bytes[i - w.address.toNat]? else none) = none := by
      split_ifs with hle
      · exact List.getElem?_eq_none (by omega)
      · rfl
    rw [overwrite_frame _ _ _ _ (by omega), h.get_eq i hi, hnone, Option.getD_none]

end Region

namespace Memory

/-- A refused write and a read leave the memory as it is. -/
def serve (m : Memory) : MemoryRequest → Memory
  | .read .. => m
  | .write w =>
    match m.write w.segment w.address w.bytes with
    | .ok m' => m'
    | .error _ => m

def after : Memory → List MemoryRequest → Memory
  | m, [] => m
  | m, q :: qs => (m.serve q).after qs

/-- The writes of a history that succeed, in their order. -/
def landed : Memory → List MemoryRequest → List MemoryWrite
  | _, [] => []
  | m, .read .. :: qs => m.landed qs
  | m, .write w :: qs =>
    match m.write w.segment w.address w.bytes with
    | .ok m' => w :: m'.landed qs
    | .error _ => m.landed qs

/-- The memory holds what some writes have left in it. -/
structure Records (staticCapacity outputCapacity : Nat) (input : Bytes) (ws : List MemoryWrite)
    (m : Memory) : Prop where
  static : m.static.Shows staticCapacity (lastByte ws .static)
  output : m.outputCells.Shows outputCapacity (lastByte ws .output)
  input : m.input = input.toArray
  outputLength : m.outputLength = furthest ws
  furthest_le : furthest ws ≤ outputCapacity

variable {m : Memory} {staticCapacity outputCapacity : Nat} {input : Bytes}
  {ws : List MemoryWrite}

theorem records_initial (staticCapacity outputCapacity : Nat) (input : Bytes) :
    (initial staticCapacity outputCapacity input).Records staticCapacity outputCapacity input
      [] where
  static := Region.shows_zeros staticCapacity
  output := Region.shows_zeros outputCapacity
  input := rfl
  outputLength := rfl
  furthest_le := Nat.zero_le _

/-- Where a write of a length may go. -/
def Room (staticCapacity outputCapacity : Nat) (segment : Segment) (stop : Nat) : Prop :=
  segment = .static ∧ stop ≤ staticCapacity ∨ segment = .output ∧ stop ≤ outputCapacity

instance (staticCapacity outputCapacity : Nat) (segment : Segment) (stop : Nat) :
    Decidable (Room staticCapacity outputCapacity segment stop) :=
  inferInstanceAs (Decidable (_ ∨ _))

theorem Records.write_eq (h : m.Records staticCapacity outputCapacity input ws)
    (segment : Segment) (address : UInt32) (bs : Bytes) :
    m.write segment address bs =
      if Room staticCapacity outputCapacity segment (address.toNat + bs.length) then
        .ok (m.store segment address bs)
      else .error .segmentOutOfBounds := by
  have hadmits : m.admits segment address bs.length = true ↔
      Room staticCapacity outputCapacity segment (address.toNat + bs.length) := by
    cases segment with
    | static =>
      rw [m.admits_iff #[] rfl]
      simp [Room, extent, h.static.size_eq]
    | output =>
      rw [m.admits_iff #[] rfl]
      simp [Room, extent, h.output.size_eq]
    | code | constant | callStack | input => simp [Room, admits, capacity?]
  simp only [write, hadmits]

theorem Records.store (h : m.Records staticCapacity outputCapacity input ws) {w : MemoryWrite}
    (hroom : Room staticCapacity outputCapacity w.segment w.stop) :
    (m.store w.segment w.address w.bytes).Records staticCapacity outputCapacity input
      (ws ++ [w]) := by
  have hne : Segment.static ≠ .output := by decide
  obtain ⟨segment, address, bytes⟩ := w
  rcases hroom with ⟨rfl, hle⟩ | ⟨rfl, hle⟩
  · refine ⟨h.static.overwrite, ?_, h.input, ?_, ?_⟩
    · rw [lastByte_append_of_ne _ hne]
      exact h.output
    · rw [furthest_append, if_neg hne]
      exact h.outputLength
    · rw [furthest_append, if_neg hne]
      exact h.furthest_le
  · refine ⟨?_, h.output.overwrite, h.input, ?_, ?_⟩
    · rw [lastByte_append_of_ne _ hne.symm]
      exact h.static
    · rw [furthest_append, if_pos rfl, ← h.outputLength]
      rfl
    · rw [furthest_append, if_pos rfl]
      exact Nat.max_le.mpr ⟨h.furthest_le, hle⟩

theorem Records.after (h : m.Records staticCapacity outputCapacity input ws)
    (qs : List MemoryRequest) :
    (m.after qs).Records staticCapacity outputCapacity input (ws ++ m.landed qs) := by
  induction qs generalizing m ws with
  | nil =>
    rw [landed, List.append_nil]
    exact h
  | cons q qs ih =>
    cases q with
    | read segment address len => exact ih h
    | write w =>
      rw [Memory.after, serve, landed, h.write_eq]
      by_cases hroom : Room staticCapacity outputCapacity w.segment w.stop
      · rw [← stop, if_pos hroom]
        simpa using ih (h.store hroom)
      · rw [← stop, if_neg hroom]
        exact ih h

theorem read_eq_ok_iff (m : Memory) (constants : Region) (segment : Segment) {cells : Region}
    (hcells : m.readable? constants segment = some cells) (address : UInt32) (len : Nat)
    (bs : Bytes) :
    m.read constants segment address len = .ok bs ↔
      address.toNat + len ≤ cells.size ∧ cells.read address.toNat len = bs := by
  rw [read_of_readable hcells]
  split_ifs with hlt
  · simp [Nat.not_le_of_lt hlt]
  · simp [Nat.le_of_not_lt hlt]

theorem Records.exists_read_iff (h : m.Records staticCapacity outputCapacity input ws)
    (constants : Region) (segment : Segment) (address : UInt32) (len : Nat) :
    (∃ bs, m.read constants segment address len = .ok bs) ↔
      segment = .constant ∧ address.toNat + len ≤ constants.size ∨
        segment = .static ∧ address.toNat + len ≤ staticCapacity ∨
        segment = .input ∧ address.toNat + len ≤ input.length := by
  cases segment with
  | constant => simp [m.read_eq_ok_iff constants .constant rfl]
  | static => simp [m.read_eq_ok_iff constants .static rfl, h.static.size_eq]
  | input => simp [m.read_eq_ok_iff constants .input rfl, h.input]
  | code | callStack | output => simp [read, readable?]

/-- After any history of reads and writes, a write succeeds if and only if its segment is the
static or the output segment and has room for it, and a refused one changes nothing; a read
succeeds if and only if its segment can be read and has all of its bytes. What is read of the
static segment is at each place the byte of the last successful write that covers it, or zero.
Input and constants are read as they were given. The output ends where the furthest successful
write to it ends, and has at each place the byte of the last one that covers it, or zero. -/
theorem memory_keeps_last_writes (staticCapacity outputCapacity : Nat) (input : Bytes)
    (constants : Region) (past : List MemoryRequest) :
    let m := (initial staticCapacity outputCapacity input).after past
    let ws := (initial staticCapacity outputCapacity input).landed past
    (∀ w : MemoryWrite, (∃ m', m.write w.segment w.address w.bytes = .ok m') ↔
      w.segment = .static ∧ w.address.toNat + w.bytes.length ≤ staticCapacity ∨
        w.segment = .output ∧ w.address.toNat + w.bytes.length ≤ outputCapacity) ∧
    (∀ w : MemoryWrite, (¬ ∃ m', m.write w.segment w.address w.bytes = .ok m') →
      m.write w.segment w.address w.bytes = .error .segmentOutOfBounds ∧
        m.serve (.write w) = m) ∧
    (∀ segment address len, (∃ bs, m.read constants segment address len = .ok bs) ↔
      segment = .constant ∧ address.toNat + len ≤ constants.size ∨
        segment = .static ∧ address.toNat + len ≤ staticCapacity ∨
        segment = .input ∧ address.toNat + len ≤ input.length) ∧
    (∀ address len bs, m.read constants .static address len = .ok bs →
      bs = (List.range' address.toNat len).map (lastByte ws .static)) ∧
    (∀ address len bs, m.read constants .input address len = .ok bs →
      bs = (input.drop address.toNat).take len) ∧
    (∀ address len bs, m.read constants .constant address len = .ok bs →
      bs = (constants.toList.drop address.toNat).take len) ∧
    m.output = (List.range (furthest ws)).map (lastByte ws .output) := by
  intro m ws
  have h : m.Records staticCapacity outputCapacity input ws :=
    (records_initial staticCapacity outputCapacity input).after past
  have hroom : ∀ w : MemoryWrite, (∃ m', m.write w.segment w.address w.bytes = .ok m') ↔
      Room staticCapacity outputCapacity w.segment w.stop := by
    intro w
    rw [h.write_eq, ← stop]
    split_ifs with hr <;> simp [hr]
  refine ⟨hroom, ?_, h.exists_read_iff constants, ?_, ?_, ?_, ?_⟩
  · intro w hw
    have herror := h.write_eq w.segment w.address w.bytes
    rw [← stop, if_neg (by rwa [← hroom])] at herror
    exact ⟨herror, by rw [serve, herror]⟩
  · intro address len bs hread
    obtain ⟨hle, rfl⟩ := (m.read_eq_ok_iff constants .static rfl address len bs).mp hread
    exact h.static.read_eq len (by rwa [← h.static.size_eq])
  · intro address len bs hread
    obtain ⟨-, rfl⟩ := (m.read_eq_ok_iff constants .input rfl address len bs).mp hread
    simp [Region.read, h.input, List.extract_eq_take_drop]
  · intro address len bs hread
    obtain ⟨-, rfl⟩ := (m.read_eq_ok_iff constants .constant rfl address len bs).mp hread
    simp [Region.read, List.extract_eq_take_drop]
  · rw [List.range_eq_range', output, h.outputLength]
    exact h.output.read_eq _ (by rw [Nat.zero_add]; exact h.furthest_le)

/-- A write over part of an earlier one, after a write that is refused because its last byte has no
place: the refused one shows neither in the output nor in its length. -/
theorem memory_keeps_last_writes_overlap :
    ((initial 0 16 []).after
      [.write ⟨.output, 4, [1, 2]⟩, .write ⟨.output, 15, [8, 8]⟩,
        .write ⟨.output, 3, [7, 9]⟩]).output = [0, 0, 0, 7, 9, 2] := by
  obtain ⟨-, -, -, -, -, -, houtput⟩ :=
    memory_keeps_last_writes 0 16 [] #[] [.write ⟨.output, 4, [1, 2]⟩,
      .write ⟨.output, 15, [8, 8]⟩, .write ⟨.output, 3, [7, 9]⟩]
  exact houtput.trans (by decide)

end Memory

end VerdictMachine

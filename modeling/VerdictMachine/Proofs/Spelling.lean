import Mathlib.Tactic.Common
import VerdictMachine.Bytes

/-!
# Byte strings in a region

A region spells a byte string at a position when its cells from there on begin
with that string. Instructions in code and frames in the call stack are both
found in this way, so the facts about reading and writing are stated once.
-/

set_option autoImplicit false

namespace VerdictMachine

namespace Region

def Spells (cells : Region) : Nat → Bytes → Prop
  | _, [] => True
  | i, b :: bs => cells[i]? = some b ∧ cells.Spells (i + 1) bs

variable {cells other : Region}

theorem spells_append (i : Nat) (as bs : Bytes) :
    cells.Spells i (as ++ bs) ↔ cells.Spells i as ∧ cells.Spells (i + as.length) bs := by
  induction as generalizing i with
  | nil => simp [Spells]
  | cons a as ih =>
    have hs : i + (as.length + 1) = i + 1 + as.length := by omega
    simp only [List.cons_append, Spells, ih, List.length_cons, hs, and_assoc]

theorem length_read (i n : Nat) : (cells.read i n).length = min n (cells.size - i) := by
  simp [read]

theorem read_succ {i : Nat} {b : UInt8} (n : Nat) (h : cells[i]? = some b) :
    cells.read i (n + 1) = b :: cells.read (i + 1) n := by
  obtain ⟨hi, hb⟩ := Array.getElem?_eq_some_iff.mp h
  have hd : cells.toList.drop i = b :: cells.toList.drop (i + 1) := by
    rw [List.drop_eq_getElem_cons (by simpa using hi)]
    simp [hb]
  have hl : i + (n + 1) - i = n + 1 := by omega
  have hr : i + 1 + n - (i + 1) = n := by omega
  simp [read, List.extract_eq_take_drop, hd, hl, hr]

/-- Spelling a string is reading it back over its own length. -/
theorem spells_iff_read (i : Nat) (bs : Bytes) :
    cells.Spells i bs ↔ cells.read i bs.length = bs := by
  induction bs generalizing i with
  | nil => simp [Spells, read]
  | cons b bs ih =>
    rw [List.length_cons]
    constructor
    · intro h
      rw [read_succ _ h.1, (ih _).mp h.2]
    · intro h
      have hl := congrArg List.length h
      rw [length_read, List.length_cons] at hl
      have hi : i < cells.size := by omega
      have hg : cells[i]? = some cells[i] := Array.getElem?_eq_getElem hi
      rw [read_succ _ hg, List.cons.injEq] at h
      exact ⟨by rw [hg, h.1], (ih _).mpr h.2⟩

theorem spells_le {i : Nat} {bs : Bytes} (h : cells.Spells i bs) (hb : bs ≠ []) :
    i + bs.length ≤ cells.size := by
  have hl := congrArg List.length ((spells_iff_read i bs).mp h)
  have hp := List.length_pos_iff.mpr hb
  rw [length_read] at hl
  omega

/-- Only the cells that hold the string matter. -/
theorem Spells.congr {i : Nat} {bs : Bytes} (h : cells.Spells i bs)
    (he : ∀ k, i ≤ k → k < i + bs.length → other[k]? = cells[k]?) : other.Spells i bs := by
  induction bs generalizing i with
  | nil => trivial
  | cons b bs ih =>
    rw [List.length_cons] at he
    refine ⟨by rw [he i (Nat.le_refl i) (by omega), h.1], ih h.2 ?_⟩
    intro k hi hk
    exact he k (by omega) (by omega)

theorem spells_overwrite (start : Nat) (bs : Bytes) (h : start + bs.length ≤ cells.size) :
    (cells.overwrite start bs).Spells start bs := by
  induction bs generalizing cells start with
  | nil => trivial
  | cons b bs ih =>
    rw [List.length_cons] at h
    refine ⟨?_, ih (start + 1) (by simp; omega)⟩
    rw [overwrite, overwrite_frame _ _ _ _ (by omega), Array.getElem?_setIfInBounds]
    simp
    omega

/-- A write leaves alone what is spelled below it. -/
theorem spells_overwrite_below {i start : Nat} {as : Bytes} (bs : Bytes) (h : cells.Spells i as)
    (hi : i + as.length ≤ start) : (cells.overwrite start bs).Spells i as := by
  apply h.congr
  intro k _ hk
  exact overwrite_frame cells start bs k (by omega)

theorem spells_toArray (bs : Bytes) : Region.Spells bs.toArray 0 bs := by
  simp [spells_iff_read, read]

/-- A string that fills a region is the whole of it. -/
theorem eq_of_spells {bs : Bytes} (h : cells.Spells 0 bs) (hl : bs.length = cells.size) :
    bs = cells.toList := by
  have hr := (spells_iff_read 0 bs).mp h
  rw [← hr, hl]
  simp [read]

end Region

namespace Block

theorem bytes_fit_of_length {n : Nat} {bs : Bytes} (h : bs.length ≤ n) :
    (fit n bs).bytes = bs ++ List.replicate (n - bs.length) 0 := by
  simp [fit, List.take_append, List.take_of_length_le h, List.take_replicate]

/-- A block is determined by its first bytes if the others are zero. -/
theorem fit_take_of_zero {n w : Nat} (b : Block n) (hz : ∀ x ∈ b.bytes.drop w, x = 0) :
    fit n (b.bytes.take w) = b := by
  apply ext
  have hl : (b.bytes.take w).length ≤ n := by
    rw [List.length_take, b.length_bytes]
    omega
  have hd : b.bytes.drop w = List.replicate (n - (b.bytes.take w).length) 0 := by
    apply List.eq_replicate_iff.mpr
    refine ⟨?_, hz⟩
    simp only [List.length_drop, List.length_take, b.length_bytes]
    omega
  rw [bytes_fit_of_length hl, ← hd, List.take_append_drop]

end Block

end VerdictMachine

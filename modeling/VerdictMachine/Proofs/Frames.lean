import VerdictMachine.Machine.CallStack
import VerdictMachine.Proofs.Spelling

/-!
# The call stack as a list of frames

The used part of the arena spells the frames one after the other, the oldest
lowest. Pushing and popping bytes is then pushing and popping frames, and no
operation touches the bytes of a frame below the one it works on.
-/

set_option autoImplicit false

namespace VerdictMachine

namespace Frame

/-- The bytes of a stack of frames; the list has the top frame first. -/
def image : List Frame → Bytes
  | [] => []
  | f :: fs => image fs ++ f.bytes

theorem length_image_cons (f : Frame) (fs : List Frame) :
    (image (f :: fs)).length = (image fs).length + f.size := by
  rw [image, List.length_append, length_bytes]

theorem size_pos (f : Frame) : 0 < f.size := by
  cases f <;> exact Nat.succ_pos _

def ret : Frame → UInt16
  | .plain ret => ret
  | .library _ ret => ret

end Frame

namespace CallStack

structure Holds (s : CallStack) (fs : List Frame) : Prop where
  spelled : s.arena.Spells 0 (Frame.image fs)
  top_eq : s.top = (Frame.image fs).length

variable {s : CallStack} {f : Frame} {fs : List Frame}

theorem capacity_store (s : CallStack) (f : Frame) : (s.store f).capacity = s.capacity :=
  Region.size_overwrite _ _ _

theorem capacity_drop (s : CallStack) (f : Frame) : (s.drop f).capacity = s.capacity := rfl

theorem fits_of_le {room : Nat} (hs : s.capacity = room) (h : s.top + f.size ≤ room) :
    s.fits f = true :=
  decide_eq_true (Nat.le_trans h (Nat.le_of_eq hs.symm))

theorem holds_initial (capacity : Nat) : (initial capacity).Holds [] := ⟨trivial, rfl⟩

theorem Holds.isEmpty_iff (h : s.Holds fs) : s.isEmpty = true ↔ fs = [] := by
  cases fs with
  | nil => simp [isEmpty, h.top_eq, Frame.image]
  | cons f fs =>
    have hp := f.size_pos
    have ht := h.top_eq
    rw [Frame.length_image_cons] at ht
    simp only [isEmpty, beq_iff_eq, reduceCtorEq, iff_false]
    omega

theorem Holds.store (h : s.Holds fs) (hf : s.fits f = true) : (s.store f).Holds (f :: fs) := by
  have hr : s.top + f.bytes.length ≤ s.arena.size := by
    rw [f.length_bytes]
    simpa [fits] using hf
  refine ⟨?_, ?_⟩
  · rw [Frame.image, Region.spells_append, Nat.zero_add, ← h.top_eq]
    exact ⟨Region.spells_overwrite_below _ h.spelled (by rw [h.top_eq]; omega),
      Region.spells_overwrite _ _ hr⟩
  · rw [Frame.length_image_cons, ← h.top_eq]
    rfl

theorem Holds.drop (h : s.Holds (f :: fs)) : (s.drop f).Holds fs := by
  have hs := h.spelled
  rw [Frame.image, Region.spells_append] at hs
  refine ⟨hs.1, ?_⟩
  have ht := h.top_eq
  rw [Frame.length_image_cons] at ht
  simp only [CallStack.drop]
  omega

theorem returnOffset_ofNatLE (ret : UInt16) : returnOffset (Bytes.ofNatLE 2 ret.toNat) = ret := by
  have hr : ret.toNat % 1 <<< (8 * 2) = ret.toNat := Nat.mod_eq_of_lt ret.toNat_lt
  rw [returnOffset, Bytes.toNatLE_ofNatLE, hr, UInt16.ofNat_toNat]

/-- The frame found below the top is the one that was pushed last. -/
theorem Holds.peek (h : s.Holds (f :: fs)) : s.peek = some f := by
  have ht := h.top_eq
  have hs := h.spelled
  rw [Frame.length_image_cons] at ht
  rw [Frame.image, Region.spells_append, Nat.zero_add] at hs
  generalize (Frame.image fs).length = n at ht hs
  have hs := hs.2
  cases f with
  | plain ret =>
    rw [Frame.bytes, Region.spells_append, Bytes.length_ofNatLE] at hs
    obtain ⟨hret, htag, -⟩ := hs
    have hread := (Region.spells_iff_read _ _).mp hret
    rw [Bytes.length_ofNatLE] at hread
    simp only [Frame.size] at ht
    have h1 : s.top - 1 = n + 2 := by omega
    have h3 : s.top - 3 = n := by omega
    simp only [CallStack.peek, h1, h3, htag, hread, returnOffset_ofNatLE]
    rw [if_neg (by omega), if_neg (by omega)]
  | library caller ret =>
    have hl : caller.bytes.length = 32 := caller.digest.length_bytes
    rw [Frame.bytes, Region.spells_append, Region.spells_append, List.length_append, hl,
      Bytes.length_ofNatLE] at hs
    obtain ⟨⟨hid, hret⟩, htag, -⟩ := hs
    have hread := (Region.spells_iff_read _ _).mp hret
    have hread' := (Region.spells_iff_read _ _).mp hid
    rw [Bytes.length_ofNatLE] at hread
    rw [hl] at hread'
    simp only [Frame.size] at ht
    have h1 : s.top - 1 = n + (32 + 2) := by omega
    have h3 : s.top - 3 = n + 32 := by omega
    have h35 : s.top - 35 = n := by omega
    have hfit : Block.fit 32 caller.bytes = caller.digest := Block.fit_bytes caller.digest
    simp only [CallStack.peek, h1, h3, h35, htag, hread, hread', returnOffset_ofNatLE, hfit]
    rw [if_neg (by omega), if_neg (by omega)]

theorem Holds.of_peek (h : s.Holds fs) (hp : s.peek = some f) : ∃ gs, fs = f :: gs := by
  cases fs with
  | nil =>
    have ht : s.top = 0 := h.top_eq
    simp [CallStack.peek, ht] at hp
  | cons g gs =>
    rw [h.peek] at hp
    exact ⟨gs, by rw [Option.some.inj hp]⟩

end CallStack

end VerdictMachine

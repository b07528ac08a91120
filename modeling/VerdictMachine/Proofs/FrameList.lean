import Mathlib.Algebra.GroupWithZero.Nat
import VerdictMachine.Proofs.Frames

/-!
# The call stack refines a bounded list

The plainest stack of frames is a list, with a bound on the bytes that its
frames would take. The call stack keeps its frames as bytes and finds the top
one by a tag; what it answers to any requests is nevertheless what the list
answers. The bytes above the top have no part in this: a stack that differs
only there stands for the same list.
-/

set_option autoImplicit false

namespace VerdictMachine

/-- What a stack of frames is asked for. -/
inductive StackRequest where
  | push (f : Frame)
  | pop
  | fits (f : Frame)
  deriving DecidableEq

inductive StackReply where
  | pushed
  | popped (f : Frame)
  | fits (answer : Bool)
  | refused (fault : Fault)
  deriving DecidableEq

/-- The operations of a stack of frames that is kept as an `σ`. -/
structure FrameStack (σ : Type) where
  push : σ → Frame → Except Fault σ
  pop : σ → Except Fault (Frame × σ)
  fits : σ → Frame → Bool

namespace FrameStack

variable {σ τ : Type}

/-- A request that is refused leaves the stack as it is. -/
def serve (k : FrameStack σ) (s : σ) : StackRequest → StackReply × σ
  | .push f =>
    match k.push s f with
    | .ok s' => (.pushed, s')
    | .error e => (.refused e, s)
  | .pop =>
    match k.pop s with
    | .ok (f, s') => (.popped f, s')
    | .error e => (.refused e, s)
  | .fits f => (.fits (k.fits s f), s)

/-- The stack after a history of requests. -/
def after (k : FrameStack σ) : σ → List StackRequest → σ
  | s, [] => s
  | s, q :: qs => k.after (k.serve s q).2 qs

def replies (k : FrameStack σ) : σ → List StackRequest → List StackReply
  | _, [] => []
  | s, q :: qs => (k.serve s q).1 :: k.replies (k.serve s q).2 qs

/-- Two stacks that agree on every single request agree on every history. -/
theorem simulates {k : FrameStack σ} {l : FrameStack τ} {related : σ → τ → Prop}
    (hstep : ∀ s t q, related s t →
      (k.serve s q).1 = (l.serve t q).1 ∧ related (k.serve s q).2 (l.serve t q).2)
    (qs : List StackRequest) {s : σ} {t : τ} (h : related s t) :
    k.replies s qs = l.replies t qs ∧ related (k.after s qs) (l.after t qs) := by
  induction qs generalizing s t with
  | nil => exact ⟨rfl, h⟩
  | cons q qs ih =>
    obtain ⟨hreply, hnext⟩ := hstep s t q h
    obtain ⟨hreplies, hafter⟩ := ih hnext
    exact ⟨by rw [replies, replies, hreply, hreplies], hafter⟩

end FrameStack

namespace Frame

def sizes (fs : List Frame) : Nat := (fs.map size).sum

theorem sizes_cons (f : Frame) (fs : List Frame) : sizes (f :: fs) = f.size + sizes fs := by
  rw [sizes, List.map_cons, List.sum_cons, sizes]

theorem length_image (fs : List Frame) : (image fs).length = sizes fs := by
  induction fs with
  | nil => rfl
  | cons f fs ih => rw [length_image_cons, sizes_cons, ih, Nat.add_comm]

end Frame

/-- A list of frames, the one pushed last at its head, that stays within a number of bytes. -/
structure FrameList (capacity : Nat) where
  frames : List Frame
  bounded : Frame.sizes frames ≤ capacity

namespace FrameList

variable {capacity : Nat}

def empty (capacity : Nat) : FrameList capacity := ⟨[], Nat.zero_le capacity⟩

def used (l : FrameList capacity) : Nat := Frame.sizes l.frames

def fits (l : FrameList capacity) (f : Frame) : Bool := l.used + f.size ≤ capacity

def push (l : FrameList capacity) (f : Frame) : Except Fault (FrameList capacity) :=
  if h : l.used + f.size ≤ capacity then
    .ok ⟨f :: l.frames, by rw [Frame.sizes_cons, Nat.add_comm]; exact h⟩
  else .error .stackOverflow

def pop : FrameList capacity → Except Fault (Frame × FrameList capacity)
  | ⟨[], _⟩ => .error .stackUnderflow
  | ⟨f :: fs, h⟩ =>
    .ok (f, ⟨fs, Nat.le_trans (Nat.le_add_left _ f.size) (by rwa [← Frame.sizes_cons])⟩)

def frameStack (capacity : Nat) : FrameStack (FrameList capacity) := ⟨push, pop, fits⟩

end FrameList

namespace CallStack

variable {capacity : Nat} {s t : CallStack} {l : FrameList capacity}

def frameStack : FrameStack CallStack := ⟨push, pop, fits⟩

/-- The call stack holds the frames of the list, within the same bound. -/
structure Represents (s : CallStack) (l : FrameList capacity) : Prop where
  holds : s.Holds l.frames
  capacity_eq : s.arena.size = capacity

theorem represents_empty (capacity : Nat) :
    (initial capacity).Represents (FrameList.empty capacity) :=
  ⟨holds_initial capacity, Region.size_zeros capacity⟩

theorem Represents.top_eq (h : s.Represents l) : s.top = l.used := by
  rw [h.holds.top_eq, Frame.length_image, FrameList.used]

theorem Represents.fits_eq (h : s.Represents l) (f : Frame) : s.fits f = l.fits f := by
  rw [CallStack.fits, FrameList.fits, h.top_eq, h.capacity_eq]

theorem Represents.push_eq (h : s.Represents l) (f : Frame) :
    s.push f =
      if l.used + f.size ≤ capacity then .ok (s.store f) else .error .stackOverflow := by
  rw [CallStack.push, h.fits_eq, FrameList.fits]
  simp only [decide_eq_true_eq]

theorem Represents.pop_eq (h : s.Represents l) :
    s.pop = match l.frames with
      | [] => .error .stackUnderflow
      | f :: _ => .ok (f, s.drop f) := by
  obtain ⟨frames, hb⟩ := l
  unfold CallStack.pop
  cases frames with
  | nil =>
    have ht : s.top = 0 := h.top_eq
    have hp : s.peek = none := by rw [peek, if_pos ht]
    rw [hp]
  | cons f fs => rw [h.holds.peek]

theorem Represents.serve (h : s.Represents l) (q : StackRequest) :
    (frameStack.serve s q).1 = ((FrameList.frameStack capacity).serve l q).1 ∧
      (frameStack.serve s q).2.Represents ((FrameList.frameStack capacity).serve l q).2 := by
  cases q with
  | push f =>
    simp only [FrameStack.serve, frameStack, FrameList.frameStack, FrameList.push, h.push_eq]
    by_cases hf : l.used + f.size ≤ capacity
    · have hfits : s.fits f = true := by
        rw [h.fits_eq]
        exact decide_eq_true hf
      rw [if_pos hf, dif_pos hf]
      refine ⟨rfl, h.holds.store hfits, ?_⟩
      exact (Region.size_overwrite _ _ _).trans h.capacity_eq
    · rw [if_neg hf, dif_neg hf]
      exact ⟨rfl, h⟩
  | pop =>
    simp only [FrameStack.serve, frameStack, FrameList.frameStack, h.pop_eq]
    obtain ⟨frames, hb⟩ := l
    cases frames with
    | nil => exact ⟨rfl, h⟩
    | cons f fs => exact ⟨rfl, h.holds.drop, h.capacity_eq⟩
  | fits f =>
    simp only [FrameStack.serve, frameStack, FrameList.frameStack, h.fits_eq]
    exact ⟨trivial, h⟩

theorem Represents.run (h : s.Represents l) (qs : List StackRequest) :
    frameStack.replies s qs = (FrameList.frameStack capacity).replies l qs ∧
      (frameStack.after s qs).Represents ((FrameList.frameStack capacity).after l qs) :=
  FrameStack.simulates (fun _ _ q h => Represents.serve h q) qs h

theorem Represents.tagged (h : s.Represents l) (ht : 0 < s.top) :
    s.arena[s.top - 1]? = some 0x00 ∧ 3 ≤ s.top ∨ s.arena[s.top - 1]? = some 0x01 ∧ 35 ≤ s.top := by
  obtain ⟨frames, hb⟩ := l
  cases frames with
  | nil =>
    have h0 : s.top = 0 := h.top_eq
    omega
  | cons f fs =>
    -- The frame was read at the top, so the bytes there are such that it can be.
    have hp : s.peek = some f := h.holds.peek
    unfold peek at hp
    rw [if_neg (by omega)] at hp
    split at hp
    · next htag =>
      split_ifs at hp with hlt
      exact .inl ⟨htag, Nat.le_of_not_lt hlt⟩
    · next htag =>
      split_ifs at hp with hlt
      exact .inr ⟨htag, Nat.le_of_not_lt hlt⟩
    · cases hp

theorem Represents.congr (h : s.Represents l) (htop : t.top = s.top)
    (hsize : t.arena.size = s.arena.size) (hkept : ∀ i, i < s.top → t.arena[i]? = s.arena[i]?) :
    t.Represents l := by
  refine ⟨⟨?_, htop.trans h.holds.top_eq⟩, hsize.trans h.capacity_eq⟩
  apply h.holds.spelled.congr
  intro k _ hk
  apply hkept
  rw [h.holds.top_eq]
  omega

/-- Whatever has been asked of it, the call stack has replied as the list would have, and holds
the frames of the list. It can take a frame if the bytes of all frames stay within its capacity,
gives back the frame pushed last, and has none to give only when the list is empty. The tag below
its top is always that of a frame that fits below it, and no further reply depends on the bytes
above the top. -/
theorem stack_refines_list (capacity : Nat) (past : List StackRequest) :
    let s := frameStack.after (initial capacity) past
    let l := (FrameList.frameStack capacity).after (FrameList.empty capacity) past
    frameStack.replies (initial capacity) past =
        (FrameList.frameStack capacity).replies (FrameList.empty capacity) past ∧
      s.top = (l.frames.map Frame.size).sum ∧
      (∀ f, s.fits f = decide (s.top + f.size ≤ capacity)) ∧
      (∀ f, s.push f =
        if s.top + f.size ≤ capacity then .ok (s.store f) else .error .stackOverflow) ∧
      (s.pop = match l.frames with
        | [] => .error .stackUnderflow
        | f :: _ => .ok (f, s.drop f)) ∧
      (0 < s.top →
        s.arena[s.top - 1]? = some 0x00 ∧ 3 ≤ s.top ∨
          s.arena[s.top - 1]? = some 0x01 ∧ 35 ≤ s.top) ∧
      ∀ t : CallStack, t.top = s.top → t.arena.size = s.arena.size →
        (∀ i, i < s.top → t.arena[i]? = s.arena[i]?) →
        ∀ future, frameStack.replies t future = frameStack.replies s future := by
  intro s l
  obtain ⟨hreplies, h⟩ := (represents_empty capacity).run past
  change s.Represents l at h
  refine ⟨hreplies, h.top_eq, ?_, ?_, h.pop_eq, h.tagged, ?_⟩
  · intro f
    rw [h.fits_eq, FrameList.fits, ← h.top_eq]
  · intro f
    rw [h.push_eq, ← h.top_eq]
  · intro t htop hsize hkept future
    rw [((h.congr htop hsize hkept).run future).1, (h.run future).1]

/-- A plain frame over what a library frame has left behind, with other bytes written above it:
the next frames come and go as if the arena were fresh. -/
theorem stack_refines_list_reused :
    let caller : ProgramId := ⟨Block.fit 32 (List.replicate 32 1)⟩
    let past : List StackRequest := [.push (.library caller 257), .pop, .push (.plain 257)]
    let future : List StackRequest :=
      [.push (.library caller 1), .fits (.plain 0), .pop, .pop, .pop]
    ∃ s, s = frameStack.after (initial 38) past ∧ s.top = 3 ∧ s.arena[5]? = some 1 ∧
      frameStack.replies ⟨s.arena.overwrite s.top [1, 0, 1], s.top⟩ future =
        [.pushed, .fits false, .popped (.library caller 1), .popped (.plain 257),
          .refused .stackUnderflow] := by
  intro caller past future
  obtain ⟨s, hs, htop, hbyte, hreplies⟩ :
      ∃ s, frameStack.after (initial 38) past = s ∧ s.top = 3 ∧ s.arena[5]? = some 1 ∧
        frameStack.replies s future =
          [.pushed, .fits false, .popped (.library caller 1), .popped (.plain 257),
            .refused .stackUnderflow] := by
    refine ⟨_, rfl, ?_, ?_, ?_⟩ <;> decide +kernel
  obtain ⟨-, -, -, -, -, -, hstale⟩ := stack_refines_list 38 past
  rw [hs] at hstale
  refine ⟨s, hs.symm, htop, hbyte, ?_⟩
  have hsize := Region.size_overwrite s.arena s.top [1, 0, 1]
  have hkept : ∀ i, i < s.top → (s.arena.overwrite s.top [1, 0, 1])[i]? = s.arena[i]? := by
    intro i hi
    exact Region.overwrite_frame _ _ _ _ (.inl hi)
  generalize s.arena.overwrite s.top [1, 0, 1] = arena at hsize hkept
  rw [hstale ⟨arena, s.top⟩ rfl hsize hkept future, hreplies]

end CallStack

end VerdictMachine

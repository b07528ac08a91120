import VerdictMachine.Proofs.Inclusion

/-!
# Which side the index names

The node of height `i` is a right child if bit `i` of the index is set: that is
the rule of a proof. An index has 32 bits, so from height 32 on all nodes are
left children. But the bit is taken by a 64-bit shift, which overflows from
height 64 on. Up to 64 siblings the climb follows the rule; with one more it has
no root, although the rule gives one.
-/

set_option autoImplicit false

namespace VerdictMachine.Merkle

def hashBy (side : Nat → Bool) (current : Digest) (s : Digest × Nat) : Digest :=
  if side s.2 then node s.1 current else node current s.1

/-- The fold over the siblings in which `side i` tells whether the node of height `i` is hashed as
the right child. -/
def foldBy (side : Nat → Bool) (leaf : Digest) (siblings : List Digest) : Digest :=
  siblings.zipIdx.foldl (hashBy side) leaf

theorem isRight?_of_le (index : UInt32) {level : Nat} (h : 64 ≤ level) :
    isRight? index level = none := by
  rw [isRight?, if_neg (Nat.not_lt.mpr h)]

theorem testBit_index_of_le (index : UInt32) {level : Nat} (h : 32 ≤ level) :
    index.toNat.testBit level = false :=
  Nat.testBit_lt_two_pow (Nat.lt_of_lt_of_le index.toNat_lt (Nat.pow_le_pow_right (by decide) h))

theorem node_pairAt (index : UInt32) (level : Nat) (current sibling : Digest) :
    node (pairAt index level current sibling).1 (pairAt index level current sibling).2 =
      hashBy index.toNat.testBit current (sibling, level) := by
  rw [pairAt, ordered, hashBy]
  cases index.toNat.testBit level <;> rfl

theorem climb_of_le (index : UInt32) (siblings : List Digest) {level : Nat} (current : Digest)
    (h : level + siblings.length ≤ 64) :
    climb index level current siblings =
      some ((siblings.zipIdx level).foldl (hashBy index.toNat.testBit) current) := by
  induction siblings generalizing level current with
  | nil => rfl
  | cons sibling rest ih =>
    rw [List.length_cons] at h
    rw [climb_cons index (by omega), node_pairAt, ih _ (by omega), List.zipIdx_cons,
      List.foldl_cons]

/-- The climb reaches height 64 with a sibling left, and has no bit to go by. -/
theorem climb_of_lt (index : UInt32) (siblings : List Digest) {level : Nat} (current : Digest)
    (hl : level ≤ 64) (h : 64 < level + siblings.length) :
    climb index level current siblings = none := by
  induction siblings generalizing level current with
  | nil => exact absurd h (by simpa using hl)
  | cons sibling rest ih =>
    rw [List.length_cons] at h
    by_cases hlow : level < 64
    · rw [climb_cons index hlow]
      exact ih _ hlow (by omega)
    · rw [climb, parent?, isRight?_of_le index (Nat.not_lt.mp hlow)]
      rfl

theorem root_of_le (leaf : Digest) (index : UInt32) {siblings : List Digest}
    (h : siblings.length ≤ 64) :
    root leaf index siblings = some (foldBy index.toNat.testBit leaf siblings) :=
  climb_of_le index siblings leaf (by omega)

theorem root_of_lt (leaf : Digest) (index : UInt32) {siblings : List Digest}
    (h : 64 < siblings.length) : root leaf index siblings = none :=
  climb_of_lt index siblings leaf (by decide) (by omega)

/-- The root is that of the rule exactly if there are at most 64 siblings, and otherwise there is
none: no other root is ever returned. The side is that of the rule at each height of such a proof,
and the rule has left children only from height 32 on. -/
theorem root_follows_index_bits (leaf : Digest) (index : UInt32) (siblings : List Digest) :
    (root leaf index siblings = some (foldBy index.toNat.testBit leaf siblings) ↔
      siblings.length ≤ 64) ∧
    (root leaf index siblings = none ↔ 64 < siblings.length) ∧
    ((∀ level < siblings.length, isRight? index level = some (index.toNat.testBit level)) ↔
      siblings.length ≤ 64) ∧
    ∀ level, 32 ≤ level → index.toNat.testBit level = false := by
  refine ⟨⟨?_, root_of_le leaf index⟩, ⟨?_, root_of_lt leaf index⟩, ⟨?_, ?_⟩,
    fun level => testBit_index_of_le index⟩
  · intro hsome
    by_contra hlong
    rw [root_of_lt leaf index (Nat.not_le.mp hlong)] at hsome
    cases hsome
  · intro hnone
    by_contra hshort
    rw [root_of_le leaf index (Nat.not_lt.mp hshort)] at hnone
    cases hnone
  · intro hsides
    by_contra hlong
    have hside := hsides 64 (Nat.not_le.mp hlong)
    rw [isRight?_of_le index (Nat.le_refl 64)] at hside
    cases hside
  · intro hshort level hlevel
    exact isRight?_of_lt index (by omega)

/-- By the rule 65 siblings have a root. -/
theorem root_of_sixty_five :
    let zero : Digest := Block.zero 32
    root zero 1 (List.replicate 65 zero) = none ∧
      root zero 1 (List.replicate 65 zero) ≠
        some (foldBy (1 : UInt32).toNat.testBit zero (List.replicate 65 zero)) := by
  intro zero
  have hnone : root zero 1 (List.replicate 65 zero) = none :=
    root_of_lt zero 1 (by rw [List.length_replicate]; decide)
  refine ⟨hnone, ?_⟩
  rw [hnone]
  nofun

end VerdictMachine.Merkle

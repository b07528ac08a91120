import VerdictMachine.Digest.Merkle
import VerdictMachine.Proofs.LimbValue

/-!
# Inclusion proofs are complete and binding

Over a list of leaves whose length is a power of two, adjacent nodes are paired
row by row until one is left, the root. The proof of a leaf lists the node
beside the path at each height, and climbing along it gives the root.

A proof against that root can only be the leaf at its index with its own path,
or it exhibits a collision: at some height the pair that is hashed on the climb
and the pair of children in the tree differ and have the same digest. Nothing
is assumed of the digest.
-/

set_option autoImplicit false

namespace VerdictMachine.Merkle

/-- One row up: adjacent nodes are paired. -/
def pairUp : List Digest → List Digest
  | left :: right :: rest => node left right :: pairUp rest
  | _ => []

def ordered (right : Bool) (current sibling : Digest) : Digest × Digest :=
  if right then (sibling, current) else (current, sibling)

def hashedPairs (index : UInt32) : Nat → Digest → List Digest → List (Digest × Digest)
  | _, _, [] => []
  | level, current, sibling :: rest =>
    match isRight? index level with
    | some right =>
      let pair := ordered right current sibling
      pair :: hashedPairs index (level + 1) (node pair.1 pair.2) rest
    | none => []

def beside (k : Nat) : Nat := if k % 2 = 1 then k - 1 else k + 1

/-- As many leaves as a tree of a depth has. -/
structure Leaves (depth : Nat) where
  digests : List Digest
  length_digests : digests.length = 2 ^ depth

namespace Leaves

variable {depth : Nat} (t : Leaves depth)

def row : Nat → List Digest
  | 0 => t.digests
  | j + 1 => pairUp (row j)

/-- The node of height `j` at place `k`. Where the row has none, this means nothing. -/
def nodeAt (j k : Nat) : Digest := (t.row j).getD k (Block.zero 32)

/-- The children of the node of height `j + 1` at place `k`. -/
def children (j k : Nat) : Digest × Digest := (t.nodeAt j (2 * k), t.nodeAt j (2 * k + 1))

/-- The nodes beside the way from leaf `i` to the root, from the leaf up. -/
def path (i : Nat) : List Digest :=
  (List.range depth).map fun j => t.nodeAt j (beside (i / 2 ^ j))

end Leaves

/-! ## The climb -/

theorem ordered_inj {right : Bool} {a b a' b' : Digest} :
    ordered right a b = ordered right a' b' ↔ a = a' ∧ b = b' := by
  cases right <;> simp [ordered, and_comm]

def pairAt (index : UInt32) (level : Nat) (current sibling : Digest) : Digest × Digest :=
  ordered (index.toNat.testBit level) current sibling

theorem isRight?_of_lt (index : UInt32) {level : Nat} (h : level < 64) :
    isRight? index level = some (index.toNat.testBit level) := by
  rw [isRight?, if_pos h, Limbs.testBit_limb _ h, UInt32.toNat_toUInt64]

theorem climb_cons (index : UInt32) {level : Nat} (h : level < 64) (current sibling : Digest)
    (rest : List Digest) :
    climb index level current (sibling :: rest) =
      climb index (level + 1)
        (node (pairAt index level current sibling).1 (pairAt index level current sibling).2)
        rest := by
  rw [climb, parent?, isRight?_of_lt index h, pairAt, ordered]
  cases index.toNat.testBit level <;> rfl

theorem hashedPairs_cons (index : UInt32) {level : Nat} (h : level < 64) (current sibling : Digest)
    (rest : List Digest) :
    hashedPairs index level current (sibling :: rest) =
      pairAt index level current sibling ::
        hashedPairs index (level + 1)
          (node (pairAt index level current sibling).1 (pairAt index level current sibling).2)
          rest := by
  rw [hashedPairs, isRight?_of_lt index h]
  rfl

theorem verify_iff {expected leaf : Digest} {index : UInt32} {siblings : List Digest} :
    verify expected leaf index siblings = true ↔
      siblings.length ≤ 32 ∧ index.toNat < 2 ^ siblings.length ∧
        root leaf index siblings = some expected := by
  simp only [verify, Bool.and_eq_true, decide_eq_true_eq, beq_iff_eq, Nat.one_shiftLeft, and_assoc]
  rfl

/-! ## Rows and places -/

theorem length_pairUp (row : List Digest) : (pairUp row).length = row.length / 2 := by
  fun_induction pairUp row with
  | case1 left right rest ih =>
    simp only [List.length_cons, ih]
    omega
  | case2 row h =>
    match row, h with
    | [], _ => rfl
    | [_], _ => simp
    | left :: right :: rest, h => exact absurd rfl (h left right rest)

theorem getD_pairUp (row : List Digest) {k : Nat} (h : 2 * k + 1 < row.length) (z : Digest) :
    (pairUp row).getD k z = node (row.getD (2 * k) z) (row.getD (2 * k + 1) z) := by
  induction k generalizing row with
  | zero =>
    match row, h with
    | left :: right :: rest, _ => rfl
  | succ k ih =>
    match row, h with
    | left :: right :: rest, h => exact ih rest (by simp at h; omega)

namespace Leaves

variable {depth : Nat} (t : Leaves depth)

theorem pow_sub_succ {j : Nat} (h : j < depth) :
    2 ^ (depth - j) = 2 * 2 ^ (depth - (j + 1)) := by
  rw [← Nat.pow_succ', Nat.succ_eq_add_one]
  congr 1
  omega

theorem length_row {j : Nat} (h : j ≤ depth) : (t.row j).length = 2 ^ (depth - j) := by
  induction j with
  | zero => exact t.length_digests
  | succ j ih =>
    rw [row, length_pairUp, ih (Nat.le_of_lt h), pow_sub_succ h,
      Nat.mul_div_cancel_left _ (by decide)]

theorem place_lt {i j : Nat} (hi : i < 2 ^ depth) (hj : j ≤ depth) :
    i / 2 ^ j < (t.row j).length := by
  rw [t.length_row hj, Nat.div_lt_iff_lt_mul (Nat.two_pow_pos j), ← Nat.pow_add,
    Nat.sub_add_cancel hj]
  exact hi

theorem beside_lt {i j : Nat} (hi : i < 2 ^ depth) (hj : j < depth) :
    beside (i / 2 ^ j) < (t.row j).length := by
  have hlt := t.place_lt hi (Nat.le_of_lt hj)
  rw [t.length_row (Nat.le_of_lt hj), pow_sub_succ hj] at hlt ⊢
  generalize i / 2 ^ j = k at hlt ⊢
  unfold beside
  split_ifs
  · omega
  · omega

theorem div_two_pow_succ (i j : Nat) : i / 2 ^ (j + 1) = i / 2 ^ j / 2 := by
  rw [Nat.pow_succ, Nat.div_div_eq_div_mul]

theorem nodeAt_succ {i j : Nat} (hi : i < 2 ^ depth) (hj : j < depth) :
    t.nodeAt (j + 1) (i / 2 ^ (j + 1)) =
      node (t.children j (i / 2 ^ (j + 1))).1 (t.children j (i / 2 ^ (j + 1))).2 := by
  have hlt : i / 2 ^ (j + 1) < (t.row (j + 1)).length := t.place_lt hi hj
  rw [row, length_pairUp] at hlt
  exact getD_pairUp _ (by omega) _

theorem children_eq (i j : Nat) :
    t.children j (i / 2 ^ (j + 1)) =
      ordered (decide (i / 2 ^ j % 2 = 1)) (t.nodeAt j (i / 2 ^ j))
        (t.nodeAt j (beside (i / 2 ^ j))) := by
  rw [div_two_pow_succ, children, ordered, beside]
  generalize i / 2 ^ j = k
  by_cases hk : k % 2 = 1
  · have hleft : 2 * (k / 2) = k - 1 := by omega
    have hright : k - 1 + 1 = k := by omega
    simp [hk, hleft, hright]
  · have hleft : 2 * (k / 2) = k := by omega
    simp [hk, hleft]

theorem getElem?_path {i j : Nat} (hi : i < 2 ^ depth) (hj : j < depth) :
    (t.path i)[j]? = (t.row j)[beside (i / 2 ^ j)]? := by
  simp [path, nodeAt, List.getElem?_range hj, List.getElem?_eq_getElem (t.beside_lt hi hj)]

end Leaves

/-! ## Completeness -/

namespace Leaves

variable {depth : Nat} (t : Leaves depth) {index : UInt32}

def pathFrom (i level n : Nat) : List Digest :=
  (List.range' level n).map fun j => t.nodeAt j (beside (i / 2 ^ j))

theorem path_eq (i : Nat) : t.path i = t.pathFrom i 0 depth := by
  rw [path, pathFrom, List.range_eq_range']

theorem pathFrom_succ (i level n : Nat) :
    t.pathFrom i level (n + 1) =
      t.nodeAt level (beside (i / 2 ^ level)) :: t.pathFrom i (level + 1) n := by
  rw [pathFrom, List.range'_succ, List.map_cons, pathFrom]

theorem pairAt_eq_children (index : UInt32) (level : Nat) :
    pairAt index level (t.nodeAt level (index.toNat / 2 ^ level))
        (t.nodeAt level (beside (index.toNat / 2 ^ level))) =
      t.children level (index.toNat / 2 ^ (level + 1)) := by
  rw [pairAt, Nat.testBit_eq_decide_div_mod_eq, t.children_eq]

theorem climb_path (hd : depth ≤ 64) (index : UInt32) (hi : index.toNat < 2 ^ depth) (n : Nat)
    {level : Nat} (h : level + n = depth) :
    climb index level (t.nodeAt level (index.toNat / 2 ^ level)) (t.pathFrom index.toNat level n) =
      some (t.nodeAt depth (index.toNat / 2 ^ depth)) := by
  induction n generalizing level with
  | zero =>
    obtain rfl : level = depth := h
    rfl
  | succ n ih =>
    have hl : level < depth := by omega
    rw [pathFrom_succ, climb_cons index (by omega), t.pairAt_eq_children, ← t.nodeAt_succ hi hl]
    exact ih (by omega)

/-! ## Binding -/

/-- A pair other than the children of the node of height `j + 1` on the way from leaf `i`, with
the same digest. -/
def Collides (i j : Nat) (pair : Digest × Digest) : Prop :=
  pair ≠ t.children j (i / 2 ^ (j + 1)) ∧
    node pair.1 pair.2 =
      node (t.children j (i / 2 ^ (j + 1))).1 (t.children j (i / 2 ^ (j + 1))).2

/-- A climb that ends at the root has come from the tree, along its nodes, or has collided. -/
theorem climb_binding (hd : depth ≤ 64) (hi : index.toNat < 2 ^ depth) (siblings : List Digest)
    {level : Nat} {current : Digest} (h : level + siblings.length = depth)
    (hroot : climb index level current siblings =
      some (t.nodeAt depth (index.toNat / 2 ^ depth))) :
    (current = t.nodeAt level (index.toNat / 2 ^ level) ∧
        siblings = t.pathFrom index.toNat level siblings.length) ∨
      ∃ j < siblings.length, ∃ pair, (hashedPairs index level current siblings)[j]? = some pair ∧
        t.Collides index.toNat (level + j) pair := by
  induction siblings generalizing level current with
  | nil =>
    obtain rfl : level = depth := h
    exact .inl ⟨Option.some.inj hroot, rfl⟩
  | cons sibling rest ih =>
    rw [List.length_cons] at h
    have hl : level < depth := by omega
    rw [climb_cons index (by omega)] at hroot
    rw [hashedPairs_cons index (by omega)]
    rcases ih (by omega) hroot with ⟨hnode, hrest⟩ | ⟨j, hj, pair, hpair, hcollides⟩
    · -- Above this step the climb is the tree's own, so both pairs have the digest of one node.
      rw [t.nodeAt_succ hi hl] at hnode
      by_cases hpair : pairAt index level current sibling =
          t.children level (index.toNat / 2 ^ (level + 1))
      · rw [← t.pairAt_eq_children, pairAt, pairAt, ordered_inj] at hpair
        refine .inl ⟨hpair.1, ?_⟩
        rw [List.length_cons, pathFrom_succ, ← hpair.2, ← hrest]
      · exact .inr ⟨0, Nat.succ_pos _, _, rfl, hpair, hnode⟩
    · rw [show level + 1 + j = level + (j + 1) by omega] at hcollides
      exact .inr ⟨j + 1, Nat.succ_lt_succ hj, pair, hpair, hcollides⟩

theorem row_depth : t.row depth = [t.nodeAt depth 0] := by
  have hlength : (t.row depth).length = 1 := by
    rw [t.length_row (Nat.le_refl depth), Nat.sub_self, Nat.pow_zero]
  obtain ⟨top, htop⟩ := List.length_eq_one_iff.mp hlength
  rw [nodeAt, htop]
  rfl

theorem getElem?_digests (i : Nat) (x : Digest) :
    t.digests[i]? = some x ↔ i < 2 ^ depth ∧ x = t.nodeAt 0 i := by
  rw [← t.length_digests]
  change _ ↔ _ ∧ x = t.digests.getD i _
  constructor
  · intro h
    obtain ⟨hi, rfl⟩ := List.getElem?_eq_some_iff.mp h
    exact ⟨hi, by rw [List.getD_eq_getElem?_getD, h, Option.getD_some]⟩
  · rintro ⟨hi, rfl⟩
    rw [List.getD_eq_getElem?_getD, List.getElem?_eq_getElem hi, Option.getD_some]

/-- Pairing the rows of a tree of at most 32 levels leaves one node. Against it every leaf is
proved by its index and its path, the nodes beside its way. Whatever else is proved against it is a
leaf at its own index with its own path, unless the proof itself exhibits a collision with the tree:
at some height the pair hashed on the climb is not the pair of children on the way of the index, and
has the same digest. A proof that is deeper is never accepted. -/
theorem inclusion_complete_and_binding (hd : depth ≤ 32) (t : Leaves depth) :
    (∃ top, t.row depth = [top] ∧
      (∀ i x, t.digests[i]? = some x →
        (∀ j < depth, (t.path i)[j]? = (t.row j)[beside (i / 2 ^ j)]?) ∧
          verify top x (UInt32.ofNat i) (t.path i) = true) ∧
      ∀ x index siblings, siblings.length = depth → verify top x index siblings = true →
        index.toNat < 2 ^ depth ∧
          (t.digests[index.toNat]? = some x ∧ siblings = t.path index.toNat ∨
            ∃ j < depth, ∃ pair, (hashedPairs index 0 x siblings)[j]? = some pair ∧
              t.Collides index.toNat j pair)) ∧
    ∀ expected x index siblings, 32 < siblings.length →
      verify expected x index siblings = false := by
  have htop : ∀ {i}, i < 2 ^ depth → t.nodeAt depth 0 = t.nodeAt depth (i / 2 ^ depth) := by
    intro i hi
    rw [Nat.div_eq_of_lt hi]
  refine ⟨⟨t.nodeAt depth 0, t.row_depth, ?_, ?_⟩, ?_⟩
  · intro i x hx
    obtain ⟨hi, rfl⟩ := (t.getElem?_digests i x).mp hx
    have hpow : 2 ^ depth ≤ 2 ^ 32 := Nat.pow_le_pow_right (by decide) hd
    have hindex : (UInt32.ofNat i).toNat = i :=
      UInt32.toNat_ofNat_of_lt' (Nat.lt_of_lt_of_le hi hpow)
    have hlength : (t.path i).length = depth := by simp [path]
    refine ⟨fun j => t.getElem?_path hi, ?_⟩
    rw [verify_iff, hlength, hindex]
    refine ⟨hd, hi, ?_⟩
    have hclimb := t.climb_path (by omega) (UInt32.ofNat i) (by rwa [hindex]) depth
      (Nat.zero_add depth)
    rw [hindex, Nat.pow_zero, Nat.div_one, ← t.path_eq, ← htop hi] at hclimb
    exact hclimb
  · intro x index siblings hlength hverify
    rw [verify_iff, hlength] at hverify
    obtain ⟨-, hi, hroot⟩ := hverify
    refine ⟨hi, ?_⟩
    rw [htop hi] at hroot
    rcases t.climb_binding (by omega) hi siblings (by omega) hroot with
      ⟨hx, hs⟩ | ⟨j, hj, pair, hpair, hcollides⟩
    · rw [Nat.pow_zero, Nat.div_one] at hx
      rw [hlength, ← t.path_eq] at hs
      exact .inl ⟨(t.getElem?_digests _ _).mpr ⟨hi, hx⟩, hs⟩
    · rw [Nat.zero_add] at hcollides
      exact .inr ⟨j, hlength ▸ hj, pair, hpair, hcollides⟩
  · intro expected x index siblings hlong
    rw [← Bool.not_eq_true, verify_iff]
    omega

/-- The third of four leaves, with its neighbour and the node over the other two. An index with a
bit above the depth proves nothing. -/
theorem inclusion_complete_and_binding_third :
    let a := Block.fit 32 [1]
    let b := Block.fit 32 [2]
    let c := Block.fit 32 [3]
    let d := Block.fit 32 [4]
    verify (node (node a b) (node c d)) c 2 [d, node a b] = true ∧
      verify (node (node a b) (node c d)) c 6 [d, node a b] = false := by
  intro a b c d
  let four : Leaves 2 := ⟨[a, b, c, d], rfl⟩
  obtain ⟨⟨top, htop, hcomplete, hbinding⟩, -⟩ :=
    inclusion_complete_and_binding (by decide) four
  obtain rfl : node (node a b) (node c d) = top := List.singleton_inj.mp htop
  refine ⟨(hcomplete 2 c rfl).2, ?_⟩
  rw [← Bool.not_eq_true]
  intro hverify
  exact absurd (hbinding c 6 [d, node a b] rfl hverify).1 (by decide)

end Leaves

end VerdictMachine.Merkle

import Dsac.Container.Tree.AvlTree.Order

namespace Dsac.Tree.AvlNode

/-! Balance: when the stored heights are the heights of the subtrees and the two
subtrees of every node differ by at most one. -/

variable {T : Type u}

/-- The height of the subtree itself; an absent subtree counts one less than a leaf. -/
def trueHeight : AvlNode T → Int
  | .null => -1
  | .node _ left right _ => max left.trueHeight right.trueHeight + 1

def IsAvl : AvlNode T → Prop
  | .null => True
  | .node _ left right height =>
      height = max left.trueHeight right.trueHeight + 1 ∧
      left.trueHeight ≤ right.trueHeight + 1 ∧ right.trueHeight ≤ left.trueHeight + 1 ∧
      left.IsAvl ∧ right.IsAvl

theorem IsAvl.depth_eq {root : AvlNode T} (avl : root.IsAvl) : root.depth = root.trueHeight + 1 := by
  cases root with
  | null => rfl
  | node key left right height => simp only [depth_node, trueHeight, avl.1]

theorem isAvl_node {key : T} {left right : AvlNode T} {height : Int} :
    (node key left right height).IsAvl ↔
      left.IsAvl ∧ right.IsAvl ∧ height = max left.depth right.depth ∧
      left.depth ≤ right.depth + 1 ∧ right.depth ≤ left.depth + 1 := by
  constructor
  · rintro ⟨stored, leftNear, rightNear, leftAvl, rightAvl⟩
    have := leftAvl.depth_eq
    have := rightAvl.depth_eq
    exact ⟨leftAvl, rightAvl, by omega, by omega, by omega⟩
  · rintro ⟨leftAvl, rightAvl, stored, leftNear, rightNear⟩
    have := leftAvl.depth_eq
    have := rightAvl.depth_eq
    exact ⟨by omega, by omega, by omega, leftAvl, rightAvl⟩

theorem IsAvl.heightsNonneg {root : AvlNode T} (avl : root.IsAvl) : root.HeightsNonneg := by
  induction root with
  | null => trivial
  | node key left right height leftIH rightIH =>
      obtain ⟨leftAvl, rightAvl, stored, _⟩ := isAvl_node.mp avl
      have := depth_nonneg (leftIH leftAvl)
      exact ⟨by omega, leftIH leftAvl, rightIH rightAvl⟩

theorem IsAvl.depth_nonneg {root : AvlNode T} (avl : root.IsAvl) : 0 ≤ root.depth :=
  AvlNode.depth_nonneg avl.heightsNonneg

theorem IsAvl.eq_null {root : AvlNode T} (avl : root.IsAvl) (empty : root.depth ≤ 0) :
    root = .null := by
  cases root with
  | null => rfl
  | node key left right height =>
      have := avl.heightsNonneg.1
      simp only [depth_node] at empty
      omega

/-- Which of the two children is the deeper one, by the stored heights. -/
def leansLeft : AvlNode T → Bool
  | .null => false
  | .node _ left right _ => decide (right.depth < left.depth)

def leansRight : AvlNode T → Bool
  | .null => false
  | .node _ left right _ => decide (left.depth < right.depth)

/-! ## One call of `BalancingSubtree` on balanced children -/

section Balancing

variable {key destinationKey sourceKey : T} {comp : T → T → Bool} {left right : AvlNode T}

theorem balancingSubtree_even (height : Int) (leftAvl : left.IsAvl) (rightAvl : right.IsAvl)
    (leftNear : left.depth ≤ right.depth + 1) (rightNear : right.depth ≤ left.depth + 1) :
    balancingSubtree (.node key left right height) destinationKey sourceKey comp =
      .ok (.node key left right (max left.depth right.depth)) := by
  rw [balancingSubtree_node key left right height destinationKey sourceKey comp
    leftAvl.depth_nonneg rightAvl.depth_nonneg, if_neg (by omega), if_neg (by omega)]
  rfl

/-- A right child that is too deep and does not lean inward is lifted by the small rotation. -/
theorem balancingSubtree_smallLeft (height : Int) (leftAvl : left.IsAvl) (rightAvl : right.IsAvl)
    (heavy : right.depth = left.depth + 2) (outward : right.leansLeft = false)
    (small : comp destinationKey sourceKey = false) :
    ∃ after, balancingSubtree (.node key left right height) destinationKey sourceKey comp =
        .ok after ∧ after.IsAvl ∧
      after.depth = if right.leansRight then right.depth else right.depth + 1 := by
  have := leftAvl.depth_nonneg
  rw [balancingSubtree_node key left right height destinationKey sourceKey comp
    leftAvl.depth_nonneg rightAvl.depth_nonneg, if_pos heavy, small]
  match right with
  | .null => simp only [depth_null] at heavy; omega
  | .node rightKey inner outer rightHeight =>
      obtain ⟨innerAvl, outerAvl, stored, innerNear, outerNear⟩ := isAvl_node.mp rightAvl
      simp only [leansLeft, decide_eq_false_iff_not, not_lt, depth_node] at outward heavy
      simp only [leansRight, decide_eq_true_eq, depth_node]
      have lowered : (node key left inner (max left.depth inner.depth)).IsAvl :=
        isAvl_node.mpr ⟨leftAvl, innerAvl, rfl, by omega, by omega⟩
      refine ⟨_, rfl, isAvl_node.mpr ⟨lowered, outerAvl, rfl, ?_, ?_⟩, ?_⟩ <;>
        simp only [getMaxHeight, depth_node] <;> omega

theorem balancingSubtree_smallRight (height : Int) (leftAvl : left.IsAvl) (rightAvl : right.IsAvl)
    (heavy : left.depth = right.depth + 2) (outward : left.leansRight = false)
    (small : comp destinationKey sourceKey = false) :
    ∃ after, balancingSubtree (.node key left right height) destinationKey sourceKey comp =
        .ok after ∧ after.IsAvl ∧
      after.depth = if left.leansLeft then left.depth else left.depth + 1 := by
  have := rightAvl.depth_nonneg
  rw [balancingSubtree_node key left right height destinationKey sourceKey comp
    leftAvl.depth_nonneg rightAvl.depth_nonneg, if_neg (by omega), if_pos heavy, small]
  match left with
  | .null => simp only [depth_null] at heavy; omega
  | .node leftKey outer inner leftHeight =>
      obtain ⟨outerAvl, innerAvl, stored, outerNear, innerNear⟩ := isAvl_node.mp leftAvl
      simp only [leansRight, decide_eq_false_iff_not, not_lt, depth_node] at outward heavy
      simp only [leansLeft, decide_eq_true_eq, depth_node]
      have lowered : (node key inner right (max inner.depth right.depth)).IsAvl :=
        isAvl_node.mpr ⟨innerAvl, rightAvl, rfl, by omega, by omega⟩
      refine ⟨_, rfl, isAvl_node.mpr ⟨outerAvl, lowered, rfl, ?_, ?_⟩, ?_⟩ <;>
        simp only [getMaxHeight, depth_node] <;> omega

/-- A right child that is too deep and leans inward needs the large rotation. -/
theorem balancingSubtree_largeLeft (height : Int) (leftAvl : left.IsAvl) (rightAvl : right.IsAvl)
    (heavy : right.depth = left.depth + 2) (inward : right.leansLeft = true)
    (large : comp destinationKey sourceKey = true) :
    ∃ after, balancingSubtree (.node key left right height) destinationKey sourceKey comp =
        .ok after ∧ after.IsAvl ∧ after.depth = right.depth := by
  have := leftAvl.depth_nonneg
  rw [balancingSubtree_node key left right height destinationKey sourceKey comp
    leftAvl.depth_nonneg rightAvl.depth_nonneg, if_pos heavy, large]
  match right with
  | .null => simp only [depth_null] at heavy; omega
  | .node rightKey inner outer rightHeight =>
      obtain ⟨innerAvl, outerAvl, stored, innerNear, outerNear⟩ := isAvl_node.mp rightAvl
      simp only [leansLeft, decide_eq_true_eq, depth_node] at inward heavy
      have := outerAvl.depth_nonneg
      match inner with
      | .null => simp only [depth_null] at inward; omega
      | .node innerKey nearLeft nearRight innerHeight =>
          obtain ⟨nearLeftAvl, nearRightAvl, innerStored, _, _⟩ := isAvl_node.mp innerAvl
          simp only [depth_node] at *
          have newLeft : (node key left nearLeft (max left.depth nearLeft.depth)).IsAvl :=
            isAvl_node.mpr ⟨leftAvl, nearLeftAvl, rfl, by omega, by omega⟩
          have newRight : (node rightKey nearRight outer (max nearRight.depth outer.depth)).IsAvl :=
            isAvl_node.mpr ⟨nearRightAvl, outerAvl, rfl, by omega, by omega⟩
          refine ⟨_, rfl, isAvl_node.mpr ⟨newLeft, newRight, rfl, ?_, ?_⟩, ?_⟩ <;>
            simp only [getMaxHeight, depth_node] <;> omega

theorem balancingSubtree_largeRight (height : Int) (leftAvl : left.IsAvl) (rightAvl : right.IsAvl)
    (heavy : left.depth = right.depth + 2) (inward : left.leansRight = true)
    (large : comp destinationKey sourceKey = true) :
    ∃ after, balancingSubtree (.node key left right height) destinationKey sourceKey comp =
        .ok after ∧ after.IsAvl ∧ after.depth = left.depth := by
  have := rightAvl.depth_nonneg
  rw [balancingSubtree_node key left right height destinationKey sourceKey comp
    leftAvl.depth_nonneg rightAvl.depth_nonneg, if_neg (by omega), if_pos heavy, large]
  match left with
  | .null => simp only [depth_null] at heavy; omega
  | .node leftKey outer inner leftHeight =>
      obtain ⟨outerAvl, innerAvl, stored, outerNear, innerNear⟩ := isAvl_node.mp leftAvl
      simp only [leansRight, decide_eq_true_eq, depth_node] at inward heavy
      have := outerAvl.depth_nonneg
      match inner with
      | .null => simp only [depth_null] at inward; omega
      | .node innerKey nearLeft nearRight innerHeight =>
          obtain ⟨nearLeftAvl, nearRightAvl, innerStored, _, _⟩ := isAvl_node.mp innerAvl
          simp only [depth_node] at *
          have newLeft : (node leftKey outer nearLeft (max outer.depth nearLeft.depth)).IsAvl :=
            isAvl_node.mpr ⟨outerAvl, nearLeftAvl, rfl, by omega, by omega⟩
          have newRight : (node key nearRight right (max nearRight.depth right.depth)).IsAvl :=
            isAvl_node.mpr ⟨nearRightAvl, rightAvl, rfl, by omega, by omega⟩
          refine ⟨_, rfl, isAvl_node.mpr ⟨newLeft, newRight, rfl, ?_, ?_⟩, ?_⟩ <;>
            simp only [getMaxHeight, depth_node] <;> omega

/-- A node that stays in place keeps its other subtree, and one that is rotated down
keeps the subtree that was shortened; so a balanced result has a balanced new subtree. -/
theorem balancingSubtree_outward_left {after : AvlNode T} {height : Int}
    (leftNonneg : left.HeightsNonneg)
    (rightAvl : right.IsAvl) (notHigher : left.depth ≤ right.depth + 1)
    (small : comp destinationKey sourceKey = false)
    (balanced : balancingSubtree (.node key left right height) destinationKey sourceKey comp =
      .ok after) :
    after.depth ≤ max left.depth right.depth + 1 ∧
      (after.IsAvl → left.IsAvl ∧ right.depth ≤ left.depth + 2 ∧
        (right.depth = left.depth + 2 → right.leansLeft = false)) := by
  have leftDepth := depth_nonneg leftNonneg
  rw [balancingSubtree_node key left right height destinationKey sourceKey comp leftDepth
    rightAvl.depth_nonneg, small] at balanced
  by_cases heavy : right.depth = left.depth + 2
  · rw [if_pos heavy] at balanced
    match right with
    | .null => simp only [depth_null] at heavy; omega
    | .node rightKey inner outer rightHeight =>
        obtain ⟨innerAvl, outerAvl, stored, innerNear, outerNear⟩ := isAvl_node.mp rightAvl
        cases balanced
        simp only [getMaxHeight, depth_node, leansLeft, decide_eq_false_iff_not, not_lt] at *
        refine ⟨by omega, fun afterAvl => ?_⟩
        obtain ⟨lowered, _, _, near, _⟩ := isAvl_node.mp afterAvl
        simp only [depth_node] at near
        exact ⟨(isAvl_node.mp lowered).1, by omega, fun _ => by omega⟩
  · rw [if_neg heavy, if_neg (by omega)] at balanced
    cases balanced
    simp only [getMaxHeight, depth_node]
    refine ⟨le_rfl, fun afterAvl => ?_⟩
    obtain ⟨leftAvl, _, _, _, near⟩ := isAvl_node.mp afterAvl
    exact ⟨leftAvl, by omega, fun equal => absurd equal heavy⟩

theorem balancingSubtree_outward_right {after : AvlNode T} {height : Int}
    (rightNonneg : right.HeightsNonneg)
    (leftAvl : left.IsAvl) (notHigher : right.depth ≤ left.depth + 1)
    (small : comp destinationKey sourceKey = false)
    (balanced : balancingSubtree (.node key left right height) destinationKey sourceKey comp =
      .ok after) :
    after.depth ≤ max left.depth right.depth + 1 ∧
      (after.IsAvl → right.IsAvl ∧ left.depth ≤ right.depth + 2 ∧
        (left.depth = right.depth + 2 → left.leansRight = false)) := by
  have rightDepth := depth_nonneg rightNonneg
  rw [balancingSubtree_node key left right height destinationKey sourceKey comp
    leftAvl.depth_nonneg rightDepth, small, if_neg (by omega)] at balanced
  by_cases heavy : left.depth = right.depth + 2
  · rw [if_pos heavy] at balanced
    match left with
    | .null => simp only [depth_null] at heavy; omega
    | .node leftKey outer inner leftHeight =>
        obtain ⟨outerAvl, innerAvl, stored, outerNear, innerNear⟩ := isAvl_node.mp leftAvl
        cases balanced
        simp only [getMaxHeight, depth_node, leansRight, decide_eq_false_iff_not, not_lt] at *
        refine ⟨by omega, fun afterAvl => ?_⟩
        obtain ⟨_, lowered, _, _, near⟩ := isAvl_node.mp afterAvl
        simp only [depth_node] at near
        exact ⟨(isAvl_node.mp lowered).2.1, by omega, fun _ => by omega⟩
  · rw [if_neg heavy] at balanced
    cases balanced
    simp only [getMaxHeight, depth_node]
    refine ⟨le_rfl, fun afterAvl => ?_⟩
    obtain ⟨_, rightAvl, _, near, _⟩ := isAvl_node.mp afterAvl
    exact ⟨rightAvl, by omega, fun equal => absurd equal heavy⟩

end Balancing

/-! ## Insertion -/

variable [LinearOrder T]

theorem IsAvl.pathClear {root : AvlNode T} (avl : root.IsAvl) (added : T) :
    root.PathClear added := by
  -- A child of height three has children on both sides, so it cannot overhang.
  have noneLeft : ∀ child : AvlNode T, child.IsAvl → ¬ child.OverhangsLeft := by
    intro child childAvl overhangs
    cases child with
    | null => exact overhangs.elim
    | node key left right height =>
        cases left with
        | node => exact overhangs.elim
        | null =>
            obtain ⟨_, rightAvl, stored, _, near⟩ := isAvl_node.mp childAvl
            simp only [OverhangsLeft, depth_null] at overhangs stored near
            omega
  have noneRight : ∀ child : AvlNode T, child.IsAvl → ¬ child.OverhangsRight := by
    intro child childAvl overhangs
    cases child with
    | null => exact overhangs.elim
    | node key left right height =>
        cases right with
        | node => exact overhangs.elim
        | null =>
            obtain ⟨leftAvl, _, stored, near, _⟩ := isAvl_node.mp childAvl
            simp only [OverhangsRight, depth_null] at overhangs stored near
            omega
  induction root with
  | null => trivial
  | node key left right height leftIH rightIH =>
      obtain ⟨leftAvl, rightAvl, _⟩ := isAvl_node.mp avl
      simp only [PathClear]
      split
      · exact ⟨fun _ => noneLeft right rightAvl, leftIH leftAvl⟩
      · split
        · exact ⟨fun _ => noneRight left leftAvl, rightIH rightAvl⟩
        · trivial

/-- The root has become deeper on the side of the added key. -/
def GrewTowards (added : T) : AvlNode T → Prop
  | .null => False
  | .node key left right _ =>
      (added < key ∧ left.depth = right.depth + 1) ∨ (key < added ∧ right.depth = left.depth + 1)

/-- What `InsertImpl` does to the balance of a subtree. A subtree that has grown
was not rotated at its root, so its key still tells which side has grown. -/
structure Grown (added : T) (before after : AvlNode T) : Prop where
  isAvl : after.IsAvl
  depth : after.depth = before.depth ∨
    after.depth = before.depth + 1 ∧ (before = .null ∨ after.GrewTowards added)

/-- The rotation chosen for a left child that has become too deep is the large one
exactly when the child leans inward; the right child is never the one too deep. -/
def LeftRotationFits (added : T) (left right : AvlNode T) : Prop :=
  right.depth ≠ left.depth + 2 ∧
  (left.depth = right.depth + 2 → ∃ sourceKey, left.getKey = .ok sourceKey ∧
    greater added sourceKey = left.leansRight ∧ greater added sourceKey = !left.leansLeft)

def RightRotationFits (added : T) (left right : AvlNode T) : Prop :=
  left.depth ≠ right.depth + 2 ∧
  (right.depth = left.depth + 2 → ∃ sourceKey, right.getKey = .ok sourceKey ∧
    less added sourceKey = right.leansLeft ∧ less added sourceKey = !right.leansRight)

/-- `BalancingSubtree` is called with a fitting rotation at every node on the way
back from the place of the added key. -/
def RotationsFit (added : T) : AvlNode T → Prop
  | .null => True
  | .node key left right _ =>
      if added < key then left.RotationsFit added ∧
        ∀ newLeft, left.insertImpl added = .ok (newLeft, true) → LeftRotationFits added newLeft right
      else if key < added then right.RotationsFit added ∧
        ∀ newRight, right.insertImpl added = .ok (newRight, true) → RightRotationFits added left newRight
      else True

theorem Grown.leftRotationFits {added : T} {left newLeft right : AvlNode T}
    (grown : Grown added left newLeft) (rightAvl : right.IsAvl)
    (leftNear : left.depth ≤ right.depth + 1) (rightNear : right.depth ≤ left.depth + 1) :
    LeftRotationFits added newLeft right := by
  have rightDepth := rightAvl.depth_nonneg
  refine ⟨by rcases grown.depth with same | ⟨deeper, _⟩ <;> omega, fun heavy => ?_⟩
  obtain ⟨deeper, grew⟩ : newLeft.depth = left.depth + 1 ∧ (left = .null ∨ newLeft.GrewTowards added) := by
    rcases grown.depth with same | deeper
    · omega
    · exact deeper
  rcases grew with rfl | grew
  · simp only [depth_null] at *; omega
  · match newLeft with
    | .node sourceKey outer inner height =>
        refine ⟨sourceKey, rfl, ?_⟩
        rcases grew with ⟨below, leans⟩ | ⟨above, leans⟩
        · simp [greater, leansLeft, leansRight, below.not_gt, leans]
        · simp [greater, leansLeft, leansRight, above, leans]

theorem Grown.rightRotationFits {added : T} {left right newRight : AvlNode T}
    (grown : Grown added right newRight) (leftAvl : left.IsAvl)
    (leftNear : left.depth ≤ right.depth + 1) (rightNear : right.depth ≤ left.depth + 1) :
    RightRotationFits added left newRight := by
  have leftDepth := leftAvl.depth_nonneg
  refine ⟨by rcases grown.depth with same | ⟨deeper, _⟩ <;> omega, fun heavy => ?_⟩
  obtain ⟨deeper, grew⟩ : newRight.depth = right.depth + 1 ∧ (right = .null ∨ newRight.GrewTowards added) := by
    rcases grown.depth with same | deeper
    · omega
    · exact deeper
  rcases grew with rfl | grew
  · simp only [depth_null] at *; omega
  · match newRight with
    | .node sourceKey inner outer height =>
        refine ⟨sourceKey, rfl, ?_⟩
        rcases grew with ⟨below, leans⟩ | ⟨above, leans⟩
        · simp [less, leansLeft, leansRight, below, leans]
        · simp [less, leansLeft, leansRight, above.not_gt, leans]

theorem Grown.balanceLeft {added key : T} {left newLeft right : AvlNode T} {height : Int}
    (grown : Grown added left newLeft) (avl : (node key left right height).IsAvl)
    (below : added < key) (fits : LeftRotationFits added newLeft right) {sourceKey : T}
    (isSource : newLeft.getKey = .ok sourceKey) :
    ∃ root, balancingSubtree (.node key newLeft right height) added sourceKey greater = .ok root ∧
      Grown added (.node key left right height) root := by
  obtain ⟨leftAvl, rightAvl, stored, leftNear, rightNear⟩ := isAvl_node.mp avl
  have newAvl := grown.isAvl
  have nearby : newLeft.depth = left.depth ∨ newLeft.depth = left.depth + 1 := by
    rcases grown.depth with same | ⟨deeper, _⟩
    · exact Or.inl same
    · exact Or.inr deeper
  by_cases heavy : newLeft.depth = right.depth + 2
  · obtain ⟨fitKey, isFit, chosen, notLeft⟩ := fits.2 heavy
    obtain rfl : sourceKey = fitKey := Except.ok.inj (isSource.symm.trans isFit)
    -- The rotation restores the depth that the subtree had before the insertion.
    have restored : ∃ root, balancingSubtree (.node key newLeft right height) added sourceKey greater =
        .ok root ∧ root.IsAvl ∧ root.depth = newLeft.depth := by
      cases large : greater added sourceKey with
      | true => exact balancingSubtree_largeRight height newAvl rightAvl heavy (chosen.symm.trans large) large
      | false =>
          have leans : newLeft.leansLeft = true := by simpa [large] using notLeft
          simpa only [leans, if_true] using balancingSubtree_smallRight height newAvl rightAvl heavy
            (chosen.symm.trans large) large
    obtain ⟨root, balanced, rootAvl, depth⟩ := restored
    exact ⟨root, balanced, rootAvl, Or.inl (by rw [depth, depth_node]; omega)⟩
  · have notRight := fits.1
    refine ⟨_, balancingSubtree_even height newAvl rightAvl (by omega) (by omega),
      isAvl_node.mpr ⟨newAvl, rightAvl, rfl, by omega, by omega⟩, ?_⟩
    simp only [depth_node]
    by_cases deeper : newLeft.depth = right.depth + 1 ∧ newLeft.depth = left.depth + 1
    · exact Or.inr ⟨by omega, Or.inr (Or.inl ⟨below, deeper.1⟩)⟩
    · exact Or.inl (by omega)

theorem Grown.balanceRight {added key : T} {left right newRight : AvlNode T} {height : Int}
    (grown : Grown added right newRight) (avl : (node key left right height).IsAvl)
    (above : key < added) (fits : RightRotationFits added left newRight) {sourceKey : T}
    (isSource : newRight.getKey = .ok sourceKey) :
    ∃ root, balancingSubtree (.node key left newRight height) added sourceKey less = .ok root ∧
      Grown added (.node key left right height) root := by
  obtain ⟨leftAvl, rightAvl, stored, leftNear, rightNear⟩ := isAvl_node.mp avl
  have newAvl := grown.isAvl
  have nearby : newRight.depth = right.depth ∨ newRight.depth = right.depth + 1 := by
    rcases grown.depth with same | ⟨deeper, _⟩
    · exact Or.inl same
    · exact Or.inr deeper
  by_cases heavy : newRight.depth = left.depth + 2
  · obtain ⟨fitKey, isFit, chosen, notRight⟩ := fits.2 heavy
    obtain rfl : sourceKey = fitKey := Except.ok.inj (isSource.symm.trans isFit)
    have restored : ∃ root, balancingSubtree (.node key left newRight height) added sourceKey less =
        .ok root ∧ root.IsAvl ∧ root.depth = newRight.depth := by
      cases large : less added sourceKey with
      | true => exact balancingSubtree_largeLeft height leftAvl newAvl heavy (chosen.symm.trans large) large
      | false =>
          have leans : newRight.leansRight = true := by simpa [large] using notRight
          simpa only [leans, if_true] using balancingSubtree_smallLeft height leftAvl newAvl heavy
            (chosen.symm.trans large) large
    obtain ⟨root, balanced, rootAvl, depth⟩ := restored
    exact ⟨root, balanced, rootAvl, Or.inl (by rw [depth, depth_node]; omega)⟩
  · have notLeft := fits.1
    refine ⟨_, balancingSubtree_even height leftAvl newAvl (by omega) (by omega),
      isAvl_node.mpr ⟨leftAvl, newAvl, rfl, by omega, by omega⟩, ?_⟩
    simp only [depth_node]
    by_cases deeper : newRight.depth = left.depth + 1 ∧ newRight.depth = right.depth + 1
    · exact Or.inr ⟨by omega, Or.inr (Or.inr ⟨above, deeper.1⟩)⟩
    · exact Or.inl (by omega)

/-- Insertion into a balanced subtree: one step per node on the way back, each with
the rotation that fits. -/
theorem insertImpl_grown {added : T} {root : AvlNode T} (avl : root.IsAvl)
    (ordered : root.Ordered) (absent : added ∉ root.visit) :
    ∃ after, root.insertImpl added = .ok (after, true) ∧ Inserted added root after ∧
      Grown added root after ∧ root.RotationsFit added := by
  obtain ⟨after, inserted, contents⟩ :=
    insertImpl_inserted ordered avl.heightsNonneg (avl.pathClear added) absent
  refine ⟨after, inserted, contents, ?_⟩
  clear contents
  induction root generalizing after with
  | null =>
      cases inserted
      exact ⟨⟨isAvl_node.mpr ⟨trivial, trivial, rfl, by simp, by simp⟩,
        Or.inr ⟨rfl, Or.inl rfl⟩⟩, trivial⟩
  | node key left right height leftIH rightIH =>
      obtain ⟨leftOrdered, rightOrdered, _⟩ := ordered_node.mp ordered
      obtain ⟨leftAvl, rightAvl, _, leftNear, rightNear⟩ := isAvl_node.mp avl
      simp only [visit_node, List.mem_append, List.mem_cons, not_or] at absent
      obtain ⟨notLeft, notKey, notRight⟩ := absent
      rcases lt_or_gt_of_ne notKey with below | above
      · obtain ⟨newLeft, leftInserted, leftContents⟩ :=
          insertImpl_inserted leftOrdered leftAvl.heightsNonneg (leftAvl.pathClear added) notLeft
        obtain ⟨sourceKey, isSource⟩ := leftContents.key
        obtain ⟨grown, leftFits⟩ := leftIH leftAvl leftOrdered notLeft newLeft leftInserted
        have fits := grown.leftRotationFits rightAvl leftNear rightNear
        obtain ⟨root, balanced, rootGrown⟩ := grown.balanceLeft avl below fits isSource
        have result : (node key left right height).insertImpl added = .ok (root, true) := by
          simp only [insertImpl, if_pos below, leftInserted, isSource, balanced, bind, Except.bind,
            pure, Except.pure, if_true]
        obtain rfl : after = root := by
          rw [inserted] at result
          exact congrArg Prod.fst (Except.ok.inj result)
        refine ⟨rootGrown, ?_⟩
        rw [RotationsFit, if_pos below]
        refine ⟨leftFits, fun other otherInserted => ?_⟩
        rw [leftInserted] at otherInserted
        cases otherInserted
        exact fits
      · obtain ⟨newRight, rightInserted, rightContents⟩ :=
          insertImpl_inserted rightOrdered rightAvl.heightsNonneg (rightAvl.pathClear added) notRight
        obtain ⟨sourceKey, isSource⟩ := rightContents.key
        obtain ⟨grown, rightFits⟩ := rightIH rightAvl rightOrdered notRight newRight rightInserted
        have fits := grown.rightRotationFits leftAvl leftNear rightNear
        obtain ⟨root, balanced, rootGrown⟩ := grown.balanceRight avl above fits isSource
        have notBelow : ¬ added < key := above.asymm
        have result : (node key left right height).insertImpl added = .ok (root, true) := by
          simp only [insertImpl, if_neg notBelow, if_pos above, rightInserted, isSource, balanced,
            bind, Except.bind, pure, Except.pure, if_true]
        obtain rfl : after = root := by
          rw [inserted] at result
          exact congrArg Prod.fst (Except.ok.inj result)
        refine ⟨rootGrown, ?_⟩
        rw [RotationsFit, if_neg notBelow, if_pos above]
        refine ⟨rightFits, fun other otherInserted => ?_⟩
        rw [rightInserted] at otherInserted
        cases otherInserted
        exact fits

end Dsac.Tree.AvlNode

import Mathlib
import Dsac.Container.Tree.AvlTree

namespace Dsac.Tree.AvlNode

/-! Order and contents under rotations that are driven by arbitrary stored
heights: nothing here assumes that a stored height is the height of its subtree. -/

variable {T : Type u}

/-- A stored height may be stale, but it never drops below that of a leaf. -/
def HeightsNonneg : AvlNode T → Prop
  | .null => True
  | .node _ left right height => 0 ≤ height ∧ left.HeightsNonneg ∧ right.HeightsNonneg

theorem depth_nonneg {subtree : AvlNode T} (nonneg : subtree.HeightsNonneg) :
    0 ≤ subtree.depth := by
  cases subtree with
  | null => exact le_rfl
  | node key left right height => exact le_of_lt (Int.lt_add_one_of_le nonneg.1)

def hasLeftChild : AvlNode T → Bool
  | .node _ (.node ..) _ _ => true
  | _ => false

def hasRightChild : AvlNode T → Bool
  | .node _ _ (.node ..) _ => true
  | _ => false

@[simp] theorem depth_null : (null : AvlNode T).depth = 0 := rfl

@[simp] theorem depth_node (key : T) (left right : AvlNode T) (height : Int) :
    (node key left right height).depth = height + 1 := rfl

@[simp] theorem visit_node (key : T) (left right : AvlNode T) (height : Int) :
    (node key left right height).visit = left.visit ++ key :: right.visit := rfl

/-! ## Rotations -/

theorem smallLeftRotation_node (key rightKey : T) (left inner outer : AvlNode T)
    (height rightHeight : Int) :
    smallLeftRotation (.node key left (.node rightKey inner outer rightHeight) height) =
      .ok (.node rightKey (.node key left inner (max left.depth inner.depth)) outer
        (max (max left.depth inner.depth + 1) outer.depth)) := rfl

theorem smallRightRotation_node (key leftKey : T) (outer inner right : AvlNode T)
    (height leftHeight : Int) :
    smallRightRotation (.node key (.node leftKey outer inner leftHeight) right height) =
      .ok (.node leftKey outer (.node key inner right (max inner.depth right.depth))
        (max outer.depth (max inner.depth right.depth + 1))) := rfl

theorem largeLeftRotation_node (key rightKey innerKey : T)
    (left nearLeft nearRight outer : AvlNode T) (height rightHeight innerHeight : Int) :
    largeLeftRotation (.node key left
        (.node rightKey (.node innerKey nearLeft nearRight innerHeight) outer rightHeight) height) =
      .ok (.node innerKey (.node key left nearLeft (max left.depth nearLeft.depth))
        (.node rightKey nearRight outer (max nearRight.depth outer.depth))
        (max (max left.depth nearLeft.depth + 1) (max nearRight.depth outer.depth + 1))) := rfl

theorem largeRightRotation_node (key leftKey innerKey : T)
    (outer nearLeft nearRight right : AvlNode T) (height leftHeight innerHeight : Int) :
    largeRightRotation (.node key
        (.node leftKey outer (.node innerKey nearLeft nearRight innerHeight) leftHeight) right height) =
      .ok (.node innerKey (.node leftKey outer nearLeft (max outer.depth nearLeft.depth))
        (.node key nearRight right (max nearRight.depth right.depth))
        (max (max outer.depth nearLeft.depth + 1) (max nearRight.depth right.depth + 1))) := rfl

/-- `BalancingSubtree` by cases on the balance factor of the stored heights. -/
theorem balancingSubtree_node (key : T) (left right : AvlNode T) (height : Int)
    (destinationKey sourceKey : T) (comp : T → T → Bool)
    (leftNonneg : 0 ≤ left.depth) (rightNonneg : 0 ≤ right.depth) :
    balancingSubtree (.node key left right height) destinationKey sourceKey comp =
      (do
        let subtree ←
          if right.depth = left.depth + 2 then
            if comp destinationKey sourceKey then largeLeftRotation (.node key left right height)
            else smallLeftRotation (.node key left right height)
          else if left.depth = right.depth + 2 then
            if comp destinationKey sourceKey then largeRightRotation (.node key left right height)
            else smallRightRotation (.node key left right height)
          else .ok (.node key left right height)
        subtree.setHeight (getMaxHeight (← subtree.getLeftChild) (← subtree.getRightChild))) := by
  have factorLeft : max left.depth 0 - max 0 right.depth = -2 ↔ right.depth = left.depth + 2 := by
    omega
  have factorRight : max left.depth 0 - max 0 right.depth = 2 ↔ left.depth = right.depth + 2 := by
    omega
  rw [← if_congr factorLeft rfl rfl, ← if_congr factorRight rfl rfl]
  rfl

/-- What `BalancingSubtree` leaves of a subtree whatever its stored heights are. -/
structure Rebalanced (key : T) (left right after : AvlNode T) : Prop where
  visit : after.visit = left.visit ++ key :: right.visit
  nonneg : after.HeightsNonneg
  deep : 1 ≤ left.depth ∨ 1 ≤ right.depth → 2 ≤ after.depth

/-- The only null pointer that `BalancingSubtree` can meet is the inner child of
the heavier child when it takes a large rotation. -/
theorem balancingSubtree_rebalanced (key : T) {left right : AvlNode T} (height : Int)
    (destinationKey sourceKey : T) (comp : T → T → Bool)
    (leftNonneg : left.HeightsNonneg) (rightNonneg : right.HeightsNonneg)
    (innerOfRight : right.depth = left.depth + 2 → comp destinationKey sourceKey = true →
      right.hasLeftChild = true)
    (innerOfLeft : left.depth = right.depth + 2 → comp destinationKey sourceKey = true →
      left.hasRightChild = true) :
    ∃ after, balancingSubtree (.node key left right height) destinationKey sourceKey comp =
      .ok after ∧ Rebalanced key left right after := by
  have leftDepth := depth_nonneg leftNonneg
  have rightDepth := depth_nonneg rightNonneg
  rw [balancingSubtree_node key left right height destinationKey sourceKey comp leftDepth rightDepth]
  by_cases rightHeavy : right.depth = left.depth + 2
  · rw [if_pos rightHeavy]
    match right, rightHeavy, rightNonneg, innerOfRight with
    | .null, heavy, _, _ => simp only [depth_null] at heavy; omega
    | .node rightKey inner outer rightHeight, heavy, nonneg, innerExists =>
        obtain ⟨_, innerNonneg, outerNonneg⟩ := nonneg
        have innerDepth := depth_nonneg innerNonneg
        have outerDepth := depth_nonneg outerNonneg
        by_cases inward : comp destinationKey sourceKey = true
        · rw [if_pos inward]
          match inner, innerExists heavy inward with
          | .node innerKey nearLeft nearRight innerHeight, _ =>
              obtain ⟨_, nearLeftNonneg, nearRightNonneg⟩ := innerNonneg
              have := depth_nonneg nearLeftNonneg
              have := depth_nonneg nearRightNonneg
              rw [largeLeftRotation_node]
              refine ⟨_, rfl, by simp, ⟨?_, ⟨?_, leftNonneg, nearLeftNonneg⟩,
                ?_, nearRightNonneg, outerNonneg⟩, ?_⟩ <;>
                simp only [getMaxHeight, depth_node] at * <;> omega
        · rw [if_neg inward, smallLeftRotation_node]
          refine ⟨_, rfl, by simp, ⟨?_, ⟨?_, leftNonneg, innerNonneg⟩, outerNonneg⟩, ?_⟩ <;>
            simp only [getMaxHeight, depth_node] at * <;> omega
  · rw [if_neg rightHeavy]
    by_cases leftHeavy : left.depth = right.depth + 2
    · rw [if_pos leftHeavy]
      match left, leftHeavy, leftNonneg, innerOfLeft with
      | .null, heavy, _, _ => simp only [depth_null] at heavy; omega
      | .node leftKey outer inner leftHeight, heavy, nonneg, innerExists =>
          obtain ⟨_, outerNonneg, innerNonneg⟩ := nonneg
          have innerDepth := depth_nonneg innerNonneg
          have outerDepth := depth_nonneg outerNonneg
          by_cases inward : comp destinationKey sourceKey = true
          · rw [if_pos inward]
            match inner, innerExists heavy inward with
            | .node innerKey nearLeft nearRight innerHeight, _ =>
                obtain ⟨_, nearLeftNonneg, nearRightNonneg⟩ := innerNonneg
                have := depth_nonneg nearLeftNonneg
                have := depth_nonneg nearRightNonneg
                rw [largeRightRotation_node]
                refine ⟨_, rfl, by simp, ⟨?_, ⟨?_, outerNonneg, nearLeftNonneg⟩,
                  ?_, nearRightNonneg, rightNonneg⟩, ?_⟩ <;>
                  simp only [getMaxHeight, depth_node] at * <;> omega
          · rw [if_neg inward, smallRightRotation_node]
            refine ⟨_, rfl, by simp, ⟨?_, outerNonneg, ?_, innerNonneg, rightNonneg⟩, ?_⟩ <;>
              simp only [getMaxHeight, depth_node] at * <;> omega
    · rw [if_neg leftHeavy]
      refine ⟨_, rfl, rfl, ⟨?_, leftNonneg, rightNonneg⟩, ?_⟩ <;>
        simp only [getMaxHeight, depth_node] at * <;> omega

theorem exists_key_of_mem {key : T} {root : AvlNode T} (member : key ∈ root.visit) :
    ∃ rootKey, root.getKey = .ok rootKey := by
  cases root with
  | null => simp [visit] at member
  | node rootKey left right height => exact ⟨rootKey, rfl⟩

theorem depth_pos_of_key {root : AvlNode T} {rootKey : T} (nonneg : root.HeightsNonneg)
    (isRoot : root.getKey = .ok rootKey) : 1 ≤ root.depth := by
  cases root with
  | null => cases isRoot
  | node key left right height =>
      have := nonneg.1
      simp only [depth_node]
      omega

/-! ## Overhanging children -/

/-- A child whose stored height is at least three although its child on the side
of its sibling is missing. -/
def OverhangsRight : AvlNode T → Prop
  | .node _ _ .null height => 3 ≤ height
  | _ => False

def OverhangsLeft : AvlNode T → Prop
  | .node _ .null _ height => 3 ≤ height
  | _ => False

instance : (root : AvlNode T) → Decidable root.OverhangsRight
  | .null => .isFalse id
  | .node _ _ .null height => inferInstanceAs (Decidable (3 ≤ height))
  | .node _ _ (.node ..) _ => .isFalse id

instance : (root : AvlNode T) → Decidable root.OverhangsLeft
  | .null => .isFalse id
  | .node _ .null _ height => inferInstanceAs (Decidable (3 ≤ height))
  | .node _ (.node ..) _ _ => .isFalse id

theorem hasLeftChild_of_not_overhangs {root : AvlNode T} (deep : 4 ≤ root.depth)
    (held : ¬ root.OverhangsLeft) : root.hasLeftChild = true := by
  match root with
  | .null => simp at deep
  | .node _ .null _ height =>
      simp only [OverhangsLeft, depth_node] at held deep
      omega
  | .node _ (.node ..) _ _ => rfl

theorem hasRightChild_of_not_overhangs {root : AvlNode T} (deep : 4 ≤ root.depth)
    (held : ¬ root.OverhangsRight) : root.hasRightChild = true := by
  match root with
  | .null => simp at deep
  | .node _ _ .null height =>
      simp only [OverhangsRight, depth_node] at held deep
      omega
  | .node _ _ (.node ..) _ => rfl

/-! ## Insertion -/

variable [LinearOrder T]

theorem contains_iff_mem_visit (key : T) (root : AvlNode T) :
    root.contains key = true ↔ key ∈ root.visit := by
  induction root with
  | null => simp [contains, visit]
  | node nodeKey left right height leftIH rightIH =>
      simp only [contains, Bool.or_eq_true, beq_iff_eq, leftIH, rightIH, visit_node,
        List.mem_append, List.mem_cons]
      tauto

/-- The keys of the tree are in strictly increasing order. -/
def Ordered (root : AvlNode T) : Prop := root.visit.Pairwise (· < ·)

theorem ordered_node {key : T} {left right : AvlNode T} {height : Int} :
    (node key left right height).Ordered ↔
      left.Ordered ∧ right.Ordered ∧ (∀ k ∈ left.visit, k < key) ∧ (∀ k ∈ right.visit, key < k) := by
  simp only [Ordered, visit_node, List.pairwise_append, List.pairwise_cons, List.mem_cons]
  constructor
  · rintro ⟨leftOrdered, ⟨above, rightOrdered⟩, across⟩
    exact ⟨leftOrdered, rightOrdered, fun k member => across k member key (Or.inl rfl), above⟩
  · rintro ⟨leftOrdered, rightOrdered, below, above⟩
    refine ⟨leftOrdered, ⟨above, rightOrdered⟩, ?_⟩
    rintro k member other (rfl | otherMember)
    · exact below k member
    · exact (below k member).trans (above other otherMember)

/-- On the way from the root to the place of `added`, no node that already has a
child on the side of `added` has an overhanging child on the other side. -/
def PathClear (added : T) : AvlNode T → Prop
  | .null => True
  | .node key left right _ =>
      if added < key then (left ≠ .null → ¬ right.OverhangsLeft) ∧ left.PathClear added
      else if key < added then (right ≠ .null → ¬ left.OverhangsRight) ∧ right.PathClear added
      else True

instance decidablePathClear (added : T) : (root : AvlNode T) → Decidable (root.PathClear added)
  | .null => .isTrue trivial
  | .node key left right _ =>
      have := decidablePathClear added left
      have := decidablePathClear added right
      inferInstanceAs (Decidable (if added < key then (left ≠ .null → ¬ right.OverhangsLeft) ∧ _
        else if key < added then (right ≠ .null → ¬ left.OverhangsRight) ∧ _ else True))

/-- A key below the key of the root lies in the left subtree, which is not null. -/
theorem hasLeftChild_of_mem {key rootKey : T} {root : AvlNode T} (ordered : root.Ordered)
    (member : key ∈ root.visit) (isRoot : root.getKey = .ok rootKey) (below : key < rootKey) :
    root.hasLeftChild = true := by
  match root with
  | .node _ (.node ..) _ _ => rfl
  | .node nodeKey .null right height =>
      cases isRoot
      have above := (ordered_node.mp ordered).2.2.2
      simp only [visit, List.nil_append, List.mem_cons] at member
      rcases member with rfl | member
      · exact absurd below (lt_irrefl key)
      · exact absurd (above key member) below.asymm

theorem hasRightChild_of_mem {key rootKey : T} {root : AvlNode T} (ordered : root.Ordered)
    (member : key ∈ root.visit) (isRoot : root.getKey = .ok rootKey) (above : rootKey < key) :
    root.hasRightChild = true := by
  match root with
  | .node _ _ (.node ..) _ => rfl
  | .node nodeKey left .null height =>
      cases isRoot
      have below := (ordered_node.mp ordered).2.2.1
      simp only [visit, List.mem_append, List.mem_singleton] at member
      rcases member with member | rfl
      · exact absurd (below key member) above.asymm
      · exact absurd above (lt_irrefl key)

/-- What `InsertImpl` leaves of a subtree that did not hold the key. -/
structure Inserted (added : T) (before after : AvlNode T) : Prop where
  members : ∀ k, k ∈ after.visit ↔ k = added ∨ k ∈ before.visit
  ordered : after.Ordered
  nonneg : after.HeightsNonneg
  key : ∃ rootKey, after.getKey = .ok rootKey
  deep : before ≠ .null → 2 ≤ after.depth

theorem Inserted.of_rebalanced {added key : T} {before left right after : AvlNode T}
    (rebalanced : Rebalanced key left right after)
    (ordered : (node key left right 0).Ordered)
    (members : ∀ k, k ∈ (node key left right 0).visit ↔ k = added ∨ k ∈ before.visit)
    (deep : 1 ≤ left.depth ∨ 1 ≤ right.depth) : Inserted added before after := by
  have sameMembers : ∀ k, k ∈ after.visit ↔ k = added ∨ k ∈ before.visit := fun k => by
    rw [rebalanced.visit]
    exact members k
  exact ⟨sameMembers, by rw [Ordered, rebalanced.visit]; exact ordered, rebalanced.nonneg,
    exists_key_of_mem ((sameMembers added).mpr (Or.inl rfl)), fun _ => rebalanced.deep deep⟩

theorem insertImpl_inserted {added : T} {root : AvlNode T} (ordered : root.Ordered)
    (nonneg : root.HeightsNonneg) (clear : root.PathClear added) (absent : added ∉ root.visit) :
    ∃ after, root.insertImpl added = .ok (after, true) ∧ Inserted added root after := by
  induction root with
  | null =>
      exact ⟨.new added, rfl, by simp [new, visit], by simp [Ordered, new, visit],
        by simp [HeightsNonneg, new], ⟨added, rfl⟩, fun nonnull => absurd rfl nonnull⟩
  | node key left right height leftIH rightIH =>
      obtain ⟨leftOrdered, rightOrdered, below, above⟩ := ordered_node.mp ordered
      obtain ⟨_, leftNonneg, rightNonneg⟩ := nonneg
      simp only [visit_node, List.mem_append, List.mem_cons, not_or] at absent
      obtain ⟨notLeft, notKey, notRight⟩ := absent
      simp only [PathClear] at clear
      rcases lt_or_gt_of_ne notKey with less | greater
      · rw [if_pos less] at clear
        obtain ⟨newLeft, inserted, after⟩ := leftIH leftOrdered leftNonneg clear.2 notLeft
        obtain ⟨sourceKey, isSource⟩ := after.key
        have grown := depth_pos_of_key after.nonneg isSource
        obtain ⟨root, balanced, rebalanced⟩ :=
          balancingSubtree_rebalanced key height added sourceKey AvlNode.greater
          after.nonneg rightNonneg
          (fun heavy inward => by
            have leftExists : left ≠ .null := by
              rintro rfl
              cases inserted
              cases isSource
              simp [AvlNode.greater] at inward
            have := after.deep leftExists
            exact hasLeftChild_of_not_overhangs (by omega) (clear.1 leftExists))
          (fun _ inward => hasRightChild_of_mem after.ordered
            ((after.members added).mpr (Or.inl rfl)) isSource (by simpa [AvlNode.greater] using inward))
        refine ⟨root, ?_, .of_rebalanced rebalanced (ordered_node.mpr ⟨after.ordered, rightOrdered,
          ?_, above⟩) ?_ (Or.inl grown)⟩
        · simp only [insertImpl, if_pos less, inserted, isSource, balanced, bind, Except.bind,
            pure, Except.pure, if_true]
        · intro k member
          rcases (after.members k).mp member with rfl | old
          · exact less
          · exact below k old
        · intro k
          simp only [visit_node, List.mem_append, List.mem_cons, after.members]
          exact or_assoc
      · have notLess : ¬ added < key := greater.asymm
        rw [if_neg notLess, if_pos greater] at clear
        obtain ⟨newRight, inserted, after⟩ := rightIH rightOrdered rightNonneg clear.2 notRight
        obtain ⟨sourceKey, isSource⟩ := after.key
        have grown := depth_pos_of_key after.nonneg isSource
        obtain ⟨root, balanced, rebalanced⟩ :=
          balancingSubtree_rebalanced key height added sourceKey AvlNode.less
          leftNonneg after.nonneg
          (fun _ inward => hasLeftChild_of_mem after.ordered
            ((after.members added).mpr (Or.inl rfl)) isSource (by simpa [AvlNode.less] using inward))
          (fun heavy inward => by
            have rightExists : right ≠ .null := by
              rintro rfl
              cases inserted
              cases isSource
              simp [AvlNode.less] at inward
            have := after.deep rightExists
            exact hasRightChild_of_not_overhangs (by omega) (clear.1 rightExists))
        refine ⟨root, ?_, .of_rebalanced rebalanced (ordered_node.mpr ⟨leftOrdered, after.ordered,
          below, ?_⟩) ?_ (Or.inr grown)⟩
        · simp only [insertImpl, if_neg notLess, if_pos greater, inserted, isSource, balanced, bind,
            Except.bind, pure, Except.pure, if_true]
        · intro k member
          rcases (after.members k).mp member with rfl | old
          · exact greater
          · exact above k old
        · intro k
          simp only [visit_node, List.mem_append, List.mem_cons, after.members]
          exact (or_congr Iff.rfl or_left_comm).trans or_left_comm

/-! ## Deletion -/

/-- `FindMinChild` and `DeleteMinChild` split a subtree into its first key and the rest. -/
theorem findMinChild_splits {root : AvlNode T} (ordered : root.Ordered)
    (nonneg : root.HeightsNonneg) (nonnull : root ≠ .null) :
    ∃ minKey minRight minHeight rest,
      root.findMinChild = .ok (.node minKey .null minRight minHeight) ∧
      root.deleteMinChild = .ok rest ∧ root.visit = minKey :: rest.visit ∧
      0 ≤ minHeight ∧ rest.HeightsNonneg := by
  induction root with
  | null => exact absurd rfl nonnull
  | node key left right height leftIH rightIH =>
      match left with
      | .null => exact ⟨key, right, height, right, rfl, rfl, rfl, nonneg.1, nonneg.2.2⟩
      | .node leftKey outer inner leftHeight =>
          obtain ⟨leftOrdered, _⟩ := ordered_node.mp ordered
          obtain ⟨minKey, minRight, minHeight, rest, found, deleted, visited, minNonneg, restNonneg⟩ :=
            leftIH leftOrdered nonneg.2.1 (by simp)
          refine ⟨minKey, minRight, minHeight, .node key rest right height, found, ?_, ?_,
            minNonneg, nonneg.1, restNonneg, nonneg.2.2⟩
          · rw [deleteMinChild]
            simp only [deleted, setLeftChild, bind, Except.bind]
          · rw [visit_node, visited, visit_node, List.cons_append]

/-- What `DeleteImpl` leaves of a subtree. -/
structure Deleted (deletedKey : T) (before after : AvlNode T) : Prop where
  visit : after.visit = before.visit.filter (· ≠ deletedKey)
  nonneg : after.HeightsNonneg

theorem visit_filter_eq_self {deletedKey : T} {keys : List T}
    (absent : deletedKey ∉ keys) : keys.filter (· ≠ deletedKey) = keys := by
  rw [List.filter_eq_self]
  intro key member
  simp only [ne_eq, decide_not, Bool.not_eq_eq_eq_not, Bool.not_true, decide_eq_false_iff_not]
  rintro rfl
  exact absent member

/-- `DeleteImpl` passes a comparison that is false of the keys it compares, so it
never takes a large rotation. -/
theorem deleteImpl_deleted (deletedKey : T) {root : AvlNode T} (ordered : root.Ordered)
    (nonneg : root.HeightsNonneg) :
    ∃ after, root.deleteImpl deletedKey = .ok after ∧ Deleted deletedKey root after := by
  induction root with
  | null => exact ⟨.null, rfl, rfl, trivial⟩
  | node key left right height leftIH rightIH =>
      obtain ⟨leftOrdered, rightOrdered, below, above⟩ := ordered_node.mp ordered
      obtain ⟨_, leftNonneg, rightNonneg⟩ := nonneg
      rcases lt_trichotomy deletedKey key with less | same | greater
      · obtain ⟨newLeft, deleted, after⟩ := leftIH leftOrdered leftNonneg
        have outward : AvlNode.greater deletedKey key = false := by
          simpa [AvlNode.greater] using less.le
        obtain ⟨root, balanced, rebalanced⟩ :=
          balancingSubtree_rebalanced key height deletedKey key AvlNode.greater
          after.nonneg rightNonneg (by simp [outward]) (by simp [outward])
        refine ⟨root, ?_, ?_, rebalanced.nonneg⟩
        · simp only [deleteImpl, if_pos less, deleted, balanced, bind, Except.bind]
        · have notRight : deletedKey ∉ right.visit := fun member =>
            absurd (above _ member) less.asymm
          rw [rebalanced.visit, after.visit, visit_node, List.filter_append,
            List.filter_cons_of_pos (by simpa using less.ne'), visit_filter_eq_self notRight]
      · subst same
        have notLeft : deletedKey ∉ left.visit := fun member => lt_irrefl _ (below _ member)
        have notRight : deletedKey ∉ right.visit := fun member => lt_irrefl _ (above _ member)
        have kept : (node deletedKey left right height).visit.filter (· ≠ deletedKey) =
            left.visit ++ right.visit := by
          rw [visit_node, List.filter_append, List.filter_cons_of_neg (by simp),
            visit_filter_eq_self notLeft, visit_filter_eq_self notRight]
        match right with
        | .null =>
            refine ⟨left, ?_, ?_, leftNonneg⟩
            · simp only [deleteImpl, lt_irrefl, if_false]
            · rw [kept, visit, List.append_nil]
        | .node rightKey inner outer rightHeight =>
            obtain ⟨minKey, minRight, minHeight, rest, found, removed, visited, minNonneg, restNonneg⟩ :=
              findMinChild_splits rightOrdered rightNonneg (by simp)
            refine ⟨.node minKey left rest minHeight, ?_, ?_, minNonneg, leftNonneg, restNonneg⟩
            · simp only [deleteImpl, lt_irrefl, if_false, found, removed, setRightChild,
                setLeftChild, bind, Except.bind]
            · rw [kept, visited, visit_node]
      · have notLess : ¬ deletedKey < key := greater.asymm
        obtain ⟨newRight, deleted, after⟩ := rightIH rightOrdered rightNonneg
        have outward : AvlNode.less deletedKey key = false := by
          simpa [AvlNode.less] using greater.le
        obtain ⟨root, balanced, rebalanced⟩ :=
          balancingSubtree_rebalanced key height deletedKey key AvlNode.less
          leftNonneg after.nonneg (by simp [outward]) (by simp [outward])
        refine ⟨root, ?_, ?_, rebalanced.nonneg⟩
        · simp only [deleteImpl, if_neg notLess, if_pos greater, deleted, balanced, bind, Except.bind]
        · have notLeft : deletedKey ∉ left.visit := fun member =>
            absurd (below _ member) greater.asymm
          rw [rebalanced.visit, after.visit, visit_node, List.filter_append,
            visit_filter_eq_self notLeft, List.filter_cons_of_pos (by simpa using greater.ne)]

end Dsac.Tree.AvlNode

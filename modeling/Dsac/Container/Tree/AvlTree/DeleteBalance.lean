import Dsac.Container.Tree.AvlTree.Balance

namespace Dsac.Tree.AvlNode

/-! Deletion restores neither the heights nor the balance at the node that takes
the place of the deleted one, and never takes a large rotation above it. This
module says for which keys of a balanced tree that does no harm. -/

variable {T : Type u} [LinearOrder T]

/-- Deletion of the key makes the subtree less deep by one, when it is done safely. -/
def shortens (deletedKey : T) : AvlNode T → Bool
  | .null => false
  | .node key left right _ =>
      if deletedKey < key then
        left.shortens deletedKey &&
          (decide (right.depth < left.depth) || decide (left.depth < right.depth) && right.leansRight)
      else if key < deletedKey then
        right.shortens deletedKey &&
          (decide (left.depth < right.depth) || decide (right.depth < left.depth) && left.leansLeft)
      else true

/-- The key is absent, or its node has no right child, or its right child is the
deeper one and has no left child; and no node above it whose shortened side is
already the lower one has its other child leaning towards that side. -/
def DeleteSafe (deletedKey : T) : AvlNode T → Prop
  | .null => True
  | .node key left right _ =>
      if deletedKey < key then
        left.DeleteSafe deletedKey ∧
          (left.shortens deletedKey = true → left.depth < right.depth → right.leansLeft = false)
      else if key < deletedKey then
        right.DeleteSafe deletedKey ∧
          (right.shortens deletedKey = true → right.depth < left.depth → left.leansRight = false)
      else right = .null ∨ right.hasLeftChild = false ∧ right.depth = left.depth + 1

instance decidableDeleteSafe (deletedKey : T) :
    (root : AvlNode T) → Decidable (root.DeleteSafe deletedKey)
  | .null => .isTrue trivial
  | .node key left right _ =>
      have := decidableDeleteSafe deletedKey left
      have := decidableDeleteSafe deletedKey right
      inferInstanceAs (Decidable (if deletedKey < key then _ ∧ _ else if key < deletedKey then _ ∧ _
        else right = .null ∨ right.hasLeftChild = false ∧ right.depth = left.depth + 1))

/-- The height a safe deletion leaves. -/
def depthAfterDelete (deletedKey : T) (root : AvlNode T) : Int :=
  if root.shortens deletedKey then root.depth - 1 else root.depth

theorem deleteImpl_isAvl {deletedKey : T} {root : AvlNode T} (avl : root.IsAvl)
    (safe : root.DeleteSafe deletedKey) :
    ∃ after, root.deleteImpl deletedKey = .ok after ∧ after.IsAvl ∧
      after.depth = root.depthAfterDelete deletedKey := by
  induction root with
  | null => exact ⟨.null, rfl, trivial, rfl⟩
  | node key left right height leftIH rightIH =>
      obtain ⟨leftAvl, rightAvl, stored, leftNear, rightNear⟩ := isAvl_node.mp avl
      have leftDepth := leftAvl.depth_nonneg
      have rightDepth := rightAvl.depth_nonneg
      simp only [DeleteSafe] at safe
      rcases lt_trichotomy deletedKey key with below | same | above
      · rw [if_pos below] at safe
        obtain ⟨newLeft, deleted, newAvl, depth⟩ := leftIH leftAvl safe.1
        have outward : greater deletedKey key = false := by simpa [greater] using below.le
        simp only [deleteImpl, if_pos below, deleted, bind, Except.bind]
        simp only [depthAfterDelete, shortens, if_pos below] at depth ⊢
        by_cases heavy : right.depth = newLeft.depth + 2
        · have shortened : left.shortens deletedKey = true := by
            by_contra unchanged
            rw [if_neg unchanged] at depth
            omega
          rw [if_pos shortened] at depth
          have lower : left.depth < right.depth := by omega
          obtain ⟨after, balanced, afterAvl, afterDepth⟩ :=
            balancingSubtree_smallLeft height newAvl rightAvl heavy (safe.2 shortened lower) outward
          refine ⟨after, balanced, afterAvl, ?_⟩
          have notHigher : ¬ right.depth < left.depth := by omega
          rw [afterDepth, shortened, depth_node]
          cases right.leansRight <;> simp [lower, notHigher] <;> omega
        · refine ⟨_, balancingSubtree_even height newAvl rightAvl ?_ ?_,
            isAvl_node.mpr ⟨newAvl, rightAvl, rfl, ?_, ?_⟩, ?_⟩
          all_goals cases shortened : left.shortens deletedKey
          all_goals simp only [shortened, Bool.false_eq_true, if_false, if_true, Bool.false_and,
            Bool.true_and, depth_node] at depth ⊢
          all_goals try omega
          have notLower : ¬ left.depth < right.depth := by omega
          simp only [notLower, decide_false, Bool.false_and, Bool.or_false, decide_eq_true_eq]
          split <;> omega
      · subst same
        simp only [lt_irrefl, if_false] at safe
        simp only [depthAfterDelete, shortens, lt_irrefl, if_false, if_true, depth_node]
        cases right with
        | null =>
            refine ⟨left, by simp only [deleteImpl, lt_irrefl, if_false], leftAvl, ?_⟩
            simp only [depth_null] at stored
            omega
        | node rightKey inner outer rightHeight =>
            obtain ⟨noInner, deeper⟩ := safe.resolve_left (by simp)
            cases inner with
            | null =>
                obtain ⟨_, outerAvl, rightStored, _⟩ := isAvl_node.mp rightAvl
                have outerDepth := outerAvl.depth_nonneg
                simp only [depth_node, depth_null] at deeper rightStored stored
                refine ⟨.node rightKey left outer rightHeight, ?_,
                  isAvl_node.mpr ⟨leftAvl, outerAvl, by omega, by omega, by omega⟩, ?_⟩
                · simp only [deleteImpl, lt_irrefl, if_false, findMinChild, deleteMinChild,
                    setRightChild, setLeftChild, bind, Except.bind]
                · simp only [depth_node]
                  omega
            | node => simp [hasLeftChild] at noInner
      · have notBelow : ¬ deletedKey < key := above.asymm
        rw [if_neg notBelow, if_pos above] at safe
        obtain ⟨newRight, deleted, newAvl, depth⟩ := rightIH rightAvl safe.1
        have outward : less deletedKey key = false := by simpa [less] using above.le
        simp only [deleteImpl, if_neg notBelow, if_pos above, deleted, bind, Except.bind]
        simp only [depthAfterDelete, shortens, if_neg notBelow, if_pos above] at depth ⊢
        by_cases heavy : left.depth = newRight.depth + 2
        · have shortened : right.shortens deletedKey = true := by
            by_contra unchanged
            rw [if_neg unchanged] at depth
            omega
          rw [if_pos shortened] at depth
          have lower : right.depth < left.depth := by omega
          obtain ⟨after, balanced, afterAvl, afterDepth⟩ :=
            balancingSubtree_smallRight height leftAvl newAvl heavy (safe.2 shortened lower) outward
          refine ⟨after, balanced, afterAvl, ?_⟩
          have notHigher : ¬ left.depth < right.depth := by omega
          rw [afterDepth, shortened, depth_node]
          cases left.leansLeft <;> simp [lower, notHigher] <;> omega
        · refine ⟨_, balancingSubtree_even height leftAvl newAvl ?_ ?_,
            isAvl_node.mpr ⟨leftAvl, newAvl, rfl, ?_, ?_⟩, ?_⟩
          all_goals cases shortened : right.shortens deletedKey
          all_goals simp only [shortened, Bool.false_eq_true, if_false, if_true, Bool.false_and,
            Bool.true_and, depth_node] at depth ⊢
          all_goals try omega
          have notLower : ¬ right.depth < left.depth := by omega
          simp only [notLower, decide_false, Bool.false_and, Bool.or_false, decide_eq_true_eq]
          split <;> omega

/-! ## Only the safe deletions keep the balance -/

omit [LinearOrder T] in
/-- The first node of a balanced subtree is a leaf or has one leaf below it, and taking
it out leaves the heights above it as they were. -/
theorem findMinChild_low {root : AvlNode T} (avl : root.IsAvl) {minKey : T}
    {minRight rest : AvlNode T} {minHeight : Int}
    (found : root.findMinChild = .ok (.node minKey .null minRight minHeight))
    (removed : root.deleteMinChild = .ok rest) :
    minHeight ≤ 1 ∧ (root.hasLeftChild = true → rest.depth = root.depth) := by
  induction root generalizing rest with
  | null => cases found
  | node key left right height leftIH rightIH =>
      obtain ⟨leftAvl, rightAvl, stored, leftNear, rightNear⟩ := isAvl_node.mp avl
      match left with
      | .null =>
          cases found
          have rightDepth := rightAvl.depth_nonneg
          simp only [depth_null] at stored rightNear
          exact ⟨by omega, fun inner => by simp [hasLeftChild] at inner⟩
      | .node leftKey outer inner leftHeight =>
          obtain ⟨newLeft, leftRemoved⟩ :
              ∃ newLeft, (node leftKey outer inner leftHeight).deleteMinChild = .ok newLeft := by
            cases inside : (node leftKey outer inner leftHeight).deleteMinChild with
            | error reason => rw [deleteMinChild] at removed; simp [inside, bind, Except.bind] at removed
            | ok newLeft => exact ⟨newLeft, rfl⟩
          rw [deleteMinChild] at removed
          simp only [leftRemoved, setLeftChild, bind, Except.bind, Except.ok.injEq] at removed
          subst removed
          exact ⟨(leftIH leftAvl found leftRemoved).1, fun _ => rfl⟩

theorem deleteImpl_safe_of_isAvl {deletedKey : T} {root after : AvlNode T} (avl : root.IsAvl)
    (ordered : root.Ordered) (deleted : root.deleteImpl deletedKey = .ok after) :
    after.depth ≤ root.depth ∧ (after.IsAvl → root.DeleteSafe deletedKey) := by
  induction root generalizing after with
  | null => cases deleted; exact ⟨le_rfl, fun _ => trivial⟩
  | node key left right height leftIH rightIH =>
      obtain ⟨leftAvl, rightAvl, stored, leftNear, rightNear⟩ := isAvl_node.mp avl
      obtain ⟨leftOrdered, rightOrdered, _⟩ := ordered_node.mp ordered
      have leftDepth := leftAvl.depth_nonneg
      have rightDepth := rightAvl.depth_nonneg
      simp only [DeleteSafe, depth_node]
      rcases lt_trichotomy deletedKey key with below | same | above
      · obtain ⟨newLeft, leftDeleted, contents⟩ :=
          deleteImpl_deleted deletedKey leftOrdered leftAvl.heightsNonneg
        obtain ⟨lower, leftSafe⟩ := leftIH leftAvl leftOrdered leftDeleted
        have outward : greater deletedKey key = false := by simpa [greater] using below.le
        simp only [deleteImpl, if_pos below, leftDeleted, bind, Except.bind] at deleted
        obtain ⟨depth, balance⟩ := balancingSubtree_outward_left contents.nonneg rightAvl
          (by omega) outward deleted
        refine ⟨by omega, fun afterAvl => ?_⟩
        obtain ⟨newAvl, _, upright⟩ := balance afterAvl
        rw [if_pos below]
        refine ⟨leftSafe newAvl, fun shortened shorter => upright ?_⟩
        obtain ⟨other, otherDeleted, _, otherDepth⟩ := deleteImpl_isAvl leftAvl (leftSafe newAvl)
        rw [leftDeleted] at otherDeleted
        cases otherDeleted
        rw [depthAfterDelete, if_pos shortened] at otherDepth
        omega
      · subst same
        rw [if_neg (lt_irrefl _), if_neg (lt_irrefl _)]
        cases right with
        | null =>
            simp only [deleteImpl, lt_irrefl, if_false, Except.ok.injEq] at deleted
            subst deleted
            exact ⟨by omega, fun _ => Or.inl rfl⟩
        | node rightKey inner outer rightHeight =>
            obtain ⟨minKey, minRight, minHeight, rest, found, removed, _⟩ :=
              findMinChild_splits rightOrdered rightAvl.heightsNonneg (by simp)
            obtain ⟨low, kept⟩ := findMinChild_low rightAvl found removed
            simp only [deleteImpl, lt_irrefl, if_false, found, removed, setRightChild, setLeftChild,
              bind, Except.bind, Except.ok.injEq] at deleted
            subst deleted
            have rightHeightNonneg := rightAvl.heightsNonneg.1
            simp only [depth_node] at *
            refine ⟨by omega, fun afterAvl => Or.inr ?_⟩
            obtain ⟨_, restAvl, minStored, _, near⟩ := isAvl_node.mp afterAvl
            cases inner with
            | node =>
                have := kept rfl
                have := (isAvl_node.mp rightAvl).1.heightsNonneg.1
                obtain ⟨_, _, rightStored, _⟩ := isAvl_node.mp rightAvl
                simp only [depth_node] at rightStored
                omega
            | null =>
                obtain ⟨_, outerAvl, rightStored, _⟩ := isAvl_node.mp rightAvl
                have := outerAvl.depth_nonneg
                cases found
                cases removed
                simp only [depth_null] at rightStored
                exact ⟨rfl, by omega⟩
      · obtain ⟨newRight, rightDeleted, contents⟩ :=
          deleteImpl_deleted deletedKey rightOrdered rightAvl.heightsNonneg
        obtain ⟨lower, rightSafe⟩ := rightIH rightAvl rightOrdered rightDeleted
        have outward : less deletedKey key = false := by simpa [less] using above.le
        have notBelow : ¬ deletedKey < key := above.asymm
        simp only [deleteImpl, if_neg notBelow, if_pos above, rightDeleted, bind, Except.bind] at deleted
        obtain ⟨depth, balance⟩ := balancingSubtree_outward_right contents.nonneg leftAvl
          (by omega) outward deleted
        refine ⟨by omega, fun afterAvl => ?_⟩
        obtain ⟨newAvl, _, upright⟩ := balance afterAvl
        rw [if_neg notBelow, if_pos above]
        refine ⟨rightSafe newAvl, fun shortened shorter => upright ?_⟩
        obtain ⟨other, otherDeleted, _, otherDepth⟩ := deleteImpl_isAvl rightAvl (rightSafe newAvl)
        rw [rightDeleted] at otherDeleted
        cases otherDeleted
        rw [depthAfterDelete, if_pos shortened] at otherDepth
        omega

end Dsac.Tree.AvlNode

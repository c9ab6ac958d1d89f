import Dsac.Library.Run
import Dsac.Container.Tree.BTree.Flat

namespace Dsac.Tree

open Dsac.Library BTreeNode

/-! Runs of insertions that never split an inner node. Such a split happens first
at the root, so these are the runs that never meet a full inner root. -/

variable {T : Type} [LinearOrder T] {t : Nat} {heap : Heap (BTreeNode T)} {root : Addr}

/-- The test of `Contains` on the keys of one node. -/
theorem BTreeNode.isKeyAt_lowerBound (node : BTreeNode T) (sorted : Sorted node.keys) (key : T) :
    node.isKeyAt (lowerBound node.keys key) key = .ok (decide (key ∈ node.keys)) := by
  obtain ⟨keys, children⟩ := node
  obtain ⟨below, above, rfl, index, low, high⟩ := lowerBound_splits sorted key
  have notBelow : key ∉ below := fun member => lt_irrefl key (low key member)
  simp only [isKeyAt, index]
  cases above with
  | nil => simp [notBelow]
  | cons first rest =>
      have inside : below.length < (below ++ first :: rest).length := by simp
      have atFirst : key ∈ first :: rest ↔ first = key := by
        constructor
        · intro member
          refine le_antisymm ?_ (high first (List.mem_cons_self ..))
          rcases List.mem_cons.mp member with rfl | later
          · exact le_rfl
          · exact (List.pairwise_cons.mp (List.pairwise_append.mp sorted).2.1).1 key later
        · rintro rfl
          exact List.mem_cons_self ..
      rw [if_pos inside]
      simp only [getKey_append, bind, Except.bind, pure, Except.pure, List.mem_append, notBelow,
        false_or, atFirst]
      rfl

theorem nodeContains_leaf {keys : List T} (live : heap.get root = some ⟨keys, []⟩)
    (sorted : Sorted keys) (key : T) (fuel : Nat) :
    nodeContains (fuel + 1) heap root key = .ok (decide (key ∈ keys)) := by
  have found := BTreeNode.isKeyAt_lowerBound ⟨keys, []⟩ sorted key
  simp only [nodeContains, load_of_get live, found, bind, Except.bind]
  by_cases member : key ∈ keys <;> simp [member, isLeaf, pure, Except.pure]

theorem Branch.nodeContains_eq {first : Leaf T} {rest : Back T}
    (branch : Branch t heap root [] first rest) (key : T) (fuel : Nat) :
    nodeContains (fuel + 2) heap root key = .ok (decide (key ∈ contents [] first rest)) := by
  have found := BTreeNode.isKeyAt_lowerBound
    ⟨separators [] rest, (leaves [] first rest).map Leaf.address⟩ branch.separatorsSorted key
  rw [nodeContains]
  simp only [load_of_get branch.node, found, bind, Except.bind]
  by_cases atSeparator : key ∈ separators [] rest
  · simp [atSeparator, (separators_sublist [] first rest).subset atSeparator, pure, Except.pure]
  · obtain ⟨below, above, divided, index, low, high⟩ := lowerBound_splits branch.separatorsSorted key
    obtain ⟨front, focus, back, moved, before, behind, same⟩ := branch.moved below above
      (by simpa [separators] using divided)
    rw [List.map_nil, List.nil_append] at before
    subst before behind
    have inFocus : key ∈ contents front focus back ↔ key ∈ focus.keys := by
      refine ⟨fun member => ?_, fun member => by simp [contents, member]⟩
      rcases List.mem_append.mp member with early | later
      · obtain ⟨separator, member, order, _⟩ := moved.below_of_mem (fun s m => (low s m).le) early
        exact absurd (low separator member) (not_lt.mpr order)
      · rcases List.mem_append.mp later with inFocus | late
        · exact inFocus
        · obtain ⟨separator, member, order, reverse⟩ := moved.above_of_mem high late
          rw [divided, le_antisymm order reverse] at atSeparator
          exact absurd (List.mem_append_right _ member) atSeparator
    have focusLeaf := (moved.leaf focus (focus_mem_leaves front focus back)).1
    simp only [atSeparator, decide_false, Bool.false_eq_true, if_false, isLeaf_leaves, index,
      branch.getChild_moved moved, nodeContains_leaf focusLeaf moved.focusSorted key fuel, ← same, inFocus]

namespace BTree

/-- A tree of at most two levels with the given keys. -/
inductive Flat (t : Nat) (inserted : List T) : BTree T → Prop where
  | empty (nothing : inserted = []) : Flat t inserted {}
  | leaf {heap : Heap (BTreeNode T)} {root : Addr} {keys : List T}
      (live : heap.get root = some ⟨keys, []⟩) (bounded : keys.length ≤ 2 * t - 1)
      (sorted : Sorted keys) (same : keys.Perm inserted) : Flat t inserted ⟨heap, some root⟩
  | branch {heap : Heap (BTreeNode T)} {root : Addr} {first : Leaf T} {rest : Back T}
      (holds : Branch t heap root [] first rest) (same : (contents [] first rest).Perm inserted) :
      Flat t inserted ⟨heap, some root⟩

/-- The root has children and no room for a key. -/
def innerRootFull (t : Nat) (tree : BTree T) : Bool :=
  match tree.root.bind tree.heap.get with
  | none => false
  | some node => !node.isLeaf && node.isKeysFull t

omit [LinearOrder T] in
theorem depthBound_of_get {node : BTreeNode T} (live : heap.get root = some node) :
    ∃ fuel, depthBound heap = fuel + 2 := by
  obtain ⟨fuel, enough⟩ := Nat.exists_eq_add_of_lt (Nat.zero_lt_of_lt (Heap.lt_fresh_of_get live))
  exact ⟨fuel, by rw [depthBound, enough, Nat.zero_add]⟩

theorem Flat.contains {inserted : List T} {tree : BTree T} (flat : Flat t inserted tree) (key : T) :
    tree.contains key = .ok (decide (key ∈ inserted)) := by
  cases flat with
  | empty nothing => simp [BTree.contains, nothing]
  | leaf live bounded sorted same =>
      simp only [BTree.contains, depthBound, nodeContains_leaf live sorted key, same.mem_iff]
  | branch holds same =>
      obtain ⟨fuel, enough⟩ := depthBound_of_get holds.node
      simp only [BTree.contains, enough, holds.nodeContains_eq key fuel, same.mem_iff]

/-- The root and its children are all the nodes. -/
def Whole (tree : BTree T) : Prop :=
  match tree.root.bind tree.heap.get with
  | none => tree.heap.fresh = 0
  | some node => node.children.length + 1 = tree.heap.fresh

omit [LinearOrder T] in
theorem whole_iff {node : BTreeNode T} (live : heap.get root = some node) :
    Whole ⟨heap, some root⟩ ↔ node.children.length + 1 = heap.fresh := by
  rw [Whole, Option.bind_some, live]

theorem Flat.insert {inserted : List T} {tree : BTree T} (flat : Flat t inserted tree)
    (positive : 1 ≤ t) (clear : tree.innerRootFull t = false) (key : T) :
    ∃ after, BTree.insert t tree key = .ok after ∧ Flat t (inserted ++ [key]) after ∧
      (Whole tree → Whole after) := by
  have added : ∀ {before after : List T}, before.Perm inserted → after.Perm (key :: before) →
      after.Perm (inserted ++ [key]) := fun same grown =>
    grown.trans ((same.cons key).trans (List.perm_append_singleton key inserted).symm)
  cases flat with
  | empty nothing =>
      subst nothing
      obtain ⟨below, above, split, _, _, stored⟩ := addKey_leaf (t := t)
        (@Heap.get_alloc_fresh (BTreeNode T) {} {}) .nil key
      obtain ⟨rfl, rfl⟩ := List.append_eq_nil_iff.mp split.symm
      refine ⟨_, by simp only [BTree.insert, depthBound, stored]; rfl,
        .leaf (Heap.get_set_self (by simp)) ?_ (List.pairwise_singleton _ key) (.refl _), ?_⟩
      · simp only [List.length_cons, List.length_nil]
        omega
      · intro _
        rw [whole_iff (Heap.get_set_self (by simp))]
        rfl
  | @leaf heap root keys live bounded sorted same =>
      by_cases full : keys.length = 2 * t - 1
      · -- The old root becomes the only child of a new one, a branch with no separator yet.
        have single : Branch t (heap.alloc (BTreeNode.addChild {} root)) heap.fresh []
            ⟨root, keys⟩ [] := by
          refine ⟨Heap.get_alloc_fresh, ?_, ?_, by simpa [contents] using sorted⟩
          · intro leaf member
            obtain rfl : leaf = ⟨root, keys⟩ := by simpa [leaves] using member
            exact ⟨by rw [Heap.get_alloc_of_ne (Heap.get_ne_fresh live), live], bounded⟩
          · simpa [leaves] using (Heap.get_ne_fresh live).symm
        obtain ⟨heap₁, heap₂, node, median, child, first, rest, splitted, liveNode, medianKey, chosen,
          stored, kept, grown, fresh, count⟩ := single.insertedSplit key positive full (by simp) (by simp)
        refine ⟨⟨heap₂, some heap.fresh⟩, ?_, .branch kept (added same (by simpa [contents] using grown)), ?_⟩
        · simp only [List.map_nil, List.length_nil, Nat.zero_add] at splitted medianKey chosen
          simp only [BTree.insert, load_of_get live, isKeysFull, full, beq_self_eq_true, if_true, splitted,
            load_of_get liveNode, medianKey, chosen, depthBound, stored, bind, Except.bind, pure, Except.pure]
        · rw [whole_iff live, whole_iff kept.node]
          intro all
          rw [fresh, Heap.fresh_alloc, ← all]
          simp only [leaves, List.length_map, List.length_append, List.length_cons, List.length_nil] at count ⊢
          omega
      · obtain ⟨below, above, rfl, low, high, stored⟩ := addKey_leaf (t := t) live sorted key
        have notFull : ((below ++ above).length == 2 * t - 1) = false := by simpa using full
        refine ⟨⟨heap.set root ⟨below ++ key :: above, []⟩, some root⟩, ?_,
          .leaf (Heap.get_set_self (Heap.lt_fresh_of_get live)) ?_
            (sorted.insert low (fun a member => (high a member).le)) (added same List.perm_middle), ?_⟩
        · simp only [BTree.insert, load_of_get live, isKeysFull, notFull, Bool.false_eq_true, if_false,
            depthBound, stored, bind, Except.bind, pure, Except.pure]
        · simp only [List.length_append, List.length_cons] at full bounded ⊢
          omega
        · rw [whole_iff live, whole_iff (Heap.get_set_self (Heap.lt_fresh_of_get live)), Heap.fresh_set]
          exact id
  | @branch heap root first rest holds same =>
      obtain ⟨fuel, enough⟩ := depthBound_of_get holds.node
      obtain ⟨heap', first', rest', stored, kept, grown, count⟩ := holds.addKey_added positive key fuel
      refine ⟨⟨heap', some root⟩, ?_, .branch kept (added same grown), ?_⟩
      rotate_left
      · rw [whole_iff holds.node, whole_iff kept.node]
        intro all
        simp only [leaves, List.length_map, List.length_append, List.length_cons, List.length_nil] at all ⊢
        omega
      have notFull : isKeysFull t (⟨separators [] rest, (leaves [] first rest).map Leaf.address⟩ :
          BTreeNode T) = false := by
        simpa [innerRootFull, holds.node, isLeaf_leaves] using clear
      simp only [BTree.insert, load_of_get holds.node, notFull, Bool.false_eq_true, if_false, enough,
        stored, bind, Except.bind, pure, Except.pure]

end BTree

end Dsac.Tree

import Dsac.Container.Tree.BsTree.Calls

namespace Dsac.Tree

open Dsac.Library LinkedTree NodeLayout

/-! The destruction of a subtree by turns to the right. -/

variable {Key : Type}

namespace BinarySearchTree

/-- The number of turns of the loop of `DestroySubtree`: one for each node, and one for
each node that is not on the right spine. -/
def turns : LinkedTree Key → Nat
  | .nil => 0
  | .node _ _ left right => 2 * left.addresses.card + 1 + turns right

theorem turns_le (tree : LinkedTree Key) : turns tree ≤ 2 * tree.addresses.card := by
  induction tree with
  | nil => exact Nat.le_refl _
  | node address value left right _ rightIH =>
      simp only [turns, addresses_node, Multiset.card_cons, Multiset.card_add]
      omega

/-- The loop of `DestroySubtree`, with the nodes that it passes to `DestroyNode`. -/
def destroySubtreeLog : Nat → Heap (BstNode Key) → Option Addr → Outcome (Heap (BstNode Key) × List Addr)
  | _, heap, none => .ok (heap, [])
  | 0, _, some _ => .error .fuel
  | fuel + 1, heap, some root => do
      let node ← load heap root
      match node.left_ with
      | none => do
          let heap ← destroy heap root
          let (heap, destroyed) ← destroySubtreeLog fuel heap node.right_
          return (heap, root :: destroyed)
      | some nextToDestroy => do
          let inner := (← load heap nextToDestroy).right_
          let heap ← modify heap (some root) fun n => { n with left_ := inner }
          let heap ← modify heap (some nextToDestroy) fun n => { n with right_ := some root }
          destroySubtreeLog fuel heap (some nextToDestroy)

theorem destroySubtree_eq_log (fuel : Nat) (heap : Heap (BstNode Key)) (root : Option Addr) :
    destroySubtree fuel heap root = Prod.fst <$> destroySubtreeLog fuel heap root := by
  induction fuel generalizing heap root with
  | zero =>
      cases root with
      | none => rfl
      | some root => rfl
  | succ fuel ih =>
      cases root with
      | none => rfl
      | some root =>
          simp only [destroySubtree, destroySubtreeLog]
          cases load heap root with
          | error reason => rfl
          | ok node =>
              simp only [Outcome.ok_bind]
              cases node.left_ with
              | none =>
                  cases destroy heap root with
                  | error reason => rfl
                  | ok heap =>
                      simp only [Outcome.ok_bind, ih]
                      cases destroySubtreeLog fuel heap node.right_ with
                      | error reason => rfl
                      | ok result => rfl
              | some below =>
                  simp only [ih]
                  cases load heap below with
                  | error reason => rfl
                  | ok node =>
                      simp only [Outcome.ok_bind]
                      cases modify heap (some root) fun n => { n with left_ := node.right_ } with
                      | error reason => rfl
                      | ok heap =>
                          simp only [Outcome.ok_bind]
                          cases modify heap (some below) fun n => { n with right_ := some root } with
                          | error reason => rfl
                          | ok heap => rfl

section

variable {heap : Heap (BstNode Key)} {root below : Addr} {value belowValue : Key} {first second right : LinkedTree Key}

/-- A turn keeps the nodes in their order. -/
theorem inorder_turn : (LinkedTree.node below belowValue first (.node root value second right)).inorder =
    (LinkedTree.node root value (.node below belowValue first second) right).inorder := by
  simp only [inorder, List.append_assoc, List.cons_append]

/-- The left child becomes the root, and the root its right child. -/
theorem turn_hangs (hangs : Hangs heap (.node root value (.node below belowValue first second) right))
    (distinct : (LinkedTree.node root value (.node below belowValue first second) right).addresses.Nodup) :
    ∃ middle next, modify heap (some root) (fun n => { n with left_ := second.root }) = .ok middle ∧
      modify middle (some below) (fun n => { n with right_ := some root }) = .ok next ∧
      Hangs next (.node below belowValue first (.node root value second right)) ∧
      ∀ address, address ≠ root → address ≠ below → next.get address = heap.get address := by
  obtain ⟨⟨parent, live⟩, ⟨⟨belowParent, belowLive⟩, inFirst, inSecond⟩, inRight⟩ := hangs
  simp only [addresses_node, Multiset.nodup_cons, Multiset.mem_add, Multiset.mem_cons, not_or,
    Multiset.cons_add] at distinct
  obtain ⟨⟨rootBelow, ⟨rootFirst, rootSecond⟩, rootRight⟩, ⟨⟨belowFirst, belowSecond⟩, belowRight⟩, _⟩ := distinct
  let middle := heap.set root (node value second.root right.root parent)
  have middleBelow : middle.get below = _ := (Heap.get_set_of_ne (Ne.symm rootBelow)).trans belowLive
  let next := middle.set below (node belowValue first.root (some root) belowParent)
  have kept : ∀ address, address ≠ root → address ≠ below → next.get address = heap.get address := by
    intro address notRoot notBelow
    exact (Heap.get_set_of_ne notBelow).trans (Heap.get_set_of_ne notRoot)
  have keeps : ∀ {subtree : LinkedTree Key}, root ∉ subtree.addresses → below ∉ subtree.addresses →
      Hangs heap subtree → Hangs next subtree := by
    intro subtree rootOutside belowOutside inside
    apply inside.frame
    intro address member
    apply kept address
    · rintro rfl
      exact rootOutside member
    · rintro rfl
      exact belowOutside member
  refine ⟨middle, next, modify_of_get _ live, modify_of_get _ middleBelow, ⟨⟨belowParent, ?_⟩, ?_, ⟨parent, ?_⟩, ?_, ?_⟩,
    kept⟩
  · exact Heap.get_set_self (Heap.lt_fresh_of_get middleBelow)
  · exact keeps rootFirst belowFirst inFirst
  · rw [Heap.get_set_of_ne rootBelow]
    exact Heap.get_set_self (Heap.lt_fresh_of_get live)
  · exact keeps rootSecond belowSecond inSecond
  · exact keeps rootRight belowRight inRight

end

/-- The loop destroys each node of the tree once, in their order, and touches no other. -/
theorem destroySubtreeLog_hangs {heap : Heap (BstNode Key)} {tree : LinkedTree Key} {fuel : Nat}
    (hangs : Hangs heap tree) (distinct : tree.addresses.Nodup) (enough : turns tree ≤ fuel) :
    ∃ next, destroySubtreeLog fuel heap tree.root = .ok (next, tree.inorder.map Prod.fst) ∧
      (∀ address ∈ tree.addresses, next.get address = none) ∧
      ∀ address, address ∉ tree.addresses → next.get address = heap.get address := by
  induction fuel generalizing heap tree with
  | zero =>
      cases tree with
      | nil => exact ⟨heap, rfl, by simp, fun _ _ => rfl⟩
      | node => simp only [turns] at enough; omega
  | succ fuel ih =>
      cases tree with
      | nil => exact ⟨heap, rfl, by simp, fun _ _ => rfl⟩
      | node root value left right =>
          cases left with
          | nil =>
              obtain ⟨⟨parent, live⟩, _, inRight⟩ := hangs
              simp only [addresses_node, addresses_nil, zero_add, Multiset.nodup_cons] at distinct ⊢
              have kept : ∀ address ∈ right.addresses,
                  (heap.free root).get address = heap.get address := by
                intro address member
                apply Heap.get_free_of_ne
                rintro rfl
                exact distinct.1 member
              obtain ⟨next, ran, dead, rest⟩ := ih (inRight.frame kept) distinct.2
                (by simp only [turns, addresses_nil, Multiset.card_zero] at enough; omega)
              refine ⟨next, ?_, ?_, ?_⟩
              · change destroySubtreeLog (fuel + 1) heap (some root) = _
                rw [destroySubtreeLog, load_of_get live, Outcome.ok_bind, BstNode.left_node]
                change (do let heap ← destroy heap root; _) = _
                rw [destroy_of_get live, Outcome.ok_bind, BstNode.right_node, ran]
                rfl
              · intro address member
                rcases Multiset.mem_cons.mp member with rfl | inside
                · rw [rest address distinct.1, Heap.get_free_self]
                · exact dead address inside
              · intro address outside
                rw [Multiset.mem_cons, not_or] at outside
                rw [rest address outside.2, Heap.get_free_of_ne outside.1]
          | node below belowValue first second =>
              obtain ⟨middle, turned, relinkRoot, relinkBelow, nextHangs, kept⟩ := turn_hangs hangs distinct
              have same : (LinkedTree.node below belowValue first (.node root value second right)).addresses =
                  (LinkedTree.node root value (.node below belowValue first second) right).addresses := by
                rw [addresses, inorder_turn, addresses]
              obtain ⟨next, ran, dead, rest⟩ := ih nextHangs (same ▸ distinct) (by
                simp only [turns, addresses_node, Multiset.card_cons, Multiset.card_add] at enough ⊢
                omega)
              rw [same] at dead rest
              rw [inorder_turn] at ran
              obtain ⟨⟨parent, live⟩, ⟨⟨belowParent, belowLive⟩, _⟩, _⟩ := hangs
              refine ⟨next, ?_, dead, ?_⟩
              · change destroySubtreeLog (fuel + 1) heap (some root) = _
                simp only [destroySubtreeLog, load_of_get live, Outcome.ok_bind, BstNode.left_node, root_node,
                  load_of_get belowLive, BstNode.right_node]
                rw [relinkRoot, Outcome.ok_bind, relinkBelow, Outcome.ok_bind]
                exact ran
              · intro address outside
                rw [rest address outside]
                simp only [addresses_node, Multiset.mem_cons, Multiset.mem_add, not_or] at outside
                exact kept address outside.1 outside.2.1.1

end BinarySearchTree

end Dsac.Tree

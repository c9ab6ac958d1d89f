import Dsac.Container.Tree.BsTree
import Dsac.Library.LinkedTree.SearchOrder

namespace Dsac.Tree

open Dsac.Library LinkedTree NodeLayout

/-! Walks over the links of a search tree: the iterator, and the search for a key. -/

variable {Key : Type}

instance : NodeLayout (BstNode Key) Key where
  node key_ left_ right_ parent_ := { key_, left_, right_, parent_ }

namespace BstNode

variable {side : Side} {value : Key} {first second parent : Option Addr}

@[simp] theorem key_node : (node value first second parent : BstNode Key).key_ = value := rfl

@[simp] theorem left_node : (node value first second parent : BstNode Key).left_ = first := rfl

@[simp] theorem right_node : (node value first second parent : BstNode Key).right_ = second := rfl

@[simp] theorem parent_node : (node value first second parent : BstNode Key).parent_ = parent := rfl

@[simp] theorem key_cell : (cell side value first second parent : BstNode Key).key_ = value := by
  cases side <;> rfl

@[simp] theorem parent_cell : (cell side value first second parent : BstNode Key).parent_ = parent := by
  cases side <;> rfl

end BstNode

namespace BinarySearchTree

variable {heap : Heap (BstNode Key)} {parent root_ : Option Addr} {tree : LinkedTree Key}
  {context : Context Key}

theorem leftmost_represents {fuel : Nat} (represents : Represents heap parent tree)
    (enough : tree.addresses.card ≤ fuel) :
    leftmost fuel heap tree.root = .ok (tree.inorder.head?.map Prod.fst) := by
  induction tree generalizing parent fuel with
  | nil => cases fuel <;> rfl
  | node address value left right leftIH _ =>
      obtain ⟨live, inLeft, _⟩ := represents
      simp only [addresses_node, Multiset.card_cons, Multiset.card_add] at enough
      cases fuel with
      | zero => omega
      | succ fuel =>
          have below := leftIH inLeft (show left.addresses.card ≤ fuel by omega)
          change leftmost (fuel + 1) heap (some address) = _
          simp only [leftmost, load_of_get live, bind, Except.bind, BstNode.left_node]
          cases left with
          | nil => rfl
          | node leftAddress leftValue leftLeft leftRight =>
              simp only [LinkedTree.root] at below ⊢
              rw [below]
              simp [inorder]

theorem isLeftChild_linked {node above : Addr} {side : Side} {value : Key} {sibling : LinkedTree Key}
    {outer : Context Key}
    (linked : Linked heap root_ (tree.plug (.under side above value sibling outer)))
    (root : tree.root = some node) :
    isLeftChild heap node = .ok (decide (side = .left)) := by
  obtain ⟨nodeValue, left, right, live⟩ := linked.get_root root
  have aboveLive := linked.get_parent
  simp only [isLeftChild, load_of_get live, bind, Except.bind, BstNode.parent_node, Context.above_under,
    deref_some, load_of_get aboveLive]
  rw [root]
  cases side with
  | left => exact congrArg Except.ok (decide_eq_true rfl)
  | right =>
      have different := linked.sibling_root_ne root
      exact congrArg Except.ok (decide_eq_false (Ne.symm different))

/-- The climb ends at the first node after the subtree. -/
theorem climb_linked {fuel : Nat} {node : Addr} (linked : Linked heap root_ (tree.plug context))
    (root : tree.root = some node) (enough : context.depth < fuel) :
    climb fuel heap node = .ok (context.after.head?.map Prod.fst) := by
  induction fuel generalizing tree context node with
  | zero => omega
  | succ fuel ih =>
      obtain ⟨nodeValue, left, right, live⟩ := linked.get_root root
      cases context with
      | top =>
          simp only [climb, load_of_get live, bind, Except.bind, BstNode.parent_node, Context.above_top]
          rfl
      | under side above value sibling outer =>
          have higher : Linked heap root_ ((join side above value tree sibling).plug outer) := linked
          simp only [Context.depth] at enough
          simp only [climb, load_of_get live, bind, Except.bind, BstNode.parent_node,
            Context.above_under, isLeftChild_linked linked root]
          cases side with
          | left => rfl
          | right =>
              have rest := ih higher (root_join ..) (by omega)
              exact rest

theorem findNextNode_linked {node : Addr} {value : Key} {left right : LinkedTree Key}
    (linked : Linked heap root_ ((LinkedTree.node node value left right).plug context)) :
    findNextNode heap node = .ok ((right.inorder ++ context.after).head?.map Prod.fst) := by
  have bound := linked.card_le_fresh
  simp only [addresses_plug, addresses_node, Multiset.cons_add, Multiset.card_cons,
    Multiset.card_add] at bound
  have represents := linked.represents
  have deep := context.depth_le_card
  have enough : right.addresses.card ≤ depthBound heap := by rw [depthBound]; omega
  simp only [findNextNode, load_of_get represents.1, bind, Except.bind, BstNode.right_node]
  cases right with
  | nil => exact climb_linked linked rfl (by rw [depthBound]; omega)
  | node rightAddress rightValue rightLeft rightRight =>
      have first := leftmost_represents represents.2.2 enough
      refine first.trans ?_
      simp [inorder, List.head?_append]

theorem iterate_linked {fuel : Nat} {later : List (Addr × Key)} (earlier : List (Addr × Key))
    (linked : Linked heap root_ tree) (split : tree.inorder = earlier ++ later)
    (enough : later.length ≤ fuel) :
    iterate fuel heap (later.head?.map Prod.fst) = .ok (later.map Prod.snd) := by
  induction later generalizing earlier fuel with
  | nil => cases fuel <;> rfl
  | cons entry later ih =>
      obtain ⟨node, value⟩ := entry
      obtain ⟨left, right, context, rfl, _, laterIs⟩ := exists_focus split
      cases fuel with
      | zero => simp at enough
      | succ fuel =>
          have rest := ih (earlier ++ [(node, value)]) (by simpa using split)
            (show later.length ≤ fuel by simpa using enough)
          simp only [List.head?_cons, Option.map_some, iterate, load_of_get linked.represents.1, bind,
            Except.bind, findNextNode_linked linked, ← laterIs, rest]
          rfl

/-- The iteration from `Begin()` to `End()` yields the keys in the order of the links. -/
theorem keys_linked {tree : BinarySearchTree Key} {shape : LinkedTree Key}
    (linked : Linked tree.heap tree.root_ shape) : tree.keys = .ok shape.values := by
  have bound := linked.card_le_fresh
  have length : shape.inorder.length = shape.addresses.card := by simp [addresses]
  have first : tree.begin = .ok (shape.inorder.head?.map Prod.fst) := by
    rw [begin, getLeftmostNode, linked.top]
    exact leftmost_represents linked.nodes (Nat.le_succ_of_le bound)
  simp only [keys, first, bind, Except.bind]
  exact iterate_linked [] linked rfl (by rw [depthBound]; omega)

section

variable (compare_ : Key → Key → Bool) (key : Key)

theorem findFrom_linked {fuel : Nat} (linked : Linked heap root_ (tree.plug context))
    (enough : tree.addresses.card ≤ fuel) :
    findFrom compare_ key fuel heap tree.root = .ok (tree.search compare_ key context).1.root := by
  induction tree generalizing fuel context with
  | nil => cases fuel <;> rfl
  | node address value left right leftIH rightIH =>
      simp only [addresses_node, Multiset.card_cons, Multiset.card_add] at enough
      cases fuel with
      | zero => omega
      | succ fuel =>
          have leftLinked : Linked heap root_ (left.plug (.under .left address value right context)) :=
            linked
          have rightLinked : Linked heap root_ (right.plug (.under .right address value left context)) :=
            linked
          change findFrom compare_ key (fuel + 1) heap (some address) = _
          simp only [findFrom, load_of_get linked.represents.1, bind, Except.bind, BstNode.key_node,
            BstNode.left_node, BstNode.right_node, search]
          split
          · exact leftIH leftLinked (by omega)
          · split
            · exact rightIH rightLinked (by omega)
            · rfl

/-- The loop of the insertion ends at an equivalent node, or with the parent of the place. -/
theorem findParent_linked {fuel : Nat} {before : Option Addr}
    (linked : Linked heap root_ (tree.plug context)) (start : tree = .nil → before = context.above)
    (enough : tree.addresses.card ≤ fuel) :
    findParent compare_ key fuel heap tree.root before =
      .ok ((tree.search compare_ key context).1.root,
        match (tree.search compare_ key context).1.root with
        | none => (tree.search compare_ key context).2.above
        | some found => some found) := by
  induction tree generalizing fuel context before with
  | nil =>
      rw [start rfl]
      cases fuel <;> rfl
  | node address value left right leftIH rightIH =>
      simp only [addresses_node, Multiset.card_cons, Multiset.card_add] at enough
      cases fuel with
      | zero => omega
      | succ fuel =>
          have leftLinked : Linked heap root_ (left.plug (.under .left address value right context)) :=
            linked
          have rightLinked : Linked heap root_ (right.plug (.under .right address value left context)) :=
            linked
          change findParent compare_ key (fuel + 1) heap (some address) before = _
          simp only [findParent, load_of_get linked.represents.1, bind, Except.bind, BstNode.key_node,
            BstNode.left_node, BstNode.right_node, search]
          split
          · exact leftIH leftLinked (fun _ => rfl) (by omega)
          · split
            · exact rightIH rightLinked (fun _ => rfl) (by omega)
            · rfl

end

end BinarySearchTree

end Dsac.Tree

import Dsac.Container.Tree.BsTree.Links

namespace Dsac.Tree

open Dsac.Library LinkedTree NodeLayout

/-! The calls on a search tree. An erasure keeps the links only when the node that it
unlinks is a leaf: the child of an unlinked node keeps its link to that node. -/

variable {Key : Type}

namespace BinarySearchTree

variable {compare_ : Key → Key → Bool} {tree : BinarySearchTree Key} {shape : LinkedTree Key}
  {heap : Heap (BstNode Key)} {root_ : Option Addr}

/-- The tree is a search tree whose keys are those stored. -/
structure Holds (compare_ : Key → Key → Bool) (tree : BinarySearchTree Key) (shape : LinkedTree Key)
    (stored : List Key) : Prop where
  linked : Linked tree.heap tree.root_ shape
  ordered : Ordered compare_ shape
  values : shape.values = stored
  size : tree.size_ = stored.length

theorem insert_empty (empty : tree.root_ = none) (key : Key) :
    ∃ heap, tree.insert compare_ key =
        .ok ({ heap, root_ := some tree.heap.fresh, size_ := tree.size_ + 1 },
          some tree.heap.fresh, true) ∧
      Linked heap (some tree.heap.fresh) (.node tree.heap.fresh key .nil .nil) := by
  refine ⟨tree.heap.alloc { key_ := key }, ?_, rfl, ⟨Heap.get_alloc_fresh, trivial, trivial⟩, by simp⟩
  simp only [BinarySearchTree.insert, insertUniqueNode, empty]
  rfl

section

variable {key : Key} {root : Addr} (linked : Linked tree.heap tree.root_ shape)
  (occupied : tree.root_ = some root)
include linked occupied

/-- The loop of an insertion into a tree that has a root. -/
theorem findParent_insert (compare_ : Key → Key → Bool) (key : Key) :
    findParent compare_ key (depthBound (tree.heap.alloc ({ key_ := key } : BstNode Key)))
        (tree.heap.alloc { key_ := key }) (some root) (some root) =
      .ok ((shape.search compare_ key .top).1.root,
        match (shape.search compare_ key .top).1.root with
        | none => (shape.search compare_ key .top).2.above
        | some found => some found) := by
  have allocated : Linked (tree.heap.alloc { key_ := key }) tree.root_ (shape.plug .top) :=
    linked.alloc _
  have top := linked.top
  rw [occupied] at top
  rw [top]
  refine findParent_linked compare_ key allocated ?_ (Nat.le_succ_of_le allocated.card_le_fresh)
  rintro rfl
  cases top

theorem insert_equivalent {found : Addr}
    (ended : (shape.search compare_ key .top).1.root = some found) :
    ∃ heap, tree.insert compare_ key = .ok ({ tree with heap }, some found, false) ∧
      Linked heap tree.root_ shape := by
  have searched := findParent_insert linked occupied compare_ key
  rw [ended] at searched
  have leafLive : (tree.heap.alloc ({ key_ := key } : BstNode Key)).get tree.heap.fresh =
      some { key_ := key } := Heap.get_alloc_fresh
  refine ⟨(tree.heap.alloc { key_ := key }).free tree.heap.fresh, ?_, linked.top,
    linked.nodes.frame ?_, linked.distinct⟩
  · simp only [BinarySearchTree.insert, insertUniqueNode, occupied, load_of_get leafLive, bind,
      Except.bind, searched, destroy_of_get leafLive]
    rfl
  · intro address member
    have different : address ≠ tree.heap.fresh := by
      rintro rfl
      exact linked.fresh_not_mem member
    rw [Heap.get_free_of_ne different, Heap.get_alloc_of_ne different]

theorem insert_new (order : StrictWeakOrder compare_) (ordered : Ordered compare_ shape)
    (ended : (shape.search compare_ key .top).1 = .nil) :
    ∃ heap, tree.insert compare_ key =
        .ok ({ tree with heap, size_ := tree.size_ + 1 }, some tree.heap.fresh, true) ∧
      Linked heap tree.root_ ((LinkedTree.node tree.heap.fresh key .nil .nil).plug
        (shape.search compare_ key .top).2) := by
  have searched := findParent_insert linked occupied compare_ key
  have separates := @search_separates _ compare_ key shape .top order ordered ⟨nofun, nofun⟩
  have whole := plug_search compare_ key shape .top
  rw [ended] at searched whole
  generalize (shape.search compare_ key .top).2 = place at searched separates whole ⊢
  obtain rfl : shape = LinkedTree.nil.plug place := whole.symm
  rcases place with _ | ⟨side, above, value, sibling, outer⟩
  · rw [linked.top] at occupied
    cases occupied
  replace searched : findParent compare_ key (depthBound (tree.heap.alloc ({ key_ := key } : BstNode Key)))
      (tree.heap.alloc { key_ := key }) (some root) (some root) = .ok (none, some above) := searched
  have leafLive : (tree.heap.alloc ({ key_ := key } : BstNode Key)).get tree.heap.fresh =
      some { key_ := key } := Heap.get_alloc_fresh
  have aboveLive := (linked.alloc { key_ := key }).get_parent
  have different : above ≠ tree.heap.fresh := Heap.get_ne_fresh linked.get_parent
  -- the comparison of the keys selects the side on which the search ended
  let relink : BstNode Key → BstNode Key := fun node =>
    if compare_ key value then { node with left_ := some tree.heap.fresh }
    else { node with right_ := some tree.heap.fresh }
  have relinks : relink (cell side value (LinkedTree.nil : LinkedTree Key).root sibling.root outer.above) =
      cell side value (some tree.heap.fresh) sibling.root outer.above := by
    cases side with
    | left =>
        have less : compare_ key value = true := separates.after (above, value) List.mem_cons_self
        simp only [relink, less, if_true]
        rfl
    | right =>
        have greater : compare_ value key = true :=
          separates.before (above, value) (by simp [Context.before])
        simp only [relink, order.asymm greater, Bool.false_eq_true, if_false]
        rfl
  let relinked : BstNode Key := cell side value (some tree.heap.fresh) sibling.root outer.above
  let heap₂ := (tree.heap.alloc ({ key_ := key } : BstNode Key)).set above relinked
  have leaf₂ : heap₂.get tree.heap.fresh = some { key_ := key } := by
    rw [Heap.get_set_of_ne (Ne.symm different)]
    exact leafLive
  let heap₃ := heap₂.set tree.heap.fresh { key_ := key, parent_ := some above }
  refine ⟨heap₃, ?_, (linked.alloc { key_ := key }).attach linked.fresh_not_mem ?_ ?_ ?_⟩
  · have write : modify (tree.heap.alloc { key_ := key }) (some above) relink = .ok heap₂ := by
      rw [modify_of_get _ aboveLive, relinks]
    simp only [relink] at write
    simp only [BinarySearchTree.insert, insertUniqueNode, occupied, load_of_get leafLive, bind,
      Except.bind, searched, deref_some, load_of_get aboveLive, BstNode.key_cell]
    rw [write]
    simp only [modify_of_get _ leaf₂]
    rfl
  · exact Heap.get_set_self (Heap.lt_fresh_of_get leaf₂)
  · rw [Heap.get_set_of_ne different]
    exact Heap.get_set_self (Heap.lt_fresh_of_get aboveLive)
  · intro address notLeaf notAbove
    rw [Heap.get_set_of_ne notLeaf, Heap.get_set_of_ne notAbove]

end

theorem findUnique_linked (linked : Linked tree.heap tree.root_ shape) (compare_ : Key → Key → Bool)
    (key : Key) :
    tree.findUnique compare_ key = .ok (shape.search compare_ key .top).1.root := by
  have whole : Linked tree.heap tree.root_ (shape.plug .top) := linked
  rw [findUnique, linked.top]
  exact findFrom_linked compare_ key whole (Nat.le_succ_of_le linked.card_le_fresh)

/-- A leaf that is not the root is unlinked and destroyed. -/
theorem unlink_leaf {removed above : Addr} {removedValue value : Key} {side : Side}
    {sibling : LinkedTree Key} {outer : Context Key}
    (linked : Linked heap root_ ((LinkedTree.node removed removedValue .nil .nil).plug
      (.under side above value sibling outer))) :
    ∃ middle last, replaceInParent heap removed none = .ok middle ∧
      destroy middle removed = .ok last ∧
      Linked last root_ (LinkedTree.nil.plug (.under side above value sibling outer)) := by
  have removedLive := linked.represents.1
  have aboveLive := linked.get_parent
  have different : removed ≠ above := by
    rintro rfl
    have apart := linked.separate.2.2
    simp [Context.addresses] at apart
  let unlinked : BstNode Key := cell side value none sibling.root outer.above
  have replaced : replaceInParent heap removed none = .ok (heap.set above unlinked) := by
    simp only [replaceInParent, load_of_get removedLive, bind, Except.bind, BstNode.parent_node,
      Context.above_under, deref_some, load_of_get aboveLive, modify_of_get _ aboveLive]
    cases side with
    | left => exact if_pos rfl
    | right => exact if_neg (linked.sibling_root_ne rfl)
  have removed₂ : (heap.set above unlinked).get removed = _ :=
    (Heap.get_set_of_ne different).trans removedLive
  refine ⟨_, _, replaced, destroy_of_get removed₂, linked.detach ?_ ?_⟩
  · rw [Heap.get_free_of_ne (Ne.symm different)]
    exact Heap.get_set_self (Heap.lt_fresh_of_get aboveLive)
  · intro address notRemoved notAbove
    rw [Heap.get_free_of_ne notRemoved, Heap.get_set_of_ne notAbove]

/-- The erasure of the key unlinks a node without children: the node of the key if it has
at most one child, else the leftmost node on the right of it. -/
def unlinksLeaf (compare_ : Key → Key → Bool) (tree : BinarySearchTree Key) (key : Key) :
    Outcome Bool := do
  match ← tree.findUnique compare_ key with
  | none => return true
  | some current =>
      let node ← load tree.heap current
      match node.left_, node.right_ with
      | none, none => return true
      | some _, some right =>
          match ← getLeftmostNode tree.heap (some right) with
          | none => return true
          | some currentLeftmost => return (← load tree.heap currentLeftmost).right_ = none
      | _, _ => return false

section

variable {key value : Key} {current : Addr} {left right : LinkedTree Key} {context : Context Key}

/-- The erasure of a leaf. -/
theorem erase_leaf
    (linked : Linked tree.heap tree.root_ ((LinkedTree.node current value .nil .nil).plug context))
    (found : tree.findUnique compare_ key = .ok (some current)) :
    ∃ heap root_, tree.eraseUnique compare_ key = .ok ({ heap, root_, size_ := tree.size_ - 1 }, true) ∧
      Linked heap root_ (LinkedTree.nil.plug context) := by
  have live := linked.represents.1
  have top := linked.top
  rw [root_plug] at top
  cases context with
  | top =>
      refine ⟨tree.heap.free current, none, ?_, rfl, trivial, by simp [LinkedTree.plug]⟩
      have atRoot : tree.root_ = some current := top
      simp only [eraseUnique, found, bind, Except.bind, load_of_get live, BstNode.left_node,
        BstNode.right_node, LinkedTree.root, atRoot, if_true, destroy_of_get live]
      rfl
  | under side above aboveValue sibling outer =>
      obtain ⟨middle, last, replaced, destroyed, unlinked⟩ := unlink_leaf linked
      have below : tree.root_ ≠ some current :=
        linked.root_ne_of_under (by rintro ⟨⟩) (mem_addresses_of_root rfl)
      refine ⟨last, tree.root_, ?_, unlinked⟩
      simp only [eraseUnique, found, bind, Except.bind, load_of_get live, BstNode.left_node,
        BstNode.right_node, LinkedTree.root, if_neg below, replaced, destroyed]
      rfl

/-- The erasure of a node with two children, the first node on the right being a leaf:
its key moves up and the leaf is unlinked. -/
theorem erase_inner {leaf : Addr} {leafValue : Key} {inner : Context Key}
    (linked : Linked tree.heap tree.root_ ((LinkedTree.node current value left
      ((LinkedTree.node leaf leafValue .nil .nil).plug inner)).plug context))
    (first : inner.before = []) (leftOccupied : left ≠ .nil)
    (found : tree.findUnique compare_ key = .ok (some current)) :
    ∃ heap, tree.eraseUnique compare_ key =
        .ok ({ tree with heap, size_ := tree.size_ - 1 }, true) ∧
      Linked heap tree.root_
        ((LinkedTree.node current leafValue left (LinkedTree.nil.plug inner)).plug context) := by
  have live := linked.represents.1
  have leafView : ∀ key, (LinkedTree.node current key left
      ((LinkedTree.node leaf leafValue .nil .nil).plug inner)).plug context =
      (LinkedTree.node leaf leafValue .nil .nil).plug
        (inner.append (.under .right current key left context)) := by
    intro key
    rw [Context.plug_append]
    rfl
  have leftmostIs : getLeftmostNode tree.heap
      ((LinkedTree.node leaf leafValue .nil .nil).plug inner).root = .ok (some leaf) := by
    have bound := linked.card_le_fresh
    simp only [addresses_plug _ context, addresses_node, Multiset.cons_add, Multiset.card_cons,
      Multiset.card_add] at bound
    have ran := leftmost_represents linked.represents.2.2
      (show _ ≤ depthBound tree.heap by rw [depthBound]; omega)
    rw [getLeftmostNode, ran, inorder_plug, first]
    rfl
  have leafLive : load tree.heap leaf = _ := load_of_get (by
    have seen := linked
    rw [leafView] at seen
    exact seen.represents.1)
  let heap₂ := tree.heap.set current
    (node leafValue left.root ((LinkedTree.node leaf leafValue .nil .nil).plug inner).root context.above)
  have moved : modify tree.heap (some current) (fun n => { n with key_ := leafValue }) = .ok heap₂ :=
    modify_of_get _ live
  have linked₂ : Linked heap₂ tree.root_ ((LinkedTree.node current leafValue left
      ((LinkedTree.node leaf leafValue .nil .nil).plug inner)).plug context) := by
    have placed : Linked tree.heap tree.root_ ((join .left current value left
        ((LinkedTree.node leaf leafValue .nil .nil).plug inner)).plug context) := linked
    exact placed.setValue leafValue
  rw [leafView] at linked₂
  have leaf₂ := load_of_get linked₂.represents.1
  generalize placeIs : inner.append (.under .right current leafValue left context) = place at linked₂ leaf₂
  cases place with
  | top => exact (Context.append_under_ne_top _ _ _ _ _ _ placeIs).elim
  | under side above aboveValue sibling outer =>
      obtain ⟨middle, last, replaced, destroyed, unlinked⟩ := unlink_leaf linked₂
      refine ⟨last, ?_, ?_⟩
      · obtain ⟨leftAddress, leftRoot⟩ : ∃ address, left.root = some address := by
          cases left with
          | nil => exact absurd rfl leftOccupied
          | node address => exact ⟨address, rfl⟩
        cases rightRoot : ((LinkedTree.node leaf leafValue .nil .nil).plug inner).root with
        | none =>
            rw [rightRoot] at leftmostIs
            cases leftmostIs
        | some rightAddress =>
            rw [rightRoot] at leftmostIs
            simp only [eraseUnique, found, bind, Except.bind, load_of_get live, BstNode.left_node,
              BstNode.right_node, leftRoot, rightRoot, leftmostIs, leafLive, BstNode.key_node, moved,
              leaf₂]
            simp only [LinkedTree.root, replaced, destroyed]
            rfl
      · rw [← placeIs, Context.plug_append] at unlinked
        exact unlinked

/-- An erasure that unlinks a leaf finds one of the two shapes above. -/
theorem leaf_of_unlinksLeaf
    (linked : Linked tree.heap tree.root_ ((LinkedTree.node current value left right).plug context))
    (found : tree.findUnique compare_ key = .ok (some current))
    (unlinks : unlinksLeaf compare_ tree key = .ok true) :
    left = .nil ∧ right = .nil ∨
      left ≠ .nil ∧ ∃ leaf leafValue inner,
        right = (LinkedTree.node leaf leafValue .nil .nil).plug inner ∧ inner.before = [] := by
  have live := linked.represents.1
  simp only [unlinksLeaf, found, bind, Except.bind, load_of_get live, BstNode.left_node,
    BstNode.right_node] at unlinks
  cases right with
  | nil =>
      cases left with
      | nil => exact Or.inl ⟨rfl, rfl⟩
      | node => cases unlinks
  | node rightAddress rightValue rightLeft rightRight =>
      cases left with
      | nil => cases unlinks
      | node leftAddress leftValue leftLeft leftRight =>
          refine Or.inr ⟨nofun, ?_⟩
          obtain ⟨leaf, leafValue, leafRight, inner, rightIs, first⟩ :=
            exists_first rightAddress rightValue rightLeft rightRight
          have bound := linked.card_le_fresh
          simp only [addresses_plug _ context, addresses_node _ _ _ (LinkedTree.node ..),
            Multiset.cons_add, Multiset.card_cons, Multiset.card_add] at bound
          have leftmostIs := leftmost_represents linked.represents.2.2
            (show _ ≤ depthBound tree.heap by rw [depthBound]; omega)
          rw [rightIs] at linked
          have leafLinked : Linked tree.heap tree.root_
              ((LinkedTree.node leaf leafValue .nil leafRight).plug
                (inner.append (.under .right current value
                  (.node leftAddress leftValue leftLeft leftRight) context))) := by
            rw [Context.plug_append]
            exact linked
          have leafLive := load_of_get leafLinked.represents.1
          have head : (LinkedTree.node rightAddress rightValue rightLeft rightRight).inorder.head?.map
              Prod.fst = some leaf := by
            rw [rightIs, inorder_plug, first]
            rfl
          rw [head] at leftmostIs
          simp only [LinkedTree.root, getLeftmostNode] at unlinks leftmostIs
          rw [leftmostIs] at unlinks
          simp only [leafLive, BstNode.right_node] at unlinks
          cases leafRight with
          | nil => exact ⟨leaf, leafValue, inner, rightIs, first⟩
          | node => cases unlinks

theorem erase_holds {stored : List Key} (order : StrictWeakOrder compare_)
    (holds : Holds compare_ tree shape stored) (unlinks : unlinksLeaf compare_ tree key = .ok true) :
    ∃ next flag shape', tree.eraseUnique compare_ key = .ok (next, flag) ∧
      Holds compare_ next shape' (eraseEquivalent compare_ stored key) := by
  obtain ⟨linked, ordered, rfl, size⟩ := holds
  have found := findUnique_linked linked compare_ key
  have separates := @search_separates _ compare_ key shape .top order ordered ⟨nofun, nofun⟩
  have whole := plug_search compare_ key shape .top
  have ends := search_equivalent compare_ key shape .top
  generalize shape.search compare_ key .top = place at found separates whole ends
  obtain ⟨subtree, context⟩ := place
  obtain rfl : shape = subtree.plug context := whole.symm
  have before := separates.values_before
  have after := separates.values_after
  rcases ends with absent | ⟨current, value, left, right, present, notLess, notGreater⟩
  · obtain rfl : subtree = .nil := absent
    refine ⟨tree, false, _, ?_, linked, ordered, ?_, ?_⟩
    · simp only [eraseUnique, found, bind, Except.bind, LinkedTree.root]
      rfl
    · simp only [values_plug, values_nil, List.append_nil]
      exact (eraseEquivalent_absent before after).symm
    · simp only [values_plug, values_nil, List.append_nil] at size ⊢
      rw [eraseEquivalent_absent before after, size]
  · obtain rfl : subtree = .node current value left right := present
    have sides := ordered.of_plug
    have values : ((LinkedTree.node current value left right).plug context).values =
        (context.before.map Prod.snd ++ left.values) ++ value ::
          (right.values ++ context.after.map Prod.snd) := by
      simp [values_plug]
    have erased : eraseEquivalent compare_ ((LinkedTree.node current value left right).plug context).values
        key = (context.before.map Prod.snd ++ left.values) ++
          (right.values ++ context.after.map Prod.snd) := by
      rw [values]
      refine eraseEquivalent_between ?_ ?_ notLess notGreater
      · simp only [List.mem_append]
        rintro other (outside | inLeft)
        · exact before other outside
        · obtain ⟨entry, member, rfl⟩ := List.mem_map.mp inLeft
          exact order.lt_of_lt_of_equiv (sides.1 entry member) notGreater notLess
      · simp only [List.mem_append]
        rintro other (inRight | outside)
        · obtain ⟨entry, member, rfl⟩ := List.mem_map.mp inRight
          exact order.lt_of_equiv_of_lt (sides.2 entry member) notLess notGreater
        · exact after other outside
    have finish : ∀ next shape', Linked next.heap next.root_ shape' →
        next.size_ = tree.size_ - 1 →
        shape'.values = (context.before.map Prod.snd ++ left.values) ++
          (right.values ++ context.after.map Prod.snd) →
        Holds compare_ next shape' (eraseEquivalent compare_
          ((LinkedTree.node current value left right).plug context).values key) := by
      intro next shape' nextLinked nextSize nextValues
      have same := nextValues.trans erased.symm
      refine ⟨nextLinked, ?_, same, ?_⟩
      · rw [ordered_iff_values, same]
        exact ((ordered_iff_values ..).mp ordered).sublist List.filter_sublist
      · rw [nextSize, size, erased, values]
        simp only [List.length_append, List.length_cons]
        omega
    rcases leaf_of_unlinksLeaf linked found unlinks with ⟨rfl, rfl⟩ |
      ⟨leftOccupied, leaf, leafValue, inner, rfl, first⟩
    · obtain ⟨heap, root_, ran, unlinked⟩ := erase_leaf linked found
      exact ⟨_, true, _, ran, finish _ _ unlinked rfl (by simp [values_plug])⟩
    · obtain ⟨heap, ran, unlinked⟩ := erase_inner linked first leftOccupied found
      exact ⟨_, true, _, ran, finish _ _ unlinked rfl (by simp [values_plug, first])⟩

end

end BinarySearchTree

end Dsac.Tree

import Dsac.Container.Tree.RbTree.Balance

namespace Dsac.Tree

open Dsac.Library LinkedTree NodeLayout

/-! Every run of insertions keeps a red-black tree. -/

variable {T : Type}

namespace RbTree

variable {tree : RbTree T} {subtree : Addr} {low : LinkedTree (T × Color)}
  {context : Context (T × Color)} {height : Nat}

/-- One turn of the loop below a red parent. -/
theorem balanceBelow_risen {parentSide side : Side} {parent grandparent : Addr}
    {parentKey grandparentKey : T} {sibling uncle : LinkedTree (T × Color)}
    {outer : Context (T × Color)}
    (rising : Rising tree subtree low (.under parentSide parent (parentKey, .red) sibling
      (.under side grandparent (grandparentKey, .black) uncle outer)) height) :
    ∃ next nextSubtree, balanceBelow side tree (some subtree) = .ok (next, some nextSubtree) ∧
      Risen tree low (.under parentSide parent (parentKey, .red) sibling
        (.under side grandparent (grandparentKey, .black) uncle outer)) next nextSubtree := by
  cases rising.around with
  | red _ outside =>
  cases outside with
  | black uncleBalanced _ =>
  cases uncleBalanced with
  | nil => exact balanceBelow_rotates rising .nil
  | red inLeft inRight => exact balanceBelow_recolors rising
  | black inLeft inRight => exact balanceBelow_rotates rising (.black inLeft inRight)

/-- The loop ends after at most one turn for each node above the subtree, with a tree
that is red-black up to the color of its root. -/
theorem balancingLoop_rises {fuel : Nat} (rising : Rising tree subtree low context height)
    (under : context ≠ .top) (enough : context.depth < fuel) :
    ∃ next shape color total, balancingLoop fuel tree (some subtree) = .ok next ∧
      Linked next.heap next.root_ shape ∧ Balanced shape color total ∧
      keysOf shape = keysOf (low.plug context) ∧ next.heap.fresh = tree.heap.fresh := by
  induction fuel generalizing tree subtree low context height with
  | zero => omega
  | succ fuel ih =>
      have linked := rising.linked
      have parentLink := getParent_linked linked rising.root
      rcases context with _ | ⟨parentSide, parent, ⟨parentKey, parentColor⟩, sibling, rest⟩
      · exact absurd rfl under
      have parentLive := load_of_get linked.get_parent
      rw [Context.above_under] at parentLink
      cases rising.around with
      | black beside outside =>
          have ended : balancingLoop (fuel + 1) tree (some subtree) = .ok tree := by
            simp only [balancingLoop, parentLink, bind, Except.bind, deref_some, parentLive,
              RbNode.isColor_cell]
            rfl
          obtain ⟨total, balanced⟩ := BalancedAround.plug (.black beside outside) rising.balanced
          exact ⟨tree, _, _, total, ended, linked, balanced, rfl, rfl⟩
      | red beside outside =>
          cases outside with
          | @black side grandparent grandparentKey uncle outer =>
          have higher : Linked tree.heap tree.root_
              ((join parentSide parent (parentKey, .red) low sibling).plug
                (.under side grandparent (grandparentKey, .black) uncle outer)) := linked
          have grandparentLive := load_of_get higher.get_parent
          rw [root_join] at grandparentLive
          have found : (if some parent =
              (cell side (grandparentKey, .black) (some parent) uncle.root outer.above : RbNode T).right
              then Side.right else Side.left) = side := by
            cases side with
            | left => exact if_neg (Ne.symm (higher.sibling_root_ne (root_join ..)))
            | right => exact if_pos rfl
          obtain ⟨next, nextSubtree, turned,
            ⟨nextLow, nextContext, nextHeight, nextRising, less, keys⟩, fresh⟩ :=
            balanceBelow_risen rising
          have unfolded : balancingLoop (fuel + 1) tree (some subtree) =
              if some nextSubtree = next.root_ then .ok next
              else balancingLoop fuel next (some nextSubtree) := by
            rw [balancingLoop]
            simp only [parentLink, bind, Except.bind, deref_some, parentLive, RbNode.isColor_cell,
              beq_self_eq_true, if_true, getGrandparent_linked linked rising.root,
              Context.above_under, grandparentLive, found, turned]
            rfl
          rw [unfolded]
          cases nextContext with
          | top =>
              have atRoot : some nextSubtree = next.root_ :=
                nextRising.root.symm.trans nextRising.linked.top.symm
              exact ⟨next, nextLow, _, _, if_pos atRoot, nextRising.linked, nextRising.balanced, keys,
                fresh⟩
          | under =>
              have below : some nextSubtree ≠ next.root_ := Ne.symm
                (nextRising.linked.root_ne_of_under nofun (mem_addresses_of_root nextRising.root))
              obtain ⟨last, shape, color, total, ran, lastLinked, balanced, lastKeys, lastFresh⟩ :=
                ih nextRising nofun (by omega)
              exact ⟨last, shape, color, total, (if_neg below).trans ran, lastLinked, balanced,
                lastKeys.trans keys, lastFresh.trans fresh⟩

/-- `BalancingSubtree` restores the invariant. -/
theorem balancingSubtree_balances (rising : Rising tree subtree low context height)
    (under : context ≠ .top) :
    ∃ next shape total, balancingSubtree tree (some subtree) = .ok next ∧
      Linked next.heap next.root_ shape ∧ Balanced shape .black total ∧
      keysOf shape = keysOf (low.plug context) := by
  have enough : context.depth < depthBound tree.heap := by
    have bound := rising.linked.card_le_fresh
    rw [addresses_plug, Multiset.card_add] at bound
    have deep := context.depth_le_card
    rw [depthBound]
    omega
  obtain ⟨last, shape, color, total, ran, linked, balanced, keys, _⟩ :=
    balancingLoop_rises rising under enough
  cases shape with
  | nil =>
      have empty : keysOf (low.plug context) = [] := keys.symm
      obtain ⟨address, value, left, right, rfl⟩ : ∃ address value left right,
          low = .node address value left right := by
        cases low with
        | nil => cases rising.root
        | node address value left right => exact ⟨_, _, _, _, rfl⟩
      simp [keysOf_plug] at empty
  | node address value left right =>
      obtain ⟨key, color⟩ := value
      have top := linked.top
      have placed : Linked last.heap last.root_
          ((join .left address (key, color) left right).plug .top) := linked
      let root : RbNode T := cell .left (key, .black) left.root right.root none
      refine ⟨{ last with heap := last.heap.set address root }, _, _, ?_,
        placed.setValue (key, .black), balanced.paint, ?_⟩
      · simp only [balancingSubtree, ran, bind, Except.bind, top, LinkedTree.root]
        rw [modify_of_get _ linked.nodes.1]
        rfl
      · rw [← keys]
        simp only [keysOf_node]

section

variable [LT T] [DecidableLT T] {heap : Heap (RbNode T)} {root_ : Option Addr}

/-- Every turn on the way down is the one that the comparison of the keys selects. -/
def Descends (key : T) : Context (T × Color) → Prop
  | .top => True
  | .under side _ value _ outer =>
      side = (if key < value.1 then Side.left else Side.right) ∧ Descends key outer

/-- The search for the parent ends at an empty subtree. -/
theorem findParent_descends (key : T) {color : Color} {fuel : Nat}
    (linked : Linked heap root_ (low.plug context)) (balanced : Balanced low color height)
    (around : BalancedAround context color height) (descends : Descends key context)
    (enough : low.addresses.card < fuel) :
    ∃ place, findParent key fuel heap context.above low.root = .ok place.above ∧
      low.plug context = LinkedTree.nil.plug place ∧ BalancedAround place .black 0 ∧ Descends key place := by
  induction fuel generalizing low context color height with
  | zero => omega
  | succ fuel ih =>
      cases low with
      | nil =>
          cases balanced
          exact ⟨context, rfl, rfl, around, descends⟩
      | node address value left right =>
          have live := load_of_get linked.represents.1
          simp only [addresses_node, Multiset.card_cons, Multiset.card_add] at enough
          have turn : findParent key (fuel + 1) heap context.above (some address) =
              findParent key fuel heap (some address)
                (if key < value.1 then left.root else right.root) := by
            simp only [findParent, live, bind, Except.bind]
            rfl
          rw [LinkedTree.root, turn]
          by_cases less : key < value.1
          · obtain ⟨_, _, inLeft, aroundLeft⟩ := @Balanced.descend _ left right _ _ _ .left _ _
              balanced around
            have below : Linked heap root_ (left.plug (.under .left address value right context)) :=
              linked
            rw [if_pos less]
            exact ih below inLeft aroundLeft ⟨(if_pos less).symm, descends⟩ (by omega)
          · obtain ⟨_, _, inRight, aroundRight⟩ := @Balanced.descend _ right left _ _ _ .right _ _
              balanced around
            have below : Linked heap root_ (right.plug (.under .right address value left context)) :=
              linked
            rw [if_neg less]
            exact ih below inRight aroundRight ⟨(if_neg less).symm, descends⟩ (by omega)

/-- The tree is a red-black tree of the keys. -/
structure Holds (tree : RbTree T) (shape : LinkedTree (T × Color)) (keys : List T) : Prop where
  linked : Linked tree.heap tree.root_ shape
  balanced : ∃ total, Balanced shape .black total
  keys : (keysOf shape).Perm keys

theorem insert_empty (empty : tree.root_ = none) (key : T) :
    ∃ next, tree.insert key = .ok next ∧
      Linked next.heap next.root_ (.node tree.heap.fresh (key, .black) .nil .nil) := by
  have leafLive : (tree.heap.alloc ({ key } : RbNode T)).get tree.heap.fresh = some { key } :=
    Heap.get_alloc_fresh
  let parented := (tree.heap.alloc ({ key } : RbNode T)).set tree.heap.fresh { key }
  have parentedLive : parented.get tree.heap.fresh = some { key } :=
    Heap.get_set_self (Heap.lt_fresh_of_get leafLive)
  refine ⟨{ heap := parented.set tree.heap.fresh { key, color := .black }, root_ := some tree.heap.fresh },
    ?_, ⟨rfl, ⟨Heap.get_set_self (Heap.lt_fresh_of_get parentedLive), trivial, trivial⟩, ?_⟩⟩
  · simp only [RbTree.insert, empty, depthBound, findParent, bind, Except.bind,
      modify_of_get _ leafLive, RbNode.setParent]
    rw [modify_of_get _ parentedLive]
    rfl
  · simp

/-- The insertion below a parent links a red leaf there, and balances unless the parent
is the root. -/
theorem insert_under {side : Side} {parent : Addr} {value : T × Color}
    {sibling : LinkedTree (T × Color)} {outer : Context (T × Color)} (key : T)
    (linked : Linked tree.heap tree.root_ (LinkedTree.nil.plug (.under side parent value sibling outer)))
    (searched : findParent key (depthBound (tree.heap.alloc ({ key } : RbNode T)))
      (tree.heap.alloc { key }) none tree.root_ = .ok (some parent))
    (selects : side = if key < value.1 then Side.left else Side.right) :
    ∃ heap, Linked heap tree.root_ ((LinkedTree.node tree.heap.fresh (key, .red) .nil .nil).plug
        (.under side parent value sibling outer)) ∧
      tree.insert key = if outer.above = none then .ok { tree with heap }
        else balancingSubtree { tree with heap } (some tree.heap.fresh) := by
  have leafLive : (tree.heap.alloc ({ key } : RbNode T)).get tree.heap.fresh = some { key } :=
    Heap.get_alloc_fresh
  let parented : RbNode T := { key, parent := some parent }
  let heap₂ := (tree.heap.alloc ({ key } : RbNode T)).set tree.heap.fresh parented
  have kept₂ : ∀ address, address ≠ tree.heap.fresh →
      heap₂.get address = (tree.heap.alloc { key }).get address := fun address different =>
    Heap.get_set_of_ne different
  have parentLive := (linked.alloc { key }).get_parent
  have different : parent ≠ tree.heap.fresh := by
    rintro rfl
    refine linked.fresh_not_mem ?_
    rw [addresses_plug, Context.addresses]
    simp
  have parent₂ := (kept₂ parent different).trans parentLive
  let relinked : RbNode T := cell side value (some tree.heap.fresh) sibling.root outer.above
  have parent₃ : (heap₂.set parent relinked).get parent = some relinked :=
    Heap.get_set_self (Heap.lt_fresh_of_get parent₂)
  refine ⟨heap₂.set parent relinked, ?_, ?_⟩
  · refine (linked.alloc { key }).attach linked.fresh_not_mem ?_ parent₃ ?_
    · rw [Heap.get_set_of_ne (Ne.symm different)]
      exact Heap.get_set_self (Heap.lt_fresh_of_get leafLive)
    · intro address notLeaf notParent
      rw [Heap.get_set_of_ne notParent, kept₂ address notLeaf]
  · have atParent : load heap₂ parent =
        .ok (cell side value none sibling.root outer.above) := load_of_get parent₂
    have relink : modify heap₂ (some parent) (.setChild side (some tree.heap.fresh)) =
        .ok (heap₂.set parent relinked) := by
      rw [modify_of_get _ parent₂, RbNode.setChild_cell]
    simp only [RbTree.insert, bind, Except.bind, searched, modify_of_get _ leafLive, deref_some]
    simp only [RbNode.setParent]
    rw [atParent]
    simp only [RbNode.key_cell, ← selects]
    rw [relink]
    simp only [load_of_get parent₃, relinked, RbNode.parent_cell]
    rfl

omit [LT T] [DecidableLT T] in
theorem keysOf_attach (place : Context (T × Color)) (address : Addr) (key : T) (color : Color) :
    keysOf ((LinkedTree.node address (key, color) .nil .nil).plug place) =
      place.before.map (·.2.1) ++ key :: place.after.map (·.2.1) := by
  have empty : keysOf (LinkedTree.nil : LinkedTree (T × Color)) = [] := rfl
  rw [keysOf_plug, keysOf_node, empty, List.nil_append, List.append_assoc, List.singleton_append]

/-- An insertion puts the key at the place that the search finds, and keeps a red-black tree. -/
theorem insert_places {shape : LinkedTree (T × Color)} {total : Nat}
    (linked : Linked tree.heap tree.root_ shape) (balanced : Balanced shape .black total) (key : T) :
    ∃ place next shape', shape = LinkedTree.nil.plug place ∧ Descends key place ∧
      tree.insert key = .ok next ∧ Linked next.heap next.root_ shape' ∧
      (∃ total, Balanced shape' .black total) ∧
      keysOf shape' = place.before.map (·.2.1) ++ key :: place.after.map (·.2.1) := by
  have allocated : Linked (tree.heap.alloc { key }) tree.root_ (shape.plug .top) := linked.alloc _
  have enough : shape.addresses.card < depthBound (tree.heap.alloc ({ key } : RbNode T)) :=
    Nat.lt_succ_of_le allocated.card_le_fresh
  obtain ⟨place, found, same, around, descends⟩ :=
    findParent_descends key allocated balanced .top trivial enough
  obtain rfl : shape = LinkedTree.nil.plug place := same
  rw [← linked.top, Context.above_top] at found
  have attachedKeys := keysOf_attach place tree.heap.fresh key
  rcases place with _ | ⟨side, parent, value, sibling, outer⟩
  · obtain ⟨next, inserted, nextLinked⟩ := insert_empty linked.top key
    exact ⟨.top, next, _, rfl, descends, inserted, nextLinked, ⟨1, .black .nil .nil⟩, attachedKeys _⟩
  · obtain ⟨heap, attached, inserted⟩ := insert_under key linked found descends.1
    rw [inserted]
    cases outer with
    | top =>
        -- the parent is the root, which is black
        cases around with
        | red _ outside => cases outside
        | black beside outside =>
            exact ⟨_, _, _, rfl, descends, if_pos rfl, attached,
              BalancedAround.plug (.black beside outside) (.red .nil .nil), attachedKeys _⟩
    | under =>
        have rising : Rising { tree with heap } tree.heap.fresh
            (.node tree.heap.fresh (key, .red) .nil .nil) _ 0 :=
          ⟨attached, rfl, .red .nil .nil, around⟩
        obtain ⟨next, shape', total', balancedRun, nextLinked, nextBalanced, nextKeys⟩ :=
          balancingSubtree_balances rising nofun
        exact ⟨_, next, shape', rfl, descends, (if_neg nofun).trans balancedRun, nextLinked, ⟨_, nextBalanced⟩,
          nextKeys.trans (attachedKeys _)⟩

/-- One insertion keeps a red-black tree. -/
theorem insert_holds {shape : LinkedTree (T × Color)} {keys : List T} (holds : Holds tree shape keys)
    (key : T) :
    ∃ next shape', tree.insert key = .ok next ∧ Holds next shape' (keys ++ [key]) := by
  obtain ⟨linked, ⟨total, balanced⟩, permuted⟩ := holds
  obtain ⟨place, next, shape', rfl, _, inserted, nextLinked, nextBalanced, nextKeys⟩ :=
    insert_places linked balanced key
  have empty : keysOf (LinkedTree.nil : LinkedTree (T × Color)) = [] := rfl
  rw [keysOf_plug, empty, List.append_nil] at permuted
  refine ⟨next, shape', inserted, nextLinked, nextBalanced, ?_⟩
  rw [nextKeys]
  exact List.perm_middle.trans ((permuted.cons key).trans (List.perm_append_singleton key keys).symm)

end

end RbTree

end Dsac.Tree

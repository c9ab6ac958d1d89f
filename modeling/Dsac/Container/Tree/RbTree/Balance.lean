import Dsac.Container.Tree.RbTree.Rotation

namespace Dsac.Tree

open Dsac.Library LinkedTree NodeLayout

/-! The red-black invariant, broken at one place while the loop of `BalancingSubtree` runs. -/

variable {T : Type}

/-- The keys of a tree in order. -/
def keysOf (tree : LinkedTree (T × Color)) : List T := tree.values.map Prod.fst

/-- A red-black tree whose root has the color and whose paths have the number of black nodes. -/
inductive Balanced : LinkedTree (T × Color) → Color → Nat → Prop where
  | nil : Balanced .nil .black 0
  | red {address key left right height} (inLeft : Balanced left .black height)
      (inRight : Balanced right .black height) :
      Balanced (.node address (key, .red) left right) .red height
  | black {address key left right leftColor rightColor height}
      (inLeft : Balanced left leftColor height) (inRight : Balanced right rightColor height) :
      Balanced (.node address (key, .black) left right) .black (height + 1)

/-- A context that makes a red-black tree with a black root of every tree with the color
and the number of black nodes. -/
inductive BalancedAround : Context (T × Color) → Color → Nat → Prop where
  | top {height} : BalancedAround .top .black height
  | red {side address key sibling outer height} (beside : Balanced sibling .black height)
      (outside : BalancedAround outer .red height) :
      BalancedAround (.under side address (key, .red) sibling outer) .black height
  | black {side address key sibling outer color siblingColor height}
      (beside : Balanced sibling siblingColor height)
      (outside : BalancedAround outer .black (height + 1)) :
      BalancedAround (.under side address (key, .black) sibling outer) color height

section

variable {tree child sibling : LinkedTree (T × Color)} {context : Context (T × Color)}
  {color childColor siblingColor : Color} {height : Nat} {side : Side} {address : Addr} {key : T}

theorem Balanced.red_join (inChild : Balanced child .black height)
    (inSibling : Balanced sibling .black height) :
    Balanced (join side address (key, .red) child sibling) .red height := by
  cases side with
  | left => exact .red inChild inSibling
  | right => exact .red inSibling inChild

theorem Balanced.black_join (inChild : Balanced child childColor height)
    (inSibling : Balanced sibling siblingColor height) :
    Balanced (join side address (key, .black) child sibling) .black (height + 1) := by
  cases side with
  | left => exact .black inChild inSibling
  | right => exact .black inSibling inChild

theorem BalancedAround.plug (around : BalancedAround context color height)
    (balanced : Balanced tree color height) : ∃ total, Balanced (tree.plug context) .black total := by
  induction around generalizing tree with
  | top => exact ⟨_, balanced⟩
  | red beside outside ih => exact ih (balanced.red_join beside)
  | black beside outside ih => exact ih (balanced.black_join beside)

theorem Balanced.red_split (balanced : Balanced tree .red height) (side : Side) :
    ∃ address key child sibling, tree = join side address (key, .red) child sibling ∧
      Balanced child .black height ∧ Balanced sibling .black height := by
  cases balanced with
  | red inLeft inRight =>
      cases side with
      | left => exact ⟨_, _, _, _, rfl, inLeft, inRight⟩
      | right => exact ⟨_, _, _, _, rfl, inRight, inLeft⟩

/-- The balance of a tree in a context, seen from a child of its root. -/
theorem Balanced.descend {value : T × Color}
    (balanced : Balanced (join side address value child sibling) color height)
    (around : BalancedAround context color height) :
    ∃ childColor childHeight, Balanced child childColor childHeight ∧
      BalancedAround (.under side address value sibling context) childColor childHeight := by
  cases side <;> cases balanced with
  | red inLeft inRight =>
      first
      | exact ⟨_, _, inLeft, .red inRight around⟩
      | exact ⟨_, _, inRight, .red inLeft around⟩
  | black inLeft inRight =>
      first
      | exact ⟨_, _, inLeft, .black inRight around⟩
      | exact ⟨_, _, inRight, .black inLeft around⟩

/-- The root of a red-black tree may be painted black. -/
theorem Balanced.paint {value : T × Color} {left right : LinkedTree (T × Color)}
    (balanced : Balanced (.node address value left right) color height) :
    Balanced (.node address (value.1, .black) left right) .black
      (if color = .red then height + 1 else height) := by
  cases balanced with
  | red inLeft inRight => exact .black inLeft inRight
  | black inLeft inRight => exact .black inLeft inRight

@[simp] theorem keysOf_node (address : Addr) (value : T × Color)
    (left right : LinkedTree (T × Color)) :
    keysOf (.node address value left right) = keysOf left ++ value.1 :: keysOf right := by
  simp [keysOf, values, inorder]

theorem keysOf_join (side : Side) (address : Addr) (value : T × Color)
    (child sibling : LinkedTree (T × Color)) :
    keysOf (join side address value child sibling) =
      match side with
      | .left => keysOf child ++ value.1 :: keysOf sibling
      | .right => keysOf sibling ++ value.1 :: keysOf child := by
  cases side <;> exact keysOf_node ..

theorem keysOf_plug (tree : LinkedTree (T × Color)) (context : Context (T × Color)) :
    keysOf (tree.plug context) =
      context.before.map (·.2.1) ++ keysOf tree ++ context.after.map (·.2.1) := by
  simp [keysOf, values, inorder_plug, Function.comp_def]

theorem keysOf_plug_congr {other : LinkedTree (T × Color)} (same : keysOf tree = keysOf other)
    (context : Context (T × Color)) : keysOf (tree.plug context) = keysOf (other.plug context) := by
  rw [keysOf_plug, keysOf_plug, same]

end

namespace RbTree

variable {heap : Heap (RbNode T)} {root_ : Option Addr} {subtree parent grandparent : Addr}
  {subtreeTree sibling uncle : LinkedTree (T × Color)} {context outer : Context (T × Color)}
  {side parentSide : Side} {parentValue grandparentValue : T × Color}

theorem getParent_linked (linked : Linked heap root_ (subtreeTree.plug context))
    (root : subtreeTree.root = some subtree) : getParent heap (some subtree) = .ok context.above := by
  obtain ⟨value, left, right, live⟩ := linked.get_root root
  simp only [getParent, deref_some, load_of_get live, bind, Except.bind]
  rfl

theorem getGrandparent_linked
    (linked : Linked heap root_ (subtreeTree.plug (.under side parent parentValue sibling outer)))
    (root : subtreeTree.root = some subtree) :
    getGrandparent heap (some subtree) = .ok outer.above := by
  obtain ⟨value, left, right, live⟩ := linked.get_root root
  simp only [getGrandparent, deref_some, load_of_get live, bind, Except.bind, RbNode.parent_node,
    Context.above_under, load_of_get linked.get_parent, RbNode.parent_cell]
  rfl

theorem getUncle_linked
    (linked : Linked heap root_ (subtreeTree.plug
      (.under parentSide parent parentValue sibling
        (.under side grandparent grandparentValue uncle outer))))
    (root : subtreeTree.root = some subtree) :
    getUncle heap (some subtree) = .ok uncle.root := by
  have above : Linked heap root_
      ((join parentSide parent parentValue subtreeTree sibling).plug
        (.under side grandparent grandparentValue uncle outer)) := linked
  have different := above.sibling_root_ne (root_join ..)
  have live := above.get_parent
  rw [root_join] at live
  simp only [getUncle, getGrandparent_linked linked root, getParent_linked linked root, bind,
    Except.bind, Context.above_under, load_of_get live]
  cases side with
  | left => exact congrArg Except.ok (if_pos rfl)
  | right => exact congrArg Except.ok (if_neg (Ne.symm different))

variable {tree : RbTree T} {parentKey grandparentKey uncleKey : T} {uncleAddress : Addr}
  {uncleLeft uncleRight : LinkedTree (T × Color)}

/-- Case 3.1: the parent and the uncle become black, the grandparent red. -/
theorem recolorFamily_linked
    (linked : Linked heap root_ (subtreeTree.plug
      (.under parentSide parent (parentKey, .red) sibling
        (.under side grandparent (grandparentKey, .black)
          (.node uncleAddress (uncleKey, .red) uncleLeft uncleRight) outer))))
    (root : subtreeTree.root = some subtree) :
    ∃ next, recolorFamily heap (some subtree) (some uncleAddress) = .ok next ∧
      next.fresh = heap.fresh ∧
      Linked next root_ ((join side grandparent (grandparentKey, .red)
        (join parentSide parent (parentKey, .black) subtreeTree sibling)
        (.node uncleAddress (uncleKey, .black) uncleLeft uncleRight)).plug outer) := by
  have seen : Linked heap root_
      ((join .left uncleAddress (uncleKey, .red) uncleLeft uncleRight).plug
        (.under side.other grandparent (grandparentKey, .black)
          (join parentSide parent (parentKey, .red) subtreeTree sibling) outer)) := by
    rw [plug_sibling]
    exact linked
  obtain ⟨first, recoloredUncle, firstFresh, linkedFirst⟩ := recolor_linked seen
  have linkedFirst : Linked first root_ (subtreeTree.plug
      (.under parentSide parent (parentKey, .red) sibling
        (.under side grandparent (grandparentKey, .black)
          (.node uncleAddress (uncleKey, .black) uncleLeft uncleRight) outer))) := by
    rw [plug_sibling] at linkedFirst
    exact linkedFirst
  have focus : Linked first root_ ((join parentSide parent (parentKey, .red) subtreeTree sibling).plug
      (.under side grandparent (grandparentKey, .black)
        (.node uncleAddress (uncleKey, .black) uncleLeft uncleRight) outer)) := linkedFirst
  obtain ⟨second, recoloredParent, secondFresh, linkedSecond⟩ := recolor_linked focus
  have linkedSecond : Linked second root_ (subtreeTree.plug
      (.under parentSide parent (parentKey, .black) sibling
        (.under side grandparent (grandparentKey, .black)
          (.node uncleAddress (uncleKey, .black) uncleLeft uncleRight) outer))) := linkedSecond
  have focus : Linked second root_ ((join side grandparent (grandparentKey, .black)
      (join parentSide parent (parentKey, .black) subtreeTree sibling)
      (.node uncleAddress (uncleKey, .black) uncleLeft uncleRight)).plug outer) := linkedSecond
  obtain ⟨third, recoloredGrandparent, thirdFresh, linkedThird⟩ := recolor_linked focus
  refine ⟨third, ?_, by rw [thirdFresh, secondFresh, firstFresh], linkedThird⟩
  simp only [recolorFamily, recoloredUncle, bind, Except.bind, getParent_linked linkedFirst root,
    getGrandparent_linked linkedSecond root, Context.above_under, recoloredParent,
    recoloredGrandparent]

/-- Case 3.2.1: the parent becomes black and takes the place of the grandparent, which
becomes red. -/
theorem raiseParent_linked
    (linked : Linked tree.heap tree.root_ (subtreeTree.plug
      (.under side parent (parentKey, .red) sibling
        (.under side grandparent (grandparentKey, .black) uncle outer))))
    (root : subtreeTree.root = some subtree) :
    ∃ next, raiseParent side tree (some subtree) = .ok next ∧
      next.heap.fresh = tree.heap.fresh ∧
      Linked next.heap next.root_ (subtreeTree.plug
        (.under side parent (parentKey, .black)
          (join side grandparent (grandparentKey, .red) sibling uncle) outer)) := by
  have focus : Linked tree.heap tree.root_ ((join side parent (parentKey, .red) subtreeTree sibling).plug
      (.under side grandparent (grandparentKey, .black) uncle outer)) := linked
  obtain ⟨first, recoloredParent, firstFresh, linkedFirst⟩ := recolor_linked focus
  have linkedFirst : Linked first tree.root_ (subtreeTree.plug
      (.under side parent (parentKey, .black) sibling
        (.under side grandparent (grandparentKey, .black) uncle outer))) := linkedFirst
  have focus : Linked first tree.root_ ((join side grandparent (grandparentKey, .black)
      (join side parent (parentKey, .black) subtreeTree sibling) uncle).plug outer) := linkedFirst
  obtain ⟨second, recoloredGrandparent, secondFresh, linkedSecond⟩ := recolor_linked focus
  have linkedSecond : Linked second tree.root_ (subtreeTree.plug
      (.under side parent (parentKey, .black) sibling
        (.under side grandparent (grandparentKey, .red) uncle outer))) := linkedSecond
  -- the grandparent turns towards the side of the uncle
  have turned : Linked second tree.root_ ((join side.other.other grandparent (grandparentKey, .red)
      (join side.other parent (parentKey, .black) sibling subtreeTree) uncle).plug outer) := by
    rw [Side.other_other, join_other]
    exact linkedSecond
  obtain ⟨third, rotated, thirdFresh, linkedThird⟩ :=
    smallRotation_linked { tree with heap := second } side.other turned
  refine ⟨third, ?_, by rw [thirdFresh, secondFresh, firstFresh], ?_⟩
  · simp only [raiseParent, getParent_linked linked root, bind, Except.bind, Context.above_under,
      recoloredParent, getGrandparent_linked linkedFirst root, recoloredGrandparent,
      getGrandparent_linked linkedSecond root, rotated]
  · rw [Side.other_other, join_other] at linkedThird
    exact linkedThird

theorem isRed_of_black (balanced : Balanced uncle .black height)
    (represents : Represents heap above uncle) : isRed heap uncle.root = .ok false := by
  cases balanced with
  | nil => rfl
  | black =>
      simp only [LinkedTree.root, isRed, load_of_get represents.1, bind, Except.bind]
      rfl

/-- The loop invariant: only the root of the subtree may be a red child of a red node. -/
structure Rising (tree : RbTree T) (subtree : Addr) (low : LinkedTree (T × Color))
    (context : Context (T × Color)) (height : Nat) : Prop where
  linked : Linked tree.heap tree.root_ (low.plug context)
  root : low.root = some subtree
  balanced : Balanced low .red height
  around : BalancedAround context .black height

/-- A turn of the loop leaves less above the subtree. -/
structure Risen (tree : RbTree T) (low : LinkedTree (T × Color)) (context : Context (T × Color))
    (next : RbTree T) (nextSubtree : Addr) : Prop where
  rises : ∃ nextLow nextContext nextHeight, Rising next nextSubtree nextLow nextContext nextHeight ∧
    nextContext.depth < context.depth ∧ keysOf (nextLow.plug nextContext) = keysOf (low.plug context)
  fresh : next.heap.fresh = tree.heap.fresh

variable {low : LinkedTree (T × Color)} {height : Nat}

/-- The turn in case 3.1. -/
theorem balanceBelow_recolors
    (rising : Rising tree subtree low (.under parentSide parent (parentKey, .red) sibling
      (.under side grandparent (grandparentKey, .black)
        (.node uncleAddress (uncleKey, .red) uncleLeft uncleRight) outer)) height) :
    ∃ next nextSubtree, balanceBelow side tree (some subtree) = .ok (next, some nextSubtree) ∧
      Risen tree low (.under parentSide parent (parentKey, .red) sibling
        (.under side grandparent (grandparentKey, .black)
          (.node uncleAddress (uncleKey, .red) uncleLeft uncleRight) outer)) next nextSubtree := by
  obtain ⟨linked, root, balanced, around⟩ := rising
  cases around with
  | red beside outside =>
  cases outside with
  | black uncleBalanced above =>
  cases uncleBalanced with
  | red inLeft inRight =>
  obtain ⟨heap, recolored, fresh, recoloredLinked⟩ := recolorFamily_linked linked root
  have lower : Linked heap tree.root_ (low.plug (.under parentSide parent (parentKey, .black) sibling
      (.under side grandparent (grandparentKey, .red)
        (.node uncleAddress (uncleKey, .black) uncleLeft uncleRight) outer))) := recoloredLinked
  refine ⟨{ tree with heap }, grandparent, ?_, ⟨_, outer, height + 1,
    ⟨recoloredLinked, root_join .., ?_, above⟩, ?_, ?_⟩, fresh⟩
  · have uncleRed : isRed tree.heap (some uncleAddress) = .ok true := by
      simp only [isRed, load_of_get linked.encloses.2.2.2.1.1, bind, Except.bind]
      rfl
    simp only [balanceBelow, getUncle_linked linked root, LinkedTree.root, bind, Except.bind, uncleRed,
      if_true, recolored, getGrandparent_linked lower root, Context.above_under, pure, Except.pure]
  · exact .red_join (.black_join balanced beside) (.black inLeft inRight)
  · exact Nat.lt_succ_of_lt (Nat.lt_succ_self _)
  · exact keysOf_plug_congr (by simp only [keysOf_join, keysOf_node]) outer

/-- The turn in case 3.2, which is the last one. -/
theorem balanceBelow_rotates
    (rising : Rising tree subtree low (.under parentSide parent (parentKey, .red) sibling
      (.under side grandparent (grandparentKey, .black) uncle outer)) height)
    (uncleBlack : Balanced uncle .black height) :
    ∃ next nextSubtree, balanceBelow side tree (some subtree) = .ok (next, some nextSubtree) ∧
      Risen tree low (.under parentSide parent (parentKey, .red) sibling
        (.under side grandparent (grandparentKey, .black) uncle outer)) next nextSubtree := by
  obtain ⟨linked, root, balanced, around⟩ := rising
  cases around with
  | red beside outside =>
  cases outside with
  | black _ above =>
  have inUncle : Represents tree.heap (some grandparent) uncle := linked.encloses.2.2.2.1
  have liveParent := linked.get_parent
  rw [root] at liveParent
  by_cases same : parentSide = side
  · subst same
    obtain ⟨next, raised, fresh, raisedLinked⟩ := raiseParent_linked linked root
    refine ⟨next, subtree, ?_, ⟨low, _, height, ⟨raisedLinked, root, balanced, ?_⟩, ?_, ?_⟩, fresh⟩
    · have outside : some subtree ≠ sibling.root := Ne.symm (linked.sibling_root_ne root)
      simp only [balanceBelow, getUncle_linked linked root, isRed_of_black uncleBlack inUncle, bind,
        Except.bind, Bool.false_eq_true, if_false, getParent_linked linked root, Context.above_under,
        deref_some, load_of_get liveParent, RbNode.child_other_cell, if_neg outside, raised, pure,
        Except.pure]
    · exact .black (.red_join beside uncleBlack) above
    · exact Nat.lt_succ_self _
    · refine keysOf_plug_congr ?_ outer
      cases parentSide <;> simp [keysOf_join]
  · obtain rfl := Side.eq_other_of_ne same
    obtain ⟨address, key, inner, far, rfl, inInner, inFar⟩ := balanced.red_split side
    rw [root_join] at root
    cases root
    obtain ⟨turned, rotated, turnedFresh, turnedLinked⟩ := smallRotation_linked tree side linked
    have lower : Linked turned.heap turned.root_
        ((join side.other parent (parentKey, .red) inner sibling).plug
          (.under side subtree (key, .red) far
            (.under side grandparent (grandparentKey, .black) uncle outer))) := turnedLinked
    obtain ⟨next, raised, fresh, raisedLinked⟩ := raiseParent_linked lower (root_join ..)
    refine ⟨next, parent, ?_, ⟨_, _, height, ⟨raisedLinked, root_join .., ?_, ?_⟩, ?_, ?_⟩,
      fresh.trans turnedFresh⟩
    · simp only [balanceBelow, getUncle_linked linked (root_join ..), isRed_of_black uncleBlack inUncle,
        bind, Except.bind, Bool.false_eq_true, if_false, getParent_linked linked (root_join ..),
        Context.above_under, deref_some, load_of_get liveParent, RbNode.child_cell, if_true, rotated,
        raised, pure, Except.pure]
    · exact .red_join inInner beside
    · exact .black (.red_join inFar uncleBlack) above
    · exact Nat.lt_succ_self _
    · refine keysOf_plug_congr ?_ outer
      cases side <;> simp [keysOf_join, Side.other]

end RbTree

end Dsac.Tree

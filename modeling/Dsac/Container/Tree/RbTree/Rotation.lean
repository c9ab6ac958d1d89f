import Dsac.Container.Tree.RbTree

namespace Dsac.Tree

open Dsac.Library LinkedTree NodeLayout

/-! The writes of the red-black tree as operations on linked trees. -/

variable {T : Type}

/-- A node of the tree holds a key and a color. -/
instance : NodeLayout (RbNode T) (T × Color) where
  node value left right parent := { key := value.1, left, right, parent, color := value.2 }

def Color.flip : Color → Color
  | .red => .black
  | .black => .red

namespace RbNode

variable {side : Side} {value : T × Color} {first second parent : Option Addr}

@[simp] theorem left_node : (node value first second parent : RbNode T).left = first := rfl

@[simp] theorem right_node : (node value first second parent : RbNode T).right = second := rfl

@[simp] theorem parent_node : (node value first second parent : RbNode T).parent = parent := rfl

@[simp] theorem child_cell :
    (cell side value first second parent : RbNode T).child side = first := by
  cases side <;> rfl

@[simp] theorem child_other_cell :
    (cell side value first second parent : RbNode T).child side.other = second := by
  cases side <;> rfl

@[simp] theorem parent_cell : (cell side value first second parent : RbNode T).parent = parent := by
  cases side <;> rfl

@[simp] theorem setChild_cell (child : Option Addr) :
    (cell side value first second parent : RbNode T).setChild side child =
      cell side value child second parent := by
  cases side <;> rfl

@[simp] theorem setChild_other_cell (child : Option Addr) :
    (cell side value first second parent : RbNode T).setChild side.other child =
      cell side value first child parent := by
  cases side <;> rfl

@[simp] theorem setParent_cell (newParent : Option Addr) :
    (cell side value first second parent : RbNode T).setParent newParent =
      cell side value first second newParent := by
  cases side <;> rfl

@[simp] theorem key_cell : (cell side value first second parent : RbNode T).key = value.1 := by
  cases side <;> rfl

@[simp] theorem isColor_cell (color : Color) :
    (cell side value first second parent : RbNode T).isColor color = (value.2 == color) := by
  cases side <;> rfl

theorem recolor_cell (key : T) (color : Color) :
    (cell side (key, color) first second parent : RbNode T).recolor =
      cell side (key, color.flip) first second parent := by
  cases side <;> cases color <;> rfl

theorem cell_other :
    (cell side.other value first second parent : RbNode T) = cell side value second first parent := by
  cases side <;> rfl

end RbNode

namespace RbTree

variable {heap : Heap (RbNode T)} {parent : Option Addr} {tree : RbTree T}

theorem adopt_represents {subtree : LinkedTree (T × Color)}
    (represents : Represents heap parent subtree) (distinct : subtree.addresses.Nodup)
    (newParent : Option Addr) :
    ∃ next, adopt heap subtree.root newParent = .ok next ∧ Represents next newParent subtree ∧
      (∀ address, address ∉ subtree.addresses → next.get address = heap.get address) ∧
      next.fresh = heap.fresh := by
  cases subtree with
  | nil => exact ⟨heap, rfl, trivial, fun _ _ => rfl, rfl⟩
  | node address value left right =>
      have live := represents.1
      have kept : ∀ other, other ≠ address →
          (heap.set address (node value left.root right.root newParent)).get other = heap.get other :=
        fun other different => Heap.get_set_of_ne different
      refine ⟨_, modify_of_get _ live, ?_, ?_, Heap.fresh_set⟩
      · exact represents.reparent distinct (Heap.get_set_self (Heap.lt_fresh_of_get live))
          fun other _ different => kept other different
      · intro other outside
        exact kept other (by rintro rfl; exact outside (mem_addresses_of_root rfl))

theorem replaceChild_links (tree : RbTree T) (side : Side) (heavy : Addr) {subtree : Addr}
    {context : Context (T × Color)}
    (encloses : Encloses tree.heap (some subtree) context) (outside : subtree ∉ context.addresses)
    (top : tree.root_ = context.rootOver (some subtree)) :
    ∃ next, replaceChild side tree context.above (some subtree) (some heavy) = .ok next ∧
      LinksTo next.heap (some heavy) context ∧
      (∀ address, context.above ≠ some address → next.heap.get address = tree.heap.get address) ∧
      next.heap.fresh = tree.heap.fresh ∧ next.root_ = context.rootOver (some heavy) := by
  cases context with
  | top => exact ⟨_, rfl, trivial, fun _ _ => rfl, rfl, rfl⟩
  | under linkSide address value sibling outer =>
      have live := encloses.1
      have inside := Heap.lt_fresh_of_get live
      simp only [Context.addresses, Multiset.mem_cons, Multiset.mem_add, not_or] at outside
      -- the comparison finds the side on which the subtree is linked
      have found : (if some subtree =
          (cell linkSide value (some subtree) sibling.root outer.above : RbNode T).child side
          then side else side.other) = linkSide := by
        have different : some subtree ≠ sibling.root := fun same =>
          outside.2.1 (mem_addresses_of_root same.symm)
        by_cases same : side = linkSide
        · rw [same, RbNode.child_cell, if_pos rfl]
        · rw [Side.eq_other_of_ne same, RbNode.child_other_cell, if_neg different, Side.other_other]
      let relinked : RbNode T := cell linkSide value (some heavy) sibling.root outer.above
      refine ⟨{ tree with heap := tree.heap.set address relinked }, ?_, ?_, ?_, ?_, top⟩
      · simp only [replaceChild, Context.above_under, deref_some, load_of_get live, bind, Except.bind,
          found, modify_of_get _ live, RbNode.setChild_cell, pure, Except.pure, relinked]
      · exact Heap.get_set_self inside
      · intro other different
        exact Heap.get_set_of_ne (by rintro rfl; exact different rfl)
      · exact Heap.fresh_set

theorem recolor_linked {side : Side} {root_ : Option Addr} {address : Addr} {key : T}
    {color : Color} {child sibling : LinkedTree (T × Color)} {context : Context (T × Color)}
    (linked : Linked heap root_ ((join side address (key, color) child sibling).plug context)) :
    ∃ next, modify heap (some address) .recolor = .ok next ∧ next.fresh = heap.fresh ∧
      Linked next root_ ((join side address (key, color.flip) child sibling).plug context) := by
  have live := (represents_join.mp linked.represents).1
  refine ⟨_, modify_of_get _ live, Heap.fresh_set, ?_⟩
  rw [RbNode.recolor_cell]
  exact linked.setValue (key, color.flip)

/-- A rotation turns the linked tree below the subtree. -/
theorem smallRotation_linked (tree : RbTree T) (side : Side) {x y : Addr} {xValue yValue : T × Color}
    {inner outer rest : LinkedTree (T × Color)} {context : Context (T × Color)}
    (linked : Linked tree.heap tree.root_
      ((join side.other x xValue (join side y yValue inner outer) rest).plug context)) :
    ∃ next, smallRotation side tree (some x) = .ok next ∧ next.heap.fresh = tree.heap.fresh ∧
      Linked next.heap next.root_
        ((join side y yValue (join side.other x xValue inner rest) outer).plug context) := by
  obtain ⟨liveX, inHeavy, inRest⟩ := represents_join.mp linked.represents
  obtain ⟨liveY, inInner, inOuter⟩ := represents_join.mp inHeavy
  have top := linked.top
  rw [root_plug, root_join] at top
  rw [root_join] at liveX
  obtain ⟨distinct, contextDistinct, apart⟩ := linked.separate
  have encloses := linked.encloses
  rw [root_join] at encloses
  simp only [addresses_join, Multiset.nodup_cons, Multiset.nodup_add, Multiset.mem_cons,
    Multiset.mem_add, not_or, Multiset.cons_add, Multiset.disjoint_cons_left,
    Multiset.disjoint_add_left] at distinct apart
  obtain ⟨⟨xy, ⟨xInner, xOuter⟩, xRest⟩, ⟨⟨yInner, yOuter⟩, yRest⟩, ⟨innerDistinct, _, innerOuter⟩,
    _, innerRest, _⟩ := distinct
  obtain ⟨xContext, yContext, ⟨innerContext, outerContext⟩, restContext⟩ := apart
  have xAbove : context.above ≠ some x := fun same => xContext (Context.mem_addresses_of_above same)
  have yAbove : context.above ≠ some y := fun same => yContext (Context.mem_addresses_of_above same)
  rw [RbNode.cell_other] at liveX
  -- `x` takes the inner subtree
  let heap₁ := tree.heap.set x (cell side xValue rest.root inner.root context.above)
  have kept₁ : ∀ a, a ≠ x → heap₁.get a = tree.heap.get a := fun a different =>
    Heap.get_set_of_ne different
  have x₁ : heap₁.get x = some (cell side xValue rest.root inner.root context.above) :=
    Heap.get_set_self (Heap.lt_fresh_of_get liveX)
  obtain ⟨heap₂, adopted, inner₂, kept₂, fresh₂⟩ := adopt_represents
    (inInner.frame fun a member => kept₁ a (by rintro rfl; exact xInner member)) innerDistinct (some x)
  have x₂ := (kept₂ x xInner).trans x₁
  have y₂ := ((kept₂ y yInner).trans (kept₁ y (Ne.symm xy))).trans liveY
  -- `y` takes the parent of `x`, and the link from there
  let heap₃ := heap₂.set y (cell side yValue inner.root outer.root context.above)
  have kept₃ : ∀ a, a ≠ y → heap₃.get a = heap₂.get a := fun a different =>
    Heap.get_set_of_ne different
  have y₃ : heap₃.get y = some (cell side yValue inner.root outer.root context.above) :=
    Heap.get_set_self (Heap.lt_fresh_of_get y₂)
  have encloses₃ : Encloses heap₃ (some x) context := encloses.frame fun a member => by
    rw [kept₃ a (by rintro rfl; exact yContext member),
      kept₂ a (fun inside => Multiset.disjoint_left.mp innerContext inside member),
      kept₁ a (by rintro rfl; exact xContext member)]
  obtain ⟨tree₄, replaced, links₄, kept₄, fresh₄, top₄⟩ :=
    replaceChild_links { tree with heap := heap₃ } side y encloses₃ xContext top
  have x₄ := ((kept₄ x xAbove).trans (kept₃ x xy)).trans x₂
  have y₄ := (kept₄ y yAbove).trans y₃
  -- the two nodes are linked to each other
  let heap₅ := tree₄.heap.set y (cell side yValue (some x) outer.root context.above)
  have kept₅ : ∀ a, a ≠ y → heap₅.get a = tree₄.heap.get a := fun a different =>
    Heap.get_set_of_ne different
  have x₅ := (kept₅ x xy).trans x₄
  let heap₆ := heap₅.set x (cell side xValue rest.root inner.root (some y))
  have kept₆ : ∀ a, a ≠ x → heap₆.get a = heap₅.get a := fun a different =>
    Heap.get_set_of_ne different
  have x₆ : heap₆.get x = some (cell side xValue rest.root inner.root (some y)) :=
    Heap.get_set_self (Heap.lt_fresh_of_get x₅)
  have y₆ : heap₆.get y = some (cell side yValue (some x) outer.root context.above) :=
    (kept₆ y (Ne.symm xy)).trans (Heap.get_set_self (Heap.lt_fresh_of_get y₄))
  have laterKept : ∀ a, a ≠ x → a ≠ y → context.above ≠ some a → heap₆.get a = heap₂.get a :=
    fun a notX notY notAbove =>
      (kept₆ a notX).trans ((kept₅ a notY).trans ((kept₄ a notAbove).trans (kept₃ a notY)))
  have kept : ∀ a, a ≠ x → a ≠ y → a ∉ inner.addresses → context.above ≠ some a →
      heap₆.get a = tree.heap.get a := fun a notX notY notInner notAbove =>
    (laterKept a notX notY notAbove).trans ((kept₂ a notInner).trans (kept₁ a notX))
  have notAbove : ∀ {subtree : LinkedTree (T × Color)}, Disjoint subtree.addresses context.addresses →
      ∀ a ∈ subtree.addresses, context.above ≠ some a := fun disjoint a member same =>
    Multiset.disjoint_left.mp disjoint member (Context.mem_addresses_of_above same)
  refine ⟨{ heap := heap₆, root_ := tree₄.root_ }, ?_, ?_, linked.replace ?_ ?_ ?_ ?_ ?_⟩
  · have parent : getParent heap₂ (some x) = .ok context.above := by
      simp only [getParent, deref_some, load_of_get x₂, bind, Except.bind, RbNode.parent_cell]
      rfl
    simp only [smallRotation, deref_some, load_of_get liveX, load_of_get liveY, bind, Except.bind,
      RbNode.child_other_cell, RbNode.child_cell, modify_of_get _ liveX, RbNode.setChild_other_cell,
      adopted, parent, modify_of_get _ y₂, RbNode.setParent_cell, replaced,
      modify_of_get _ y₄, RbNode.setChild_cell, modify_of_get _ x₅, pure, Except.pure, heap₆, heap₅,
      heap₃, heap₁]
  · simp only [heap₆, heap₅, Heap.fresh_set, fresh₄, heap₃, fresh₂, heap₁]
  · refine represents_join.mpr ⟨?_, represents_join.mpr ⟨?_, ?_, ?_⟩, ?_⟩
    · rw [root_join, y₆]
    · rw [x₆, RbNode.cell_other]
    · exact inner₂.frame fun a member => laterKept a (by rintro rfl; exact xInner member)
        (by rintro rfl; exact yInner member) (notAbove innerContext a member)
    · exact inRest.frame fun a member => kept a (by rintro rfl; exact xRest member)
        (by rintro rfl; exact yRest member)
        (fun inside => Multiset.disjoint_left.mp innerRest inside member)
        (notAbove restContext a member)
    · exact inOuter.frame fun a member => kept a (by rintro rfl; exact xOuter member)
        (by rintro rfl; exact yOuter member)
        (fun inside => Multiset.disjoint_left.mp innerOuter inside member)
        (notAbove outerContext a member)
  · rw [root_join]
    refine links₄.frame fun a parent => ?_
    have member := Context.mem_addresses_of_above parent
    exact (kept₆ a (by rintro rfl; exact xContext member)).trans
      (kept₅ a (by rintro rfl; exact yContext member))
  · have distinct := linked.distinct
    rw [addresses_plug] at distinct
    convert distinct using 1
    simp only [addresses_join, ← Multiset.singleton_add]
    abel
  · exact fun a member notParent => kept a (by rintro rfl; exact xContext member)
      (by rintro rfl; exact yContext member)
      (fun inside => Multiset.disjoint_left.mp innerContext inside member) notParent
  · rw [root_plug, root_join]
    exact top₄

end RbTree

end Dsac.Tree

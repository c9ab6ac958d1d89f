import Dsac.Library.Heap

namespace Dsac.Library

/-! Binary trees whose nodes live in a heap and link to their children and to their
parent. A tree is described from above by its shape with the addresses of its nodes,
and a place in it by the subtree there and the context around that subtree. -/

inductive Side where
  | left
  | right
deriving DecidableEq, Repr

namespace Side

def other : Side → Side
  | left => right
  | right => left

@[simp] theorem other_other (side : Side) : side.other.other = side := by cases side <;> rfl

theorem eq_other_of_ne {side opposite : Side} (different : opposite ≠ side) : opposite = side.other := by
  revert different
  cases side <;> cases opposite <;> decide

end Side

/-- A type of nodes, given by the way in which a node is made of a value and three links. -/
class NodeLayout (ν : Type) (α : outParam Type) where
  node (value : α) (left right parent : Option Addr) : ν

/-- A node by the child at one side and the child at the other. -/
def NodeLayout.cell {ν α : Type} [NodeLayout ν α] (side : Side) (value : α)
    (child sibling parent : Option Addr) : ν :=
  match side with
  | .left => node value child sibling parent
  | .right => node value sibling child parent

inductive LinkedTree (α : Type) where
  | nil
  | node (address : Addr) (value : α) (left right : LinkedTree α)
deriving DecidableEq, Repr

/-- The context of a subtree: the nodes above it, each with the side on which the
subtree lies and with the subtree on the other side. -/
inductive Context (α : Type) where
  | top
  | under (side : Side) (address : Addr) (value : α) (sibling : LinkedTree α) (outer : Context α)
deriving DecidableEq, Repr

variable {ν α : Type} {heap next : Heap ν} {parent : Option Addr}

namespace LinkedTree

def root : LinkedTree α → Option Addr
  | nil => none
  | node address _ _ _ => some address

/-- The nodes in order, each with its value. -/
def inorder : LinkedTree α → List (Addr × α)
  | nil => []
  | node address value left right => left.inorder ++ (address, value) :: right.inorder

def values (tree : LinkedTree α) : List α := tree.inorder.map Prod.snd

def addresses (tree : LinkedTree α) : Multiset Addr := (tree.inorder.map Prod.fst : List Addr)

/-- A node by the subtree at one side and the subtree at the other. -/
def join (side : Side) (address : Addr) (value : α) (child sibling : LinkedTree α) : LinkedTree α :=
  match side with
  | .left => node address value child sibling
  | .right => node address value sibling child

def plug (tree : LinkedTree α) : Context α → LinkedTree α
  | .top => tree
  | .under side address value sibling outer => plug (join side address value tree sibling) outer

theorem root_node (address : Addr) (value : α) (left right : LinkedTree α) :
    (node address value left right).root = some address := rfl

@[simp] theorem root_join (side : Side) (address : Addr) (value : α) (child sibling : LinkedTree α) :
    (join side address value child sibling).root = some address := by
  cases side <;> rfl

theorem join_other (side : Side) (address : Addr) (value : α) (child sibling : LinkedTree α) :
    join side.other address value child sibling = join side address value sibling child := by
  cases side <;> rfl

/-- A tree seen from either child of a node. -/
theorem plug_sibling (side : Side) (address : Addr) (value : α) (child sibling : LinkedTree α)
    (outer : Context α) :
    sibling.plug (.under side.other address value child outer) =
      child.plug (.under side address value sibling outer) := by
  rw [plug, plug, join_other]

@[simp] theorem addresses_nil : (nil : LinkedTree α).addresses = 0 := rfl

@[simp] theorem addresses_node (address : Addr) (value : α) (left right : LinkedTree α) :
    (node address value left right).addresses =
      address ::ₘ (left.addresses + right.addresses) := by
  simp only [addresses, inorder, List.map_append, List.map_cons, Multiset.cons_coe,
    Multiset.coe_add]
  exact Multiset.coe_eq_coe.mpr List.perm_middle

@[simp] theorem addresses_join (side : Side) (address : Addr) (value : α)
    (child sibling : LinkedTree α) :
    (join side address value child sibling).addresses =
      address ::ₘ (child.addresses + sibling.addresses) := by
  cases side with
  | left => exact addresses_node ..
  | right => rw [join, addresses_node, add_comm]

theorem mem_addresses_of_root {tree : LinkedTree α} {address : Addr}
    (top : tree.root = some address) : address ∈ tree.addresses := by
  cases tree with
  | nil => cases top
  | node _ value left right =>
      cases top
      simp

end LinkedTree

namespace Context

def addresses : Context α → Multiset Addr
  | top => 0
  | under _ address _ sibling outer => address ::ₘ (sibling.addresses + outer.addresses)

/-- The parent of the subtree in the context. -/
def above : Context α → Option Addr
  | top => none
  | under _ address _ _ _ => some address

@[simp] theorem above_top : (top : Context α).above = none := rfl

@[simp] theorem above_under (side : Side) (address : Addr) (value : α) (sibling : LinkedTree α)
    (outer : Context α) : (under side address value sibling outer).above = some address := rfl

/-- The root of the tree with a subtree of root `hole` in the context. -/
def rootOver (hole : Option Addr) : Context α → Option Addr
  | top => hole
  | under _ address _ _ outer => outer.rootOver (some address)

/-- The number of nodes above the subtree. -/
def depth : Context α → Nat
  | top => 0
  | under _ _ _ _ outer => outer.depth + 1

/-- The nodes that come before the subtree in order. -/
def before : Context α → List (Addr × α)
  | top => []
  | under .left _ _ _ outer => outer.before
  | under .right address value sibling outer =>
      outer.before ++ sibling.inorder ++ [(address, value)]

/-- The nodes that come after the subtree in order. -/
def after : Context α → List (Addr × α)
  | top => []
  | under .left address value sibling outer =>
      (address, value) :: sibling.inorder ++ outer.after
  | under .right _ _ _ outer => outer.after

theorem depth_le_card (context : Context α) : context.depth ≤ context.addresses.card := by
  induction context with
  | top => exact Nat.le_refl _
  | under side address value sibling outer ih =>
      simp only [depth, addresses, Multiset.card_cons, Multiset.card_add]
      omega

theorem mem_addresses_of_above {context : Context α} {address : Addr}
    (parent : context.above = some address) : address ∈ context.addresses := by
  cases context with
  | top => cases parent
  | under side _ value sibling outer =>
      cases parent
      exact Multiset.mem_cons_self _ _

theorem mem_addresses_of_rootOver {context : Context α} {hole : Option Addr} {address : Addr}
    (under : context ≠ top) (root : context.rootOver hole = some address) :
    address ∈ context.addresses := by
  induction context generalizing hole with
  | top => exact absurd rfl under
  | under side other value sibling outer ih =>
      cases outer with
      | top =>
          cases root
          exact Multiset.mem_cons_self _ _
      | under =>
          have member := @ih (some other) nofun root
          simp only [addresses, Multiset.mem_cons, Multiset.mem_add] at member ⊢
          exact Or.inr (Or.inr member)

end Context

namespace LinkedTree

theorem inorder_plug (tree : LinkedTree α) (context : Context α) :
    (tree.plug context).inorder = context.before ++ tree.inorder ++ context.after := by
  induction context generalizing tree with
  | top => simp [plug, Context.before, Context.after]
  | under side address value sibling outer ih =>
      cases side <;> simp [plug, ih, join, inorder, Context.before, Context.after]

@[simp] theorem values_nil : (nil : LinkedTree α).values = [] := rfl

@[simp] theorem values_node (address : Addr) (value : α) (left right : LinkedTree α) :
    (node address value left right).values = left.values ++ value :: right.values := by
  simp [values, inorder]

theorem values_plug (tree : LinkedTree α) (context : Context α) :
    (tree.plug context).values =
      context.before.map Prod.snd ++ tree.values ++ context.after.map Prod.snd := by
  simp [values, inorder_plug]

theorem addresses_plug (tree : LinkedTree α) (context : Context α) :
    (tree.plug context).addresses = tree.addresses + context.addresses := by
  induction context generalizing tree with
  | top => simp [plug, Context.addresses]
  | under side address value sibling outer ih =>
      simp only [plug, ih, addresses_join, Context.addresses, Multiset.cons_add, Multiset.add_cons,
        add_assoc]

theorem root_plug (tree : LinkedTree α) (context : Context α) :
    (tree.plug context).root = context.rootOver tree.root := by
  induction context generalizing tree with
  | top => rfl
  | under side address value sibling outer ih =>
      simp only [plug, ih, root_join, Context.rootOver]

end LinkedTree

variable [NodeLayout ν α]

open LinkedTree NodeLayout

/-- The heap holds the tree, with `parent` as the parent of its root. -/
def Represents (heap : Heap ν) : Option Addr → LinkedTree α → Prop
  | _, .nil => True
  | parent, .node address value left right =>
      heap.get address = some (node value left.root right.root parent) ∧
        Represents heap (some address) left ∧ Represents heap (some address) right

/-- The heap holds the tree, whatever the links to the parents are. -/
def Hangs (heap : Heap ν) : LinkedTree α → Prop
  | .nil => True
  | .node address value left right =>
      (∃ parent, heap.get address = some (node value left.root right.root parent)) ∧
        Hangs heap left ∧ Hangs heap right

/-- The heap holds the context, with `hole` as the root of the subtree in it. -/
def Encloses (heap : Heap ν) (hole : Option Addr) : Context α → Prop
  | .top => True
  | .under side address value sibling outer =>
      heap.get address = some (cell side value hole sibling.root outer.above) ∧
        Represents heap (some address) sibling ∧ Encloses heap (some address) outer

/-- The link to the subtree in the context is `hole`. -/
def LinksTo (heap : Heap ν) (hole : Option Addr) : Context α → Prop
  | .top => True
  | .under side address value sibling outer =>
      heap.get address = some (cell side value hole sibling.root outer.above)

/-- The links from `root_` form the tree, whose nodes link back to their parents. -/
structure Linked (heap : Heap ν) (root_ : Option Addr) (tree : LinkedTree α) : Prop where
  top : root_ = tree.root
  nodes : Represents heap none tree
  distinct : tree.addresses.Nodup

theorem represents_join {side : Side} {address : Addr} {value : α} {child sibling : LinkedTree α} :
    Represents heap parent (join side address value child sibling) ↔
      heap.get address = some (cell side value child.root sibling.root parent) ∧
        Represents heap (some address) child ∧ Represents heap (some address) sibling := by
  cases side with
  | left => exact Iff.rfl
  | right => exact and_congr_right fun _ => and_comm

theorem represents_plug {tree : LinkedTree α} {context : Context α} :
    Represents heap none (tree.plug context) ↔
      Represents heap context.above tree ∧ Encloses heap tree.root context := by
  induction context generalizing tree with
  | top => simp [plug, Encloses, Context.above]
  | under side address value sibling outer ih =>
      simp only [plug, ih, represents_join, root_join, Encloses, Context.above]
      tauto

/-- A tree is kept by a heap that agrees on its nodes. -/
theorem Represents.frame {tree : LinkedTree α} (represents : Represents heap parent tree)
    (agree : ∀ address ∈ tree.addresses, next.get address = heap.get address) :
    Represents next parent tree := by
  induction tree generalizing parent with
  | nil => trivial
  | node address value left right leftIH rightIH =>
      simp only [addresses_node, Multiset.mem_cons, Multiset.mem_add] at agree
      obtain ⟨live, inLeft, inRight⟩ := represents
      refine ⟨?_, leftIH inLeft ?_, rightIH inRight ?_⟩
      · rw [agree address (Or.inl rfl), live]
      · exact fun other member => agree other (Or.inr (Or.inl member))
      · exact fun other member => agree other (Or.inr (Or.inr member))

theorem Represents.hangs {tree : LinkedTree α} (represents : Represents heap parent tree) :
    Hangs heap tree := by
  induction tree generalizing parent with
  | nil => trivial
  | node address value left right leftIH rightIH =>
      exact ⟨⟨parent, represents.1⟩, leftIH represents.2.1, rightIH represents.2.2⟩

theorem Hangs.frame {tree : LinkedTree α} (hangs : Hangs heap tree)
    (agree : ∀ address ∈ tree.addresses, next.get address = heap.get address) : Hangs next tree := by
  induction tree with
  | nil => trivial
  | node address value left right leftIH rightIH =>
      simp only [addresses_node, Multiset.mem_cons, Multiset.mem_add] at agree
      obtain ⟨⟨parent, live⟩, inLeft, inRight⟩ := hangs
      refine ⟨⟨parent, ?_⟩, leftIH inLeft ?_, rightIH inRight ?_⟩
      · rw [agree address (Or.inl rfl), live]
      · exact fun other member => agree other (Or.inr (Or.inl member))
      · exact fun other member => agree other (Or.inr (Or.inr member))

theorem Encloses.frame {context : Context α} {hole : Option Addr}
    (encloses : Encloses heap hole context)
    (agree : ∀ address ∈ context.addresses, next.get address = heap.get address) :
    Encloses next hole context := by
  induction context generalizing hole with
  | top => trivial
  | under side address value sibling outer ih =>
      simp only [Context.addresses, Multiset.mem_cons, Multiset.mem_add] at agree
      obtain ⟨live, beside, outside⟩ := encloses
      refine ⟨?_, beside.frame ?_, ih outside ?_⟩
      · rw [agree _ (Or.inl rfl), live]
      · exact fun other member => agree other (Or.inr (Or.inl member))
      · exact fun other member => agree other (Or.inr (Or.inr member))

theorem LinksTo.frame {context : Context α} {hole : Option Addr} (links : LinksTo heap hole context)
    (agree : ∀ address, context.above = some address → next.get address = heap.get address) :
    LinksTo next hole context := by
  cases context with
  | top => trivial
  | under side address value sibling outer => exact (agree address rfl).trans links

/-- A context keeps all but the link to its hole when only that link is written. -/
theorem Encloses.relink {context : Context α} {hole newHole : Option Addr}
    (encloses : Encloses heap hole context) (linked : LinksTo next newHole context)
    (distinct : context.addresses.Nodup)
    (agree : ∀ address ∈ context.addresses, context.above ≠ some address →
      next.get address = heap.get address) :
    Encloses next newHole context := by
  cases context with
  | top => trivial
  | under side address value sibling outer =>
      simp only [Context.addresses, Multiset.nodup_cons, Multiset.mem_add, not_or] at distinct
      simp only [Context.addresses, Multiset.mem_cons, Multiset.mem_add, Context.above] at agree
      obtain ⟨_, beside, outside⟩ := encloses
      obtain ⟨⟨notBeside, notOutside⟩, _⟩ := distinct
      refine ⟨linked, beside.frame ?_, outside.frame ?_⟩
      · rintro other member
        refine agree other (Or.inr (Or.inl member)) ?_
        rintro ⟨rfl⟩
        exact notBeside member
      · rintro other member
        refine agree other (Or.inr (Or.inr member)) ?_
        rintro ⟨rfl⟩
        exact notOutside member

/-- A tree is kept with a new parent when only the parent link of its root is written. -/
theorem Represents.reparent {address : Addr} {value : α} {left right : LinkedTree α}
    {newParent : Option Addr} (represents : Represents heap parent (.node address value left right))
    (distinct : (LinkedTree.node address value left right).addresses.Nodup)
    (live : next.get address = some (node value left.root right.root newParent))
    (agree : ∀ other ∈ (LinkedTree.node address value left right).addresses, other ≠ address →
      next.get other = heap.get other) :
    Represents next newParent (.node address value left right) := by
  simp only [addresses_node, Multiset.nodup_cons, Multiset.mem_add, not_or] at distinct
  simp only [addresses_node, Multiset.mem_cons, Multiset.mem_add] at agree
  obtain ⟨_, inLeft, inRight⟩ := represents
  obtain ⟨⟨notLeft, notRight⟩, _⟩ := distinct
  refine ⟨live, inLeft.frame ?_, inRight.frame ?_⟩
  · exact fun other member => agree other (Or.inr (Or.inl member)) (by rintro rfl; exact notLeft member)
  · exact fun other member => agree other (Or.inr (Or.inr member)) (by rintro rfl; exact notRight member)

theorem Hangs.live_of_mem {tree : LinkedTree α} (hangs : Hangs heap tree) {address : Addr}
    (member : address ∈ tree.addresses) : ∃ node, heap.get address = some node := by
  induction tree with
  | nil => simp at member
  | node top value left right leftIH rightIH =>
      obtain ⟨⟨parent, live⟩, inLeft, inRight⟩ := hangs
      simp only [addresses_node, Multiset.mem_cons, Multiset.mem_add] at member
      rcases member with rfl | member | member
      · exact ⟨_, live⟩
      · exact leftIH inLeft member
      · exact rightIH inRight member

theorem Hangs.card_le_fresh {tree : LinkedTree α} (hangs : Hangs heap tree) (distinct : tree.addresses.Nodup) :
    tree.addresses.card ≤ heap.fresh := by
  have below : tree.addresses ≤ Multiset.range heap.fresh := by
    apply (Multiset.le_iff_subset distinct).mpr
    intro address member
    obtain ⟨node, live⟩ := hangs.live_of_mem member
    exact Multiset.mem_range.mpr (Heap.lt_fresh_of_get live)
  simpa only [Multiset.card_range] using Multiset.card_le_card below

namespace Linked

variable {root_ newRoot : Option Addr} {tree newTree : LinkedTree α} {context : Context α}

theorem represents (linked : Linked heap root_ (tree.plug context)) :
    Represents heap context.above tree :=
  (represents_plug.mp linked.nodes).1

theorem encloses (linked : Linked heap root_ (tree.plug context)) :
    Encloses heap tree.root context :=
  (represents_plug.mp linked.nodes).2

theorem separate (linked : Linked heap root_ (tree.plug context)) :
    tree.addresses.Nodup ∧ context.addresses.Nodup ∧ Disjoint tree.addresses context.addresses := by
  have distinct := linked.distinct
  rwa [addresses_plug, Multiset.nodup_add] at distinct

/-- The root of a subtree links to its parent. -/
theorem get_root {address : Addr} (linked : Linked heap root_ (tree.plug context))
    (root : tree.root = some address) :
    ∃ value left right, heap.get address = some (node value left right context.above) := by
  cases tree with
  | nil => cases root
  | node _ value left right =>
      cases root
      exact ⟨value, left.root, right.root, linked.represents.1⟩

/-- The parent of a subtree links to it. -/
theorem get_parent {side : Side} {above : Addr} {value : α} {sibling : LinkedTree α}
    {outer : Context α} (linked : Linked heap root_ (tree.plug (.under side above value sibling outer))) :
    heap.get above = some (cell side value tree.root sibling.root outer.above) :=
  linked.encloses.1

/-- A node is linked on one side of its parent only. -/
theorem sibling_root_ne {side : Side} {above address : Addr} {value : α} {sibling : LinkedTree α}
    {outer : Context α} (linked : Linked heap root_ (tree.plug (.under side above value sibling outer)))
    (root : tree.root = some address) : sibling.root ≠ some address := by
  intro same
  have apart := linked.separate.2.2
  simp only [Context.addresses, Multiset.disjoint_cons_right, Multiset.disjoint_add_right] at apart
  exact Multiset.disjoint_left.mp apart.2.1 (mem_addresses_of_root root) (mem_addresses_of_root same)

theorem live_of_mem (linked : Linked heap root_ tree) {address : Addr}
    (member : address ∈ tree.addresses) : ∃ node, heap.get address = some node :=
  linked.nodes.hangs.live_of_mem member

theorem fresh_not_mem (linked : Linked heap root_ tree) : heap.fresh ∉ tree.addresses := by
  intro member
  obtain ⟨node, live⟩ := linked.live_of_mem member
  exact Heap.get_ne_fresh live rfl

theorem alloc (linked : Linked heap root_ tree) (added : ν) : Linked (heap.alloc added) root_ tree where
  top := linked.top
  nodes := linked.nodes.frame fun address member =>
    Heap.get_alloc_of_ne (by rintro rfl; exact linked.fresh_not_mem member)
  distinct := linked.distinct

theorem card_le_fresh (linked : Linked heap root_ tree) : tree.addresses.card ≤ heap.fresh :=
  linked.nodes.hangs.card_le_fresh linked.distinct

/-- Another tree may take the place of a subtree, with new nodes or with fewer, when the
link to it is written and the rest of the context is kept. -/
theorem replace (linked : Linked heap root_ (tree.plug context))
    (represents : Represents next context.above newTree)
    (links : LinksTo next newTree.root context)
    (distinct : (newTree.addresses + context.addresses).Nodup)
    (agree : ∀ address ∈ context.addresses, context.above ≠ some address →
      next.get address = heap.get address)
    (top : newRoot = (newTree.plug context).root) :
    Linked next newRoot (newTree.plug context) where
  top := top
  nodes := represents_plug.mpr ⟨represents, linked.encloses.relink links
    (Multiset.nodup_add.mp distinct).2.1 agree⟩
  distinct := by rwa [addresses_plug]

/-- A leaf may be linked where a subtree is empty. -/
theorem attach {added above : Addr} {addedValue value : α} {side : Side} {sibling : LinkedTree α}
    {outer : Context α}
    (linked : Linked heap root_ (LinkedTree.nil.plug (.under side above value sibling outer)))
    (outside : added ∉ (LinkedTree.nil.plug (.under side above value sibling outer)).addresses)
    (leaf : next.get added = some (node addedValue none none (some above)))
    (link : next.get above = some (cell side value (some added) sibling.root outer.above))
    (agree : ∀ address, address ≠ added → address ≠ above → next.get address = heap.get address) :
    Linked next root_ ((LinkedTree.node added addedValue .nil .nil).plug
      (.under side above value sibling outer)) := by
  have distinct := linked.distinct
  rw [addresses_plug, addresses_nil, zero_add] at distinct outside
  refine linked.replace ⟨leaf, trivial, trivial⟩ link ?_ ?_ ?_
  · rw [addresses_node, Multiset.cons_add, Multiset.nodup_cons]
    simpa using ⟨outside, distinct⟩
  · intro address member notParent
    exact agree address (by rintro rfl; exact outside member) (by rintro rfl; exact notParent rfl)
  · rw [linked.top, root_plug, root_plug]
    rfl

/-- A leaf may be unlinked from its parent. -/
theorem detach {removed above : Addr} {removedValue value : α} {side : Side} {sibling : LinkedTree α}
    {outer : Context α}
    (linked : Linked heap root_ ((LinkedTree.node removed removedValue .nil .nil).plug
      (.under side above value sibling outer)))
    (link : next.get above = some (cell side value none sibling.root outer.above))
    (agree : ∀ address, address ≠ removed → address ≠ above → next.get address = heap.get address) :
    Linked next root_ (LinkedTree.nil.plug (.under side above value sibling outer)) := by
  obtain ⟨_, distinct, apart⟩ := linked.separate
  rw [addresses_node, Multiset.disjoint_cons_left] at apart
  refine linked.replace trivial link ?_ ?_ ?_
  · rwa [addresses_nil, zero_add]
  · intro address member notParent
    exact agree address (by rintro rfl; exact apart.1 member) (by rintro rfl; exact notParent rfl)
  · rw [linked.top, root_plug, root_plug]
    rfl

/-- The value of a node may be written in place. -/
theorem setValue {side : Side} {address : Addr} {value : α} {child sibling : LinkedTree α}
    (newValue : α) (linked : Linked heap root_ ((join side address value child sibling).plug context)) :
    Linked (heap.set address (cell side newValue child.root sibling.root context.above)) root_
      ((join side address newValue child sibling).plug context) := by
  obtain ⟨live, inChild, inSibling⟩ := represents_join.mp linked.represents
  obtain ⟨distinct, _, disjoint⟩ := linked.separate
  have encloses := linked.encloses
  rw [root_join] at encloses
  simp only [addresses_join, Multiset.nodup_cons, Multiset.mem_add, not_or,
    Multiset.disjoint_cons_left] at distinct disjoint
  have kept : ∀ other, other ≠ address → (heap.set address
      (cell side newValue child.root sibling.root context.above)).get other = heap.get other :=
    fun other different => Heap.get_set_of_ne different
  refine ⟨?_, represents_plug.mpr ⟨represents_join.mpr ⟨?_, ?_, ?_⟩, ?_⟩, ?_⟩
  · rw [linked.top, root_plug, root_plug, root_join, root_join]
  · exact Heap.get_set_self (Heap.lt_fresh_of_get live)
  · exact inChild.frame fun other member => kept other (by rintro rfl; exact distinct.1.1 member)
  · exact inSibling.frame fun other member => kept other (by rintro rfl; exact distinct.1.2 member)
  · rw [root_join]
    exact encloses.frame fun other member => kept other (by rintro rfl; exact disjoint.1 member)
  · have same := linked.distinct
    rw [addresses_plug] at same ⊢
    simpa only [addresses_join] using same

/-- The root lies above every other node. -/
theorem root_ne_of_under {address : Addr} (linked : Linked heap root_ (tree.plug context))
    (under : context ≠ .top) (inside : address ∈ tree.addresses) : root_ ≠ some address := by
  rw [linked.top, root_plug]
  intro same
  exact Multiset.disjoint_left.mp linked.separate.2.2 inside
    (Context.mem_addresses_of_rootOver under same)

end Linked

end Dsac.Library

import Dsac.Memory
import Dsac.Library.LinkedTree
import Dsac.Library.Run

namespace Dsac.Tree

open Dsac.Library

/-! `dsac::tree::RBTree`. Nodes point to their parents, so they live in a heap. The two
rotations and the two halves of the loop body are mirror images; each pair is one
function of the side that is written `left` in one of them and `right` in the other. -/

inductive Color where
  | red
  | black
deriving DecidableEq, Repr

structure RbNode (T : Type) where
  key : T
  left : Option Addr := none
  right : Option Addr := none
  parent : Option Addr := none
  color : Color := .red
deriving DecidableEq, Repr

variable {T : Type}

namespace RbNode

def child (side : Side) (node : RbNode T) : Option Addr :=
  match side with
  | .left => node.left
  | .right => node.right

def setChild (side : Side) (child : Option Addr) (node : RbNode T) : RbNode T :=
  match side with
  | .left => { node with left := child }
  | .right => { node with right := child }

def setParent (parent : Option Addr) (node : RbNode T) : RbNode T := { node with parent }

def isColor (node : RbNode T) (otherColor : Color) : Bool := node.color == otherColor

def recolor (node : RbNode T) : RbNode T :=
  { node with color := if node.color = .red then .black else .red }

end RbNode

structure RbTree (T : Type) where
  heap : Heap (RbNode T) := {}
  root_ : Option Addr := none
deriving DecidableEq, Repr

namespace RbTree

def getParent (heap : Heap (RbNode T)) (this : Option Addr) : Outcome (Option Addr) := do
  return (← deref heap this).parent

def getGrandparent (heap : Heap (RbNode T)) (this : Option Addr) : Outcome (Option Addr) := do
  match (← deref heap this).parent with
  | none => return none
  | some parent => return (← load heap parent).parent

def getUncle (heap : Heap (RbNode T)) (this : Option Addr) : Outcome (Option Addr) := do
  match ← getGrandparent heap this with
  | none => return none
  | some grandparent =>
      let parent ← getParent heap this
      let grandparent ← load heap grandparent
      return if parent = grandparent.left then grandparent.right else grandparent.left

/-- `if (child != nullptr) child->parent = parent`. -/
def adopt (heap : Heap (RbNode T)) (child parent : Option Addr) : Outcome (Heap (RbNode T)) :=
  match child with
  | none => .ok heap
  | some _ => modify heap child (.setParent parent)

/-- The link to `subtree`, in `root_` or in its parent, is set to `heavy`. -/
def replaceChild (side : Side) (tree : RbTree T) (parent subtree heavy : Option Addr) :
    Outcome (RbTree T) :=
  match parent with
  | none => .ok { tree with root_ := heavy }
  | some _ => do
      let side := if subtree = (← deref tree.heap parent).child side then side else side.other
      return { tree with heap := ← modify tree.heap parent (.setChild side heavy) }

/-- The child of `subtree` on the side other than `side` takes its place. -/
def smallRotation (side : Side) (tree : RbTree T) (subtree : Option Addr) : Outcome (RbTree T) := do
  let heavy := (← deref tree.heap subtree).child side.other
  let inner := (← deref tree.heap heavy).child side
  let heap ← modify tree.heap subtree (.setChild side.other inner)
  let heap ← adopt heap inner subtree
  let parent ← getParent heap subtree
  let heap ← modify heap heavy (.setParent parent)
  let tree ← replaceChild side { tree with heap } parent subtree heavy
  let heap ← modify tree.heap heavy (.setChild side subtree)
  let heap ← modify heap subtree (.setParent heavy)
  return { tree with heap }

def smallLeftRotation (tree : RbTree T) (subtree : Option Addr) : Outcome (RbTree T) :=
  smallRotation .left tree subtree

def smallRightRotation (tree : RbTree T) (subtree : Option Addr) : Outcome (RbTree T) :=
  smallRotation .right tree subtree

/-- `uncle && uncle->IsColor(Color::Red)`. -/
def isRed (heap : Heap (RbNode T)) (uncle : Option Addr) : Outcome Bool :=
  match uncle with
  | none => .ok false
  | some uncle => do return (← load heap uncle).isColor .red

/-- The three recolourings of case 3.1. -/
def recolorFamily (heap : Heap (RbNode T)) (subtree uncle : Option Addr) :
    Outcome (Heap (RbNode T)) := do
  let heap ← modify heap uncle .recolor
  let heap ← modify heap (← getParent heap subtree) .recolor
  modify heap (← getGrandparent heap subtree) .recolor

/-- Case 3.2.1: the parent and the grandparent are recoloured, and the parent moves up. -/
def raiseParent (side : Side) (tree : RbTree T) (subtree : Option Addr) : Outcome (RbTree T) := do
  let heap ← modify tree.heap (← getParent tree.heap subtree) .recolor
  let heap ← modify heap (← getGrandparent heap subtree) .recolor
  smallRotation side.other { tree with heap } (← getGrandparent heap subtree)

/-- The body of the loop for a parent that is the child at `side` of the grandparent.
The result is the tree and the new value of `subtree`. -/
def balanceBelow (side : Side) (tree : RbTree T) (subtree : Option Addr) :
    Outcome (RbTree T × Option Addr) := do
  let uncle ← getUncle tree.heap subtree
  if ← isRed tree.heap uncle then
    let heap ← recolorFamily tree.heap subtree uncle
    return ({ tree with heap }, ← getGrandparent heap subtree)
  else
    let parent ← getParent tree.heap subtree
    if subtree = (← deref tree.heap parent).child side.other then
      let tree ← smallRotation side tree parent
      return (← raiseParent side tree parent, parent)
    else
      return (← raiseParent side tree subtree, subtree)

/-- The loop of `BalancingSubtree`. -/
def balancingLoop : Nat → RbTree T → Option Addr → Outcome (RbTree T)
  | 0, _, _ => .error .fuel
  | fuel + 1, tree, subtree => do
      let parent ← getParent tree.heap subtree
      if (← deref tree.heap parent).isColor .red then
        let grandparent ← deref tree.heap (← getGrandparent tree.heap subtree)
        let side := if parent = grandparent.right then Side.right else Side.left
        let (tree, subtree) ← balanceBelow side tree subtree
        if subtree = tree.root_ then return tree else balancingLoop fuel tree subtree
      else return tree

/-- A path meets each node at most once. -/
def depthBound (heap : Heap (RbNode T)) : Nat := heap.fresh + 1

def balancingSubtree (tree : RbTree T) (subtree : Option Addr) : Outcome (RbTree T) := do
  let tree ← balancingLoop (depthBound tree.heap) tree subtree
  return { tree with heap := ← modify tree.heap tree.root_ fun root => { root with color := .black } }

/-- `node == nullptr ? 0 : node->MaxDepth()`, where `MaxDepth` of a node is
`1 + std::max(max_left, max_right)`, and the same with `std::min` for `MinDepth`. -/
def nodeDepth (choose : Int → Int → Int) : Nat → Heap (RbNode T) → Option Addr → Outcome Int
  | _, _, none => .ok 0
  | 0, _, some _ => .error .fuel
  | fuel + 1, heap, some this => do
      let node ← load heap this
      return 1 + choose (← nodeDepth choose fuel heap node.left)
        (← nodeDepth choose fuel heap node.right)

def depth (choose : Int → Int → Int) (tree : RbTree T) : Outcome Int :=
  match tree.root_ with
  | none => .ok (-1)
  | some root => do
      return (← nodeDepth choose (depthBound tree.heap) tree.heap (some root)) - 1

def maxDepth (tree : RbTree T) : Outcome Int := tree.depth max

def minDepth (tree : RbTree T) : Outcome Int := tree.depth min

/-- The visitor changes a state of its own. -/
def visitImpl {σ : Type} (visitor : σ → T → σ) : Nat → Heap (RbNode T) → Option Addr → σ → Outcome σ
  | _, _, none, state => .ok state
  | 0, _, some _, _ => .error .fuel
  | fuel + 1, heap, some root, state => do
      let node ← load heap root
      let state ← visitImpl visitor fuel heap node.left state
      visitImpl visitor fuel heap node.right (visitor state node.key)

def visit {σ : Type} (visitor : σ → T → σ) (tree : RbTree T) (state : σ) : Outcome σ :=
  visitImpl visitor (depthBound tree.heap) tree.heap tree.root_ state

/-- `child && child->Contains(search_key)`. -/
def childContains [BEq T] (searchKey : T) : Nat → Heap (RbNode T) → Option Addr → Outcome Bool
  | _, _, none => .ok false
  | 0, _, some _ => .error .fuel
  | fuel + 1, heap, some this => do
      let node ← load heap this
      if node.key == searchKey then return true
      else if ← childContains searchKey fuel heap node.left then return true
      else childContains searchKey fuel heap node.right

def contains [BEq T] (tree : RbTree T) (key : T) : Outcome Bool :=
  childContains key (depthBound tree.heap) tree.heap tree.root_

variable [LT T] [DecidableLT T]

/-- The parent of the new node: the last node on the search path. -/
def findParent (key : T) : Nat → Heap (RbNode T) → (parent child : Option Addr) →
    Outcome (Option Addr)
  | 0, _, _, _ => .error .fuel
  | _ + 1, _, parent, none => .ok parent
  | fuel + 1, heap, _, some child => do
      let node ← load heap child
      findParent key fuel heap (some child) (if key < node.key then node.left else node.right)

protected def insert (tree : RbTree T) (key : T) : Outcome (RbTree T) := do
  let newNode := tree.heap.fresh
  let heap := tree.heap.alloc { key }
  let parent ← findParent key (depthBound heap) heap none tree.root_
  let heap ← modify heap (some newNode) (.setParent parent)
  match parent with
  | none =>
      let heap ← modify heap (some newNode) fun node => { node with color := .black }
      return { heap, root_ := some newNode }
  | some _ =>
      let side := if key < (← deref heap parent).key then Side.left else Side.right
      let heap ← modify heap parent (.setChild side (some newNode))
      if (← deref heap parent).parent = none then return { tree with heap }
      else balancingSubtree { tree with heap } (some newNode)

end RbTree

end Dsac.Tree

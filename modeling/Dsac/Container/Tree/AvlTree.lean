import Mathlib
import Dsac.Fault

namespace Dsac.Tree

/-! `dsac::tree::AVLTree`. A `Node*` owns its subtree and no two nodes share a
child, so a pointer is modelled by the tree below it; the height is the stored
one, which may differ from the height of the subtree. -/

/-- A `Node*` of `AVLTree`, with `null` for the null pointer. -/
inductive AvlNode (T : Type u) where
  | null
  | node (key : T) (left right : AvlNode T) (height : Int)
deriving DecidableEq, Repr

variable {T : Type u}

namespace AvlNode

def new (key : T) : AvlNode T := .node key .null .null 0

def getKey : AvlNode T → Outcome T
  | .null => .error .nullPointer
  | .node key _ _ _ => .ok key

def getLeftChild : AvlNode T → Outcome (AvlNode T)
  | .null => .error .nullPointer
  | .node _ left _ _ => .ok left

def getRightChild : AvlNode T → Outcome (AvlNode T)
  | .null => .error .nullPointer
  | .node _ _ right _ => .ok right

def setLeftChild : AvlNode T → AvlNode T → Outcome (AvlNode T)
  | .null, _ => .error .nullPointer
  | .node key _ right height, child => .ok (.node key child right height)

def setRightChild : AvlNode T → AvlNode T → Outcome (AvlNode T)
  | .null, _ => .error .nullPointer
  | .node key left _ height, child => .ok (.node key left child height)

def setHeight : AvlNode T → Int → Outcome (AvlNode T)
  | .null, _ => .error .nullPointer
  | .node key left right _, height => .ok (.node key left right height)

/-- `subtree == nullptr ? 0 : subtree->GetHeight() + 1`. -/
def depth : AvlNode T → Int
  | .null => 0
  | .node _ _ _ height => height + 1

def getMaxHeight (leftSubtree rightSubtree : AvlNode T) : Int :=
  max leftSubtree.depth rightSubtree.depth

def contains [DecidableEq T] (key : T) : AvlNode T → Bool
  | .null => false
  | .node nodeKey left right _ => key == nodeKey || left.contains key || right.contains key

/-- The keys in the order in which `VisitImpl` passes them to the visitor. -/
def visit : AvlNode T → List T
  | .null => []
  | .node key left right _ => left.visit ++ key :: right.visit

def smallLeftRotation (subtree : AvlNode T) : Outcome (AvlNode T) := do
  let heavyRight ← subtree.getRightChild
  let subtree ← subtree.setRightChild (← heavyRight.getLeftChild)
  let subtree ← subtree.setHeight (getMaxHeight (← subtree.getLeftChild) (← subtree.getRightChild))
  let heavyRight ← heavyRight.setLeftChild subtree
  heavyRight.setHeight (getMaxHeight subtree (← heavyRight.getRightChild))

def smallRightRotation (subtree : AvlNode T) : Outcome (AvlNode T) := do
  let heavyLeft ← subtree.getLeftChild
  let subtree ← subtree.setLeftChild (← heavyLeft.getRightChild)
  let subtree ← subtree.setHeight (getMaxHeight (← subtree.getLeftChild) (← subtree.getRightChild))
  let heavyLeft ← heavyLeft.setRightChild subtree
  heavyLeft.setHeight (getMaxHeight (← heavyLeft.getLeftChild) subtree)

def largeLeftRotation (subtree : AvlNode T) : Outcome (AvlNode T) := do
  let right ← smallRightRotation (← subtree.getRightChild)
  smallLeftRotation (← subtree.setRightChild right)

def largeRightRotation (subtree : AvlNode T) : Outcome (AvlNode T) := do
  let left ← smallLeftRotation (← subtree.getLeftChild)
  smallRightRotation (← subtree.setLeftChild left)

def balancingSubtree (subtree : AvlNode T) (destinationKey sourceKey : T)
    (comp : T → T → Bool) : Outcome (AvlNode T) := do
  let leftDepth := getMaxHeight (← subtree.getLeftChild) .null
  let rightDepth := getMaxHeight .null (← subtree.getRightChild)
  let balanceFactor := leftDepth - rightDepth
  let subtree ←
    if balanceFactor = -2 then
      if comp destinationKey sourceKey then largeLeftRotation subtree
      else smallLeftRotation subtree
    else if balanceFactor = 2 then
      if comp destinationKey sourceKey then largeRightRotation subtree
      else smallRightRotation subtree
    else .ok subtree
  subtree.setHeight (getMaxHeight (← subtree.getLeftChild) (← subtree.getRightChild))

variable [LinearOrder T]

/-- `std::less{}` and `std::greater{}`. -/
def less (left right : T) : Bool := decide (left < right)
def greater (left right : T) : Bool := decide (right < left)

/-- The new value of the reference `root`, and whether the node was added. -/
def insertImpl (added : T) : AvlNode T → Outcome (AvlNode T × Bool)
  | .null => .ok (.new added, true)
  | .node key left right height =>
      if added < key then do
        let (left, isAdded) ← left.insertImpl added
        if isAdded then
          let root ← balancingSubtree (.node key left right height) added (← left.getKey) greater
          return (root, true)
        else return (.node key left right height, false)
      else if key < added then do
        let (right, isAdded) ← right.insertImpl added
        if isAdded then
          let root ← balancingSubtree (.node key left right height) added (← right.getKey) less
          return (root, true)
        else return (.node key left right height, false)
      else .ok (.node key left right height, false)

def findMinChild : AvlNode T → Outcome (AvlNode T)
  | .null => .error .nullPointer
  | .node key left right height =>
      match left with
      | .null => .ok (.node key left right height)
      | .node .. => left.findMinChild

def deleteMinChild : AvlNode T → Outcome (AvlNode T)
  | .null => .error .nullPointer
  | .node key left right height =>
      match left with
      | .null => .ok right
      | .node .. => do (AvlNode.node key left right height).setLeftChild (← left.deleteMinChild)

def deleteImpl (deletedKey : T) : AvlNode T → Outcome (AvlNode T)
  | .null => .ok .null
  | .node key left right height =>
      if deletedKey < key then do
        let left ← left.deleteImpl deletedKey
        balancingSubtree (.node key left right height) deletedKey key greater
      else if key < deletedKey then do
        let right ← right.deleteImpl deletedKey
        balancingSubtree (.node key left right height) deletedKey key less
      else match right with
        | .null => .ok left
        | .node .. => do
            let minChild ← right.findMinChild
            let minChild ← minChild.setRightChild (← right.deleteMinChild)
            minChild.setLeftChild left

end AvlNode

structure AvlTree (T : Type u) where
  root : AvlNode T := .null
deriving DecidableEq, Repr

namespace AvlTree

variable [LinearOrder T]

def contains (tree : AvlTree T) (key : T) : Bool := tree.root.contains key

def visit (tree : AvlTree T) : List T := tree.root.visit

def depth (tree : AvlTree T) : Int :=
  match tree.root with
  | .null => -1
  | .node _ _ _ height => height

protected def insert (tree : AvlTree T) (addedKey : T) : Outcome (AvlTree T × Bool) :=
  if tree.contains addedKey then .ok (tree, false)
  else do
    let (root, isAdded) ← tree.root.insertImpl addedKey
    return ({ root }, isAdded)

def delete (tree : AvlTree T) (deletedKey : T) : Outcome (AvlTree T) := do
  return { root := ← tree.root.deleteImpl deletedKey }

/-- The calls that change a tree. -/
inductive Call (T : Type u) where
  | insert (key : T)
  | delete (key : T)
deriving DecidableEq, Repr

def call (tree : AvlTree T) : Call T → Outcome (AvlTree T)
  | .insert key => Prod.fst <$> tree.insert key
  | .delete key => tree.delete key

end AvlTree

end Dsac.Tree

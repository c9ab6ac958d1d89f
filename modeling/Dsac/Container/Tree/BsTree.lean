import Dsac.Memory
import Dsac.Library.LinkedTree
import Dsac.Library.Run

namespace Dsac.Tree

open Dsac.Library

/-! `dsac::binary_search_tree`. An iterator is the address of its node, and null at the
end. The comparison of the keys is a parameter. -/

structure BstNode (Key : Type) where
  key_ : Key
  left_ : Option Addr := none
  right_ : Option Addr := none
  parent_ : Option Addr := none
deriving DecidableEq, Repr

structure BinarySearchTree (Key : Type) where
  heap : Heap (BstNode Key) := {}
  root_ : Option Addr := none
  size_ : Nat := 0
deriving DecidableEq, Repr

variable {Key : Type} (compare_ : Key → Key → Bool)

namespace BinarySearchTree

/-- A walk down or up meets each node at most once. -/
def depthBound (heap : Heap (BstNode Key)) : Nat := heap.fresh + 1

/-- The loop of `GetLeftmostNode` and of the iterator's `FindMinNode`. -/
def leftmost : Nat → Heap (BstNode Key) → Option Addr → Outcome (Option Addr)
  | _, _, none => .ok none
  | 0, _, some _ => .error .fuel
  | fuel + 1, heap, some node => do
      match (← load heap node).left_ with
      | none => return some node
      | some left => leftmost fuel heap (some left)

def getLeftmostNode (heap : Heap (BstNode Key)) (node : Option Addr) : Outcome (Option Addr) :=
  leftmost (depthBound heap) heap node

def findMinNode (heap : Heap (BstNode Key)) (node : Option Addr) : Outcome (Option Addr) :=
  leftmost (depthBound heap) heap node

def isLeftChild (heap : Heap (BstNode Key)) (node : Addr) : Outcome Bool := do
  let parent ← deref heap (← load heap node).parent_
  return some node = parent.left_

/-- `while (node->parent_ && !IsLeftChild(node)) node = node->parent_; return node->parent_`. -/
def climb : Nat → Heap (BstNode Key) → Addr → Outcome (Option Addr)
  | 0, _, _ => .error .fuel
  | fuel + 1, heap, node => do
      match (← load heap node).parent_ with
      | none => return none
      | some parent =>
          if ← isLeftChild heap node then return some parent else climb fuel heap parent

def findNextNode (heap : Heap (BstNode Key)) (node : Addr) : Outcome (Option Addr) := do
  match (← load heap node).right_ with
  | some right => findMinNode heap (some right)
  | none => climb (depthBound heap) heap node

def begin (tree : BinarySearchTree Key) : Outcome (Option Addr) :=
  getLeftmostNode tree.heap tree.root_

/-- `for (; it != End(); ++it)`: the keys that the iterator yields. -/
def iterate : Nat → Heap (BstNode Key) → Option Addr → Outcome (List Key)
  | _, _, none => .ok []
  | 0, _, some _ => .error .fuel
  | fuel + 1, heap, some node => do
      let key := (← load heap node).key_
      return key :: (← iterate fuel heap (← findNextNode heap node))

def keys (tree : BinarySearchTree Key) : Outcome (List Key) := do
  iterate (depthBound tree.heap) tree.heap (← tree.begin)

/-- The loop of `InsertUniqueNode`, with the final values of `parent` and `parent_before`. -/
def findParent (key : Key) : Nat → Heap (BstNode Key) → (parent parentBefore : Option Addr) →
    Outcome (Option Addr × Option Addr)
  | _, _, none, parentBefore => .ok (none, parentBefore)
  | 0, _, some _, _ => .error .fuel
  | fuel + 1, heap, some parent, _ => do
      let node ← load heap parent
      if compare_ key node.key_ then findParent key fuel heap node.left_ (some parent)
      else if compare_ node.key_ key then findParent key fuel heap node.right_ (some parent)
      else return (some parent, some parent)

/-- The result is the tree, with the returned iterator and flag. -/
def insertUniqueNode (tree : BinarySearchTree Key) (insertedNode : Addr) :
    Outcome (BinarySearchTree Key × Option Addr × Bool) := do
  match tree.root_ with
  | none =>
      return ({ tree with root_ := some insertedNode, size_ := tree.size_ + 1 }, some insertedNode, true)
  | some root =>
      let key := (← load tree.heap insertedNode).key_
      let (parent, parentBefore) ←
        findParent compare_ key (depthBound tree.heap) tree.heap (some root) (some root)
      match parent with
      | some _ => return ({ tree with heap := ← destroy tree.heap insertedNode }, parent, false)
      | none =>
          let before ← deref tree.heap parentBefore
          let heap ← modify tree.heap parentBefore fun node =>
            if compare_ key before.key_ then { node with left_ := some insertedNode }
            else { node with right_ := some insertedNode }
          let heap ← modify heap (some insertedNode) fun node => { node with parent_ := parentBefore }
          return ({ tree with heap, size_ := tree.size_ + 1 }, some insertedNode, true)

/-- `Insert`: a node is constructed from the key. -/
protected def insert (tree : BinarySearchTree Key) (key_ : Key) :
    Outcome (BinarySearchTree Key × Option Addr × Bool) :=
  insertUniqueNode compare_ { tree with heap := tree.heap.alloc { key_ } } tree.heap.fresh

/-- `Emplace`, with the key that the arguments construct. -/
def emplace (tree : BinarySearchTree Key) (key_ : Key) :
    Outcome (BinarySearchTree Key × Option Addr × Bool) :=
  insertUniqueNode compare_ { tree with heap := tree.heap.alloc { key_ } } tree.heap.fresh

/-- The loop of `FindUnique`. -/
def findFrom (key : Key) : Nat → Heap (BstNode Key) → Option Addr → Outcome (Option Addr)
  | _, _, none => .ok none
  | 0, _, some _ => .error .fuel
  | fuel + 1, heap, some root => do
      let node ← load heap root
      if compare_ key node.key_ then findFrom key fuel heap node.left_
      else if compare_ node.key_ key then findFrom key fuel heap node.right_
      else return some root

def findUnique (tree : BinarySearchTree Key) (key : Key) : Outcome (Option Addr) :=
  findFrom compare_ key (depthBound tree.heap) tree.heap tree.root_

/-- The link of the parent to the node is set to `child`. -/
def replaceInParent (heap : Heap (BstNode Key)) (node : Addr) (child : Option Addr) :
    Outcome (Heap (BstNode Key)) := do
  let parent := (← load heap node).parent_
  if (← deref heap parent).left_ = some node then modify heap parent fun n => { n with left_ := child }
  else modify heap parent fun n => { n with right_ := child }

/-- `EraseUnique`, with the tree after the call and the returned flag. -/
def eraseUnique (tree : BinarySearchTree Key) (key : Key) : Outcome (BinarySearchTree Key × Bool) := do
  match ← tree.findUnique compare_ key with
  | none => return (tree, false)
  | some current => do
      let node ← load tree.heap current
      match node.left_, node.right_ with
      | none, none =>
          if tree.root_ = some current then
            let heap ← destroy tree.heap current
            return ({ heap, root_ := none, size_ := tree.size_ - 1 }, true)
          else
            let heap ← replaceInParent tree.heap current none
            let heap ← destroy heap current
            return ({ tree with heap, size_ := tree.size_ - 1 }, true)
      | some _, some right =>
          match ← getLeftmostNode tree.heap (some right) with
          | none => .error .nullPointer
          | some currentLeftmost =>
              let key_ := (← load tree.heap currentLeftmost).key_
              let heap ← modify tree.heap (some current) fun n => { n with key_ }
              let heap ← replaceInParent heap currentLeftmost (← load heap currentLeftmost).right_
              let heap ← destroy heap currentLeftmost
              return ({ tree with heap, size_ := tree.size_ - 1 }, true)
      | left, right =>
          let childNode := if left ≠ none then left else right
          if tree.root_ = some current then
            let heap ← destroy tree.heap current
            return ({ heap, root_ := childNode, size_ := tree.size_ - 1 }, true)
          else
            let heap ← replaceInParent tree.heap current childNode
            let heap ← destroy heap current
            return ({ tree with heap, size_ := tree.size_ - 1 }, true)

/-- The loop of `DestroySubtree`. -/
def destroySubtree : Nat → Heap (BstNode Key) → Option Addr → Outcome (Heap (BstNode Key))
  | _, heap, none => .ok heap
  | 0, _, some _ => .error .fuel
  | fuel + 1, heap, some root => do
      let node ← load heap root
      match node.left_ with
      | none => do
          let heap ← destroy heap root
          destroySubtree fuel heap node.right_
      | some nextToDestroy => do
          let inner := (← load heap nextToDestroy).right_
          let heap ← modify heap (some root) fun n => { n with left_ := inner }
          let heap ← modify heap (some nextToDestroy) fun n => { n with right_ := some root }
          destroySubtree fuel heap (some nextToDestroy)

/-- A turn of the loop destroys a node or moves one to the right spine. -/
def clear (tree : BinarySearchTree Key) : Outcome (BinarySearchTree Key) := do
  return { heap := ← destroySubtree (2 * depthBound tree.heap) tree.heap tree.root_ }

/-- The calls that change a tree. -/
inductive Call (Key : Type) where
  | insert (key : Key)
  | emplace (key : Key)
  | erase (key : Key)
  | clear
deriving DecidableEq, Repr

def call (tree : BinarySearchTree Key) : Call Key → Outcome (BinarySearchTree Key)
  | .insert key => Prod.fst <$> tree.insert compare_ key
  | .emplace key => Prod.fst <$> tree.emplace compare_ key
  | .erase key => Prod.fst <$> tree.eraseUnique compare_ key
  | .clear => tree.clear

end BinarySearchTree

end Dsac.Tree

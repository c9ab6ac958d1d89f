import Dsac.Memory
import Dsac.Library.SortedRange

namespace Dsac.Tree

open Dsac.Library

/-! `dsac::tree::BTree`. A split copies child pointers from one node to another, so
nodes live in a heap and children are addresses. The minimum degree `t_` is the
same in all nodes of a tree and is a parameter here. -/

structure BTreeNode (T : Type) where
  keys : List T := []
  children : List Addr := []
deriving DecidableEq, Repr

variable {T : Type} [LinearOrder T]

namespace BTreeNode

def isLeaf (node : BTreeNode T) : Bool := node.children.isEmpty

def isKeysFull (t : Nat) (node : BTreeNode T) : Bool := node.keys.length == 2 * t - 1

def getKey (node : BTreeNode T) (index : Nat) : Outcome T :=
  match node.keys[index]? with
  | some key => .ok key
  | none => .error .assertion

def getChild (node : BTreeNode T) (index : Nat) : Outcome Addr :=
  match node.children[index]? with
  | some child => .ok child
  | none => .error .assertion

/-- `(index < keys_.size()) && (GetKey(index) == key)`. -/
def isKeyAt (node : BTreeNode T) (index : Nat) (key : T) : Outcome Bool :=
  if index < node.keys.length then do return (← node.getKey index) == key else .ok false

/-- `assert(std::is_sorted(keys_.begin(), keys_.end()))` after an insertion. -/
def assertSorted (node : BTreeNode T) : Outcome (BTreeNode T) :=
  if node.keys.Pairwise (· ≤ ·) then .ok node else .error .assertion

def addKeyByIndex (node : BTreeNode T) (index : Nat) (key : T) : Outcome (BTreeNode T) :=
  assertSorted { node with keys := node.keys.insertIdx index key }

def addKeyImpl (node : BTreeNode T) (key : T) : Outcome (BTreeNode T) :=
  assertSorted { node with keys := node.keys.insertIdx (upperBound node.keys key) key }

/-- `keys_.erase(std::find(keys_.begin(), keys_.end(), key))`. -/
def removeKey (node : BTreeNode T) (key : T) : BTreeNode T :=
  { node with keys := node.keys.erase key }

def addChild (node : BTreeNode T) (child : Addr) : BTreeNode T :=
  { node with children := node.children ++ [child] }

def addChildByIndex (node : BTreeNode T) (index : Nat) (child : Addr) : BTreeNode T :=
  { node with children := node.children.insertIdx index child }

/-- The keys of the new node: `for (j = 0; j < t - 1; j++) new_node->AddKey(root->GetKey(j + t))`.
The new node has no children yet, so `AddKey` is `AddKeyImpl`. -/
def copyKeys (t : Nat) (root newNode : BTreeNode T) : Outcome (BTreeNode T) :=
  (List.range (t - 1)).foldlM (fun newNode j => do newNode.addKeyImpl (← root.getKey (j + t))) newNode

/-- `for (j = 0; j < t - 1; j++) new_node->AddChild(root->GetChild(j + t))`. -/
def copyChildren (t : Nat) (root newNode : BTreeNode T) : Outcome (BTreeNode T) :=
  (List.range (t - 1)).foldlM (fun newNode j => do return newNode.addChild (← root.getChild (j + t)))
    newNode

/-- `for (j = 2 * t - 2; j >= t - 1; --j) root->RemoveKey(root->GetKey(j))`. -/
def dropKeys (t : Nat) (root : BTreeNode T) : Outcome (BTreeNode T) :=
  (List.range t).foldlM (fun root j => do return root.removeKey (← root.getKey (2 * t - 2 - j))) root

end BTreeNode

open BTreeNode

/-- `SplitChild` of the node at `this`, whose child at `index` is the node at `root`. -/
def splitChild (t : Nat) (heap : Heap (BTreeNode T)) (this : Addr) (index : Nat) (root : Addr) :
    Outcome (Heap (BTreeNode T)) := do
  let rootNode ← load heap root
  let newNode ← copyKeys t rootNode {}
  let newNode ← if rootNode.isLeaf then .ok newNode else copyChildren t rootNode newNode
  let newAddress := heap.fresh
  let heap := heap.alloc newNode
  let parent := (← load heap this).addChildByIndex (index + 1) newAddress
  let parent ← parent.addKeyByIndex index (← rootNode.getKey (t - 1))
  let heap ← store heap this parent
  let rootNode ← dropKeys t (← load heap root)
  store heap root rootNode

/-- `AddKey`; the fuel bounds the depth of the recursion. -/
def addKey (t : Nat) : Nat → Heap (BTreeNode T) → Addr → T → Outcome (Heap (BTreeNode T))
  | 0, _, _, _ => .error .fuel
  | fuel + 1, heap, this, key => do
      let node ← load heap this
      if node.isLeaf then store heap this (← node.addKeyImpl key)
      else
        let index := upperBound node.keys key
        let considerNode ← node.getChild index
        if (← load heap considerNode).isKeysFull t then
          let heap ← splitChild t heap this index considerNode
          let node ← load heap this
          let index := if (← node.getKey index) < key then index + 1 else index
          addKey t fuel heap (← node.getChild index) key
        else addKey t fuel heap considerNode key

def nodeContains : Nat → Heap (BTreeNode T) → Addr → T → Outcome Bool
  | 0, _, _, _ => .error .fuel
  | fuel + 1, heap, this, key => do
      let node ← load heap this
      let index := lowerBound node.keys key
      if ← node.isKeyAt index key then return true
      else if node.isLeaf then return false
      else nodeContains fuel heap (← node.getChild index) key

structure BTree (T : Type) where
  heap : Heap (BTreeNode T) := {}
  root : Option Addr := none
deriving DecidableEq, Repr

namespace BTree

/-- A path from the root meets each node at most once. -/
def depthBound (heap : Heap (BTreeNode T)) : Nat := heap.fresh + 1

protected def insert (t : Nat) (tree : BTree T) (key : T) : Outcome (BTree T) :=
  match tree.root with
  | none => do
      let root := tree.heap.fresh
      let heap ← addKey t (depthBound tree.heap) (tree.heap.alloc {}) root key
      return { heap, root := some root }
  | some root => do
      if (← load tree.heap root).isKeysFull t then
        let newNode := tree.heap.fresh
        let heap := tree.heap.alloc (BTreeNode.addChild {} root)
        let heap ← splitChild t heap newNode 0 root
        let node ← load heap newNode
        let index := if (← node.getKey 0) < key then 1 else 0
        let heap ← addKey t (depthBound heap) heap (← node.getChild index) key
        return { heap, root := some newNode }
      else
        let heap ← addKey t (depthBound tree.heap) tree.heap root key
        return { tree with heap }

def contains (tree : BTree T) (key : T) : Outcome Bool :=
  match tree.root with
  | none => .ok false
  | some root => nodeContains (depthBound tree.heap) tree.heap root key

end BTree

end Dsac.Tree

import Dsac.Memory
import Dsac.Library.Run

namespace Dsac.Hash

open Dsac.Library

/-! `dsac::hashtable::HashTable`, a table of singly linked chains. The hash function and the
equality of the keys are parameters. -/

structure ChainNode (Key Value : Type) where
  key_ : Key
  value_ : Value
  bucket_ : Option Addr := none
deriving DecidableEq, Repr

structure HashTable (Key Value : Type) where
  heap : Heap (ChainNode Key Value) := {}
  /-- an `int` -/
  buffer_size_ : Int := 0
  hashtable_ : List (Option Addr)
deriving DecidableEq, Repr

namespace HashTable

variable {Key Value : Type}

/-- An `int` of 32 bits. -/
def toInt (value : Int) : Int := value.bmod (2 ^ 32)

/-- A chain meets each node at most once. -/
def depthBound (heap : Heap (ChainNode Key Value)) : Nat := heap.fresh + 1

/-- `hashtable_[index]`. -/
def bucketAt (hashtable_ : List (Option Addr)) (index : Nat) : Outcome (Option Addr) :=
  match hashtable_[index]? with
  | some node => .ok node
  | none => .error .outOfRange

/-- `Node::Destroy`: the nodes after the given one. -/
def destroyNode : Nat → Heap (ChainNode Key Value) → Addr → Outcome (Heap (ChainNode Key Value))
  | 0, _, _ => .error .fuel
  | fuel + 1, heap, node => do
      match (← load heap node).bucket_ with
      | none => return heap
      | some bucket => destroy (← destroyNode fuel heap bucket) bucket

def destroyImpl (heap : Heap (ChainNode Key Value)) (hashtable : List (Option Addr)) :
    Outcome (Heap (ChainNode Key Value)) :=
  hashtable.foldlM (fun heap node =>
    match node with
    | none => .ok heap
    | some node => do destroy (← destroyNode (depthBound heap) heap node) node) heap

variable [BEq Key] (hash : Key → Nat)

def hashing (table : HashTable Key Value) (key : Key) : Nat := hash key % table.hashtable_.length

/-- `while (child != nullptr && child->GetKey() != key)`: the final `parent` and `child`. -/
def findChild (key : Key) : Nat → Heap (ChainNode Key Value) → (parent child : Option Addr) →
    Outcome (Option Addr × Option Addr)
  | _, _, parent, none => .ok (parent, none)
  | 0, _, _, some _ => .error .fuel
  | fuel + 1, heap, parent, some child => do
      let node ← load heap child
      if node.key_ != key then findChild key fuel heap (some child) node.bucket_
      else return (parent, some child)

def insertImpl (table : HashTable Key Value) (key : Key) (value : Value) :
    Outcome (HashTable Key Value) := do
  let index := table.hashing hash key
  let bucket ← bucketAt table.hashtable_ index
  match ← findChild key (depthBound table.heap) table.heap none bucket with
  | (parent, none) =>
      let child := table.heap.fresh
      let table := { table with heap := table.heap.alloc { key_ := key, value_ := value } }
      let buffer_size_ := toInt (table.buffer_size_ + 1)
      match parent with
      | none => return { table with hashtable_ := table.hashtable_.set index (some child), buffer_size_ }
      | some _ =>
          let heap ← modify table.heap parent fun node => { node with bucket_ := some child }
          return { table with heap, buffer_size_ }
  | (_, some child) =>
      return { table with heap := ← modify table.heap (some child) fun node => { node with value_ := value } }

/-- The inner loop of `Rehash`. -/
def reinsert : Nat → HashTable Key Value → Option Addr → Outcome (HashTable Key Value)
  | _, table, none => .ok table
  | 0, _, some _ => .error .fuel
  | fuel + 1, table, some entry => do
      let node ← load table.heap entry
      let table ← table.insertImpl hash node.key_ node.value_
      reinsert fuel table (← load table.heap entry).bucket_

def rehash (table : HashTable Key Value) : Outcome (HashTable Key Value) := do
  let latest := table.hashtable_
  let empty := { table with hashtable_ := List.replicate (latest.length * 2) none }
  let table ← latest.foldlM (reinsert hash (depthBound table.heap)) empty
  return { table with heap := ← destroyImpl table.heap latest }

/-- The quotient of a `double` and `0.75` are exact here: the size is a power of two. -/
def tryRehash (table : HashTable Key Value) : Outcome (HashTable Key Value) :=
  if 4 * table.buffer_size_ > 3 * (table.hashtable_.length : Int) then table.rehash hash else .ok table

def construct : HashTable Key Value where
  hashtable_ := List.replicate 8 none

protected def insert (table : HashTable Key Value) (key : Key) (value : Value) :
    Outcome (HashTable Key Value) := do
  let table ← table.tryRehash hash
  table.insertImpl hash key value

/-- The loop of `Contains` and `GetValue`: the entry with the key. -/
def findEntry (key : Key) : Nat → Heap (ChainNode Key Value) → Option Addr →
    Outcome (Option (ChainNode Key Value))
  | _, _, none => .ok none
  | 0, _, some _ => .error .fuel
  | fuel + 1, heap, some entry => do
      let node ← load heap entry
      if node.key_ == key then return some node else findEntry key fuel heap node.bucket_

def contains (table : HashTable Key Value) (key : Key) : Outcome Bool := do
  let bucket ← bucketAt table.hashtable_ (table.hashing hash key)
  return (← findEntry key (depthBound table.heap) table.heap bucket).isSome

def getValue (table : HashTable Key Value) (key : Key) : Outcome Value := do
  let bucket ← bucketAt table.hashtable_ (table.hashing hash key)
  match ← findEntry key (depthBound table.heap) table.heap bucket with
  | some node => return node.value_
  | none => .error .thrownOutOfRange

def remove (table : HashTable Key Value) (key : Key) : Outcome (HashTable Key Value) := do
  let index := table.hashing hash key
  let bucket ← bucketAt table.hashtable_ index
  match ← findChild key (depthBound table.heap) table.heap none bucket with
  | (_, none) => return table
  | (parent, some child) =>
      let following := (← load table.heap child).bucket_
      let table ← match parent with
        | none => pure { table with hashtable_ := table.hashtable_.set index following }
        | some _ => do
            let heap ← modify table.heap parent fun node => { node with bucket_ := following }
            pure { table with heap }
      return { table with
        buffer_size_ := toInt (table.buffer_size_ - 1), heap := ← destroy table.heap child }

/-- A call of the public interface. -/
inductive Call (Key Value : Type) where
  | insert (key : Key) (value : Value)
  | remove (key : Key)
  | contains (key : Key)
  | getValue (key : Key)
deriving DecidableEq, Repr

/-- The table after a call. The caller of `GetValue` catches `std::out_of_range`. -/
def call (table : HashTable Key Value) : Call Key Value → Outcome (HashTable Key Value)
  | .insert key value => table.insert hash key value
  | .remove key => table.remove hash key
  | .contains key => do
      let _ ← table.contains hash key
      return table
  | .getValue key =>
      match table.getValue hash key with
      | .ok _ | .error .thrownOutOfRange => .ok table
      | .error reason => .error reason

/-- A sequence of calls on a new table. -/
def calls (calls : List (Call Key Value)) : Outcome (HashTable Key Value) :=
  run (call hash) construct calls

end HashTable

end Dsac.Hash

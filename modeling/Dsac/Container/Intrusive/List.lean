import Dsac.Memory

namespace Dsac.Intrusive

open Dsac.Library

/-! `dsac::intrusive::list`. A list is given by the address of its sentinel `storage_`. -/

/-- A `list_node_base<T>`, with the rest of the `T` that it is the base of; the sentinel is
the base of nothing. -/
structure ListNodeBase (α : Type) where
  prev_ : Option Addr := none
  next_ : Option Addr := none
  object : Option α := none
deriving DecidableEq, Repr

variable {α : Type}

/-- `if (nullptr != pointer) pointer->field = value`. -/
def modifyIfNotNull (heap : Heap (ListNodeBase α)) (pointer : Option Addr)
    (change : ListNodeBase α → ListNodeBase α) : Outcome (Heap (ListNodeBase α)) :=
  match pointer with
  | none => .ok heap
  | some _ => modify heap pointer change

def setNext (heap : Heap (ListNodeBase α)) (this : Addr) (next : Option Addr) :
    Outcome (Heap (ListNodeBase α)) :=
  modify heap (some this) fun node => { node with next_ := next }

def setPrev (heap : Heap (ListNodeBase α)) (this : Addr) (prev : Option Addr) :
    Outcome (Heap (ListNodeBase α)) :=
  modify heap (some this) fun node => { node with prev_ := prev }

def attach (heap : Heap (ListNodeBase α)) (this : Addr) (next : Option Addr) :
    Outcome (Heap (ListNodeBase α)) := do
  -- `std::exchange` reads the old pointer before it overwrites it
  let old := (← deref heap next).prev_
  let heap ← modify heap next fun node => { node with prev_ := some this }
  let heap ← modify heap (some this) fun node => { node with prev_ := old }
  let heap ← modify heap (← load heap this).prev_ fun node => { node with next_ := some this }
  modify heap (some this) fun node => { node with next_ := next }

def detach (heap : Heap (ListNodeBase α)) (this : Addr) : Outcome (Heap (ListNodeBase α)) := do
  let node ← load heap this
  let heap ← modifyIfNotNull heap node.next_ fun next => { next with prev_ := node.prev_ }
  let node ← load heap this
  let heap ← modifyIfNotNull heap node.prev_ fun prev => { prev with next_ := node.next_ }
  modify heap (some this) fun node => { node with next_ := none, prev_ := none }

/-- `pointer->detach()`. -/
def detachPointer (heap : Heap (ListNodeBase α)) : Option Addr → Outcome (Heap (ListNodeBase α))
  | none => .error .nullPointer
  | some this => detach heap this

/-- The constructor of `list` on a fresh sentinel. -/
def construct (heap : Heap (ListNodeBase α)) : Outcome (Heap (ListNodeBase α) × Addr) := do
  let storage_ := heap.fresh
  let heap ← setNext (heap.alloc {}) storage_ (some storage_)
  let heap ← setPrev heap storage_ (some storage_)
  return (heap, storage_)

def empty (heap : Heap (ListNodeBase α)) (storage_ : Addr) : Outcome Bool := do
  return (← load heap storage_).next_ = some storage_

def pushBack (heap : Heap (ListNodeBase α)) (storage_ next : Addr) : Outcome (Heap (ListNodeBase α)) :=
  attach heap next (some storage_)

def pushFront (heap : Heap (ListNodeBase α)) (storage_ next : Addr) :
    Outcome (Heap (ListNodeBase α)) := do
  attach heap next (← load heap storage_).next_

/-- The result is the heap, with the returned pointer. -/
def popFront (heap : Heap (ListNodeBase α)) (storage_ : Addr) :
    Outcome (Heap (ListNodeBase α) × Option Addr) := do
  if ← empty heap storage_ then return (heap, none)
  else
    let front := (← load heap storage_).next_
    return (← detachPointer heap front, front)

def popBack (heap : Heap (ListNodeBase α)) (storage_ : Addr) :
    Outcome (Heap (ListNodeBase α) × Option Addr) := do
  if ← empty heap storage_ then return (heap, none)
  else
    let back := (← load heap storage_).prev_
    return (← detachPointer heap back, back)

end Dsac.Intrusive

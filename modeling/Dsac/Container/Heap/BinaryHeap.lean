import Dsac.Fault

namespace Dsac

/-! `heap::BinaryHeap`. -/

structure BinaryHeap (T : Type) where
  storage : List T
deriving DecidableEq, Repr

namespace BinaryHeap

/-- A `std::size_t` of 64 bits passed as an `int` of 32 bits. -/
def toInt (index : Nat) : Int := Int.bmod index 4294967296

/-- An `int` used as a `std::size_t`. -/
def toSize (index : Int) : Nat := (index % 18446744073709551616).toNat

/-- The result of an operation on `int`s. -/
def intResult (value : Int) : Outcome Int :=
  if -2147483648 ≤ value ∧ value ≤ 2147483647 then .ok value else .error .overflow

def getIndexLeftChild (index : Int) : Outcome Int := do
  let doubled ← intResult (2 * index)
  intResult (doubled + 1)

def getIndexRightChild (index : Int) : Outcome Int := do
  let doubled ← intResult (2 * index)
  intResult (doubled + 2)

def getIndexParent (index : Int) : Outcome Int := do
  let before ← intResult (index - 1)
  .ok (before.tdiv 2)

variable {T : Type}

/-- `storage_[index]`. -/
def element (heap : BinaryHeap T) (index : Nat) : Outcome T :=
  match heap.storage[index]? with
  | some value => .ok value
  | none => .error .outOfRange

def existLeftChild (heap : BinaryHeap T) (index : Int) : Outcome Bool := do
  let child ← getIndexLeftChild index
  .ok (decide (toSize child < heap.storage.length))

def existRightChild (heap : BinaryHeap T) (index : Int) : Outcome Bool := do
  let child ← getIndexRightChild index
  .ok (decide (toSize child < heap.storage.length))

def existParent (index : Int) : Outcome Bool := do
  let parent ← getIndexParent index
  .ok (decide (0 ≤ parent))

def getLeftChild (heap : BinaryHeap T) (index : Int) : Outcome T := do
  let child ← getIndexLeftChild index
  heap.element (toSize child)

def getRightChild (heap : BinaryHeap T) (index : Int) : Outcome T := do
  let child ← getIndexRightChild index
  heap.element (toSize child)

def getParent (heap : BinaryHeap T) (index : Int) : Outcome T := do
  let parent ← getIndexParent index
  heap.element (toSize parent)

/-- `std::swap(storage_[first], storage_[second])`. -/
def swap (heap : BinaryHeap T) (first second : Nat) : Outcome (BinaryHeap T) := do
  let firstValue ← heap.element first
  let secondValue ← heap.element second
  .ok { storage := (heap.storage.set first secondValue).set second firstValue }

variable (comp : T → T → Bool)

/-- The child that `HeapifyDown` compares a value with. -/
def smallerChildIndex (heap : BinaryHeap T) (index : Nat) : Outcome Nat := do
  let left ← getIndexLeftChild (toInt index)
  let existsRight ← heap.existRightChild (toInt index)
  if existsRight then
    let rightValue ← heap.getRightChild (toInt index)
    let leftValue ← heap.getLeftChild (toInt index)
    if comp rightValue leftValue then
      let right ← getIndexRightChild (toInt index)
      .ok (toSize right)
    else
      .ok (toSize left)
  else
    .ok (toSize left)

/-- The loop of `HeapifyDown`. -/
def sink : Nat → BinaryHeap T → Nat → Outcome (BinaryHeap T)
  | 0, _, _ => .error .fuel
  | fuel + 1, heap, index => do
      let existsLeft ← heap.existLeftChild (toInt index)
      if existsLeft then
        let smallerChild ← heap.smallerChildIndex comp index
        let value ← heap.element index
        let childValue ← heap.element smallerChild
        if comp value childValue then
          .ok heap
        else
          let swapped ← heap.swap index smallerChild
          sink fuel swapped smallerChild
      else
        .ok heap

def heapifyDown (heap : BinaryHeap T) : Outcome (BinaryHeap T) :=
  sink comp (heap.storage.length + 1) heap 0

/-- The loop of `HeapifyUp`. -/
def rise : Nat → BinaryHeap T → Nat → Outcome (BinaryHeap T)
  | 0, _, _ => .error .fuel
  | fuel + 1, heap, lastIndex => do
      let existsParent ← existParent (toInt lastIndex)
      if existsParent then
        let value ← heap.element lastIndex
        let parentValue ← heap.getParent (toInt lastIndex)
        if comp value parentValue then
          let parent ← getIndexParent (toInt lastIndex)
          let swapped ← heap.swap (toSize parent) lastIndex
          rise fuel swapped (toSize parent)
        else
          .ok heap
      else
        .ok heap

def heapifyUp (heap : BinaryHeap T) : Outcome (BinaryHeap T) :=
  rise comp (heap.storage.length + 1) heap (heap.storage.length - 1)

def peek (heap : BinaryHeap T) : Outcome T :=
  match heap.storage with
  | [] => .error .thrownOutOfRange
  | front :: _ => .ok front

/-- `storage_.front() = storage_.back(); storage_.pop_back();` -/
def replaceFront (heap : BinaryHeap T) : BinaryHeap T :=
  match heap.storage.getLast? with
  | some back => { storage := (heap.storage.set 0 back).dropLast }
  | none => heap

def pool (heap : BinaryHeap T) : Outcome (T × BinaryHeap T) := do
  let minValue ← heap.peek
  let next ← heap.replaceFront.heapifyDown comp
  .ok (minValue, next)

def insert (heap : BinaryHeap T) (key : T) : Outcome (BinaryHeap T) :=
  heapifyUp comp { storage := heap.storage ++ [key] }

inductive Call (T : Type) where
  | insert (key : T)
  | peek
  | pool

inductive Reply (T : Type) where
  | done
  | value (found : T)
  | outOfRange
deriving DecidableEq, Repr

/-- `Peek` and `Pool` throw before they change the heap. -/
def call (heap : BinaryHeap T) : Call T → Outcome (Reply T × BinaryHeap T)
  | .insert key => do
      let next ← heap.insert comp key
      .ok (.done, next)
  | .peek =>
      match heap.peek with
      | .ok front => .ok (.value front, heap)
      | .error .thrownOutOfRange => .ok (.outOfRange, heap)
      | .error reason => .error reason
  | .pool =>
      match heap.pool comp with
      | .ok (minValue, next) => .ok (.value minValue, next)
      | .error .thrownOutOfRange => .ok (.outOfRange, heap)
      | .error reason => .error reason

/-- The heap that a call leaves. -/
def step (heap : BinaryHeap T) (call : Call T) : Outcome (BinaryHeap T) := do
  let (_, next) ← heap.call comp call
  .ok next

end BinaryHeap

end Dsac

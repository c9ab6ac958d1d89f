import Dsac.Memory
import Dsac.Library.Action
import Dsac.Library.Run

namespace Dsac.DynamicArrays

open Dsac.Library

/-! `dsac::dynamic_array`, with the blocks of its allocators and the elements constructed in them. -/

/-- The properties of the element type and of the allocator that the code depends on. -/
structure Types (Args A T : Type) where
  /-- `is_nothrow_move_constructible_v` -/
  isNothrowMoveConstructible : Bool
  /-- `is_copy_constructible_v` -/
  isCopyConstructible : Bool
  /-- what a move leaves in its source -/
  moved : T → T
  /-- `T(args...)` -/
  direct : Args → T
  /-- `T{args...}`, which prefers a constructor that takes an initializer list -/
  braced : Args → T
  /-- `T{value}` for another `T` -/
  bracedCopy : T → T
  /-- whether a construction or an assignment throws, by the number of those before it -/
  throws : Nat → Bool
  maxSize : Nat
  maxSize_lt : maxSize < 2 ^ 64
  selectOnContainerCopyConstruction : A → A
  propagateOnContainerCopyAssignment : Bool
  isAlwaysEqual : Bool
  alwaysEqual : isAlwaysEqual = true → ∀ one two : A, one = two

/-- What is thrown: by a constructor of the element type, by the array or by its allocator. -/
inductive Exn where
  | element
  | rangeError
  | badAlloc
deriving DecidableEq, Repr

/-- A block of memory; a slot is empty where no element is constructed. -/
structure Block (A T : Type) where
  allocatedBy : A
  slots : List (Option T)
deriving DecidableEq, Repr

/-- The pointers `finish` and `end_of_storage` are given by their distances from `start`. -/
structure DynamicArray (A : Type) where
  allocator_ : A
  start : Option Addr := none
  finish : Nat := 0
  endOfStorage : Nat := 0
deriving DecidableEq, Repr

/-- The memory, and the arrays in it. -/
structure World (ν A T : Type) where
  heap : Heap (Block A T) := {}
  arrays : ν → Option (DynamicArray A) := fun _ => none
  /-- the constructions and assignments so far that may throw -/
  operations : Nat := 0
  /-- for each deallocation, the allocator of the block and the one that took it back -/
  returned : List (A × A) := []
  /-- the elements that were never destroyed in blocks that are gone -/
  lost : Nat := 0

variable {ν Args A T : Type}

abbrev Act (ν A T : Type) (α : Type) := Action Fault (World ν A T) Exn α

/-- The slots of a block that is live. -/
def blockAt (pointer : Option Addr) : Act ν A T (Addr × Block A T) := fun world =>
  match pointer with
  | none => .error .nullPointer
  | some address =>
      match world.heap.get address with
      | none => .error .destroyedNode
      | some block => .ok (.ok (address, block), world)

def setSlot (address : Addr) (block : Block A T) (index : Nat) (slot : Option T) : Act ν A T Unit :=
  .modify fun world => { world with heap := world.heap.set address { block with slots := block.slots.set index slot } }

/-- `*(pointer + index)`, for an element that is there. -/
def element (pointer : Option Addr) (index : Nat) : Act ν A T T := do
  let (_, block) ← blockAt pointer
  match block.slots[index]? with
  | some (some value) => return value
  | some none => .fault .destroyedNode
  | none => .fault .outOfRange

/-- `*(pointer + index) = value`, for an element that is there. -/
def assign (pointer : Option Addr) (index : Nat) (value : T) : Act ν A T Unit := do
  let (address, block) ← blockAt pointer
  match block.slots[index]? with
  | some (some _) => setSlot address block index (some value)
  | some none => .fault .destroyedNode
  | none => .fault .outOfRange

/-- An element comes to life; one that was there is lost. -/
def construct (pointer : Option Addr) (index : Nat) (value : T) : Act ν A T Unit := do
  let (address, block) ← blockAt pointer
  match block.slots[index]? with
  | some none => setSlot address block index (some value)
  | some (some _) => do
      .modify fun world => { world with lost := world.lost + 1 }
      setSlot address block index (some value)
  | none => .fault .outOfRange

/-- `allocator_traits::destroy`, for an element that is there. -/
def destroyAt (pointer : Option Addr) (index : Nat) : Act ν A T Unit := do
  let (address, block) ← blockAt pointer
  match block.slots[index]? with
  | some (some _) => setSlot address block index none
  | some none => .fault .destroyedNode
  | none => .fault .outOfRange

/-- `dsac::destroy` of a number of elements. -/
def destroyRange (pointer : Option Addr) (first : Nat) : Nat → Act ν A T Unit
  | 0 => pure ()
  | count + 1 => do
      destroyAt pointer first
      destroyRange pointer (first + 1) count

/-- `dsac::deallocate`. -/
def deallocate (pointer : Option Addr) (allocator : A) : Act ν A T Unit :=
  match pointer with
  | none => pure ()
  | some _ => do
      let (address, block) ← blockAt pointer
      .modify fun world => { world with
        heap := world.heap.free address
        returned := world.returned ++ [(block.allocatedBy, allocator)]
        lost := world.lost + block.slots.countP (·.isSome) }

def load (this : ν) : Act ν A T (DynamicArray A) := fun world =>
  match world.arrays this with
  | none => .error .destroyedNode
  | some array => .ok (.ok array, world)

def setArray [DecidableEq ν] (this : ν) (array : Option (DynamicArray A)) : Act ν A T Unit :=
  .modify fun world => { world with arrays := Function.update world.arrays this array }

/-- What a new element is made from. -/
inductive Argument (ν Args : Type) where
  /-- arguments that refer to no element of the arrays -/
  | args (args : Args)
  /-- a reference to an element -/
  | element (array : ν) (index : Nat)
  /-- `std::move` of an element -/
  | moved (array : ν) (index : Nat)
deriving DecidableEq, Repr

variable (types : Types Args A T)

/-- A new block of raw memory. -/
def newBlock (n : Nat) (allocator : A) : Act ν A T (Option Addr) := fun world =>
  .ok (.ok (some world.heap.fresh),
    { world with heap := world.heap.alloc { allocatedBy := allocator, slots := List.replicate n none } })

/-- `dsac::allocate`. -/
def allocate (n : Nat) (allocator : A) : Act ν A T (Option Addr) :=
  if n = 0 then pure none
  else if types.maxSize < n then .throw .badAlloc
  else newBlock n allocator

/-- An operation of the element type, up to the point where it may throw. -/
def enter (mayThrow : Bool) : Act ν A T Unit := fun world =>
  if mayThrow then
    .ok (if types.throws world.operations then .error .element else .ok (),
      { world with operations := world.operations + 1 })
  else .ok (.ok (), world)

/-- The loop of the `uninitialized_` algorithms: a construction that throws has the elements
before it destroyed. -/
def uninitialized (constructOne : Nat → Act ν A T Unit) (result : Option Addr) (first : Nat) :
    (done left : Nat) → Act ν A T Unit
  | _, 0 => pure ()
  | done, left + 1 => do
      (constructOne done).catching fun exception => do
        destroyRange result first done
        .throw exception
      uninitialized constructOne result first (done + 1) left

/-- `dsac::construct(current, allocator, *first)`. -/
def copyOne (source : Option Addr) (first : Nat) (result : Option Addr) (resultFirst : Nat) (done : Nat) :
    Act ν A T Unit := do
  let value ← element source (first + done)
  enter types true
  construct result (resultFirst + done) value

/-- `dsac::construct(current, allocator, std::move(*first))`. -/
def moveOne (source : Option Addr) (first : Nat) (result : Option Addr) (resultFirst : Nat) (done : Nat) :
    Act ν A T Unit := do
  let value ← element source (first + done)
  enter types (!types.isNothrowMoveConstructible)
  assign source (first + done) (types.moved value)
  construct result (resultFirst + done) value

/-- The construction from a value outside the arrays. -/
def listOne (values : List T) (result : Option Addr) (done : Nat) : Act ν A T Unit := do
  match values[done]? with
  | none => .fault .outOfRange
  | some value =>
      enter types true
      construct result done value

def uninitializedMoveIfNoexcept (source : Option Addr) (count : Nat) (result : Option Addr) : Act ν A T Unit :=
  if !types.isNothrowMoveConstructible && types.isCopyConstructible then
    uninitialized (copyOne types source 0 result 0) result 0 0 count
  else uninitialized (moveOne types source 0 result 0) result 0 0 count

def allocateAndCopy (n : Nat) (constructOne : Option Addr → Nat → Act ν A T Unit) (count : Nat) (allocator : A) :
    Act ν A T (Option Addr) := do
  let result ← allocate types n allocator
  (do
    uninitialized (constructOne result) result 0 0 count
    return result : Act ν A T (Option Addr)).catching fun exception => do
      deallocate result allocator
      .throw exception

/-- The value of the new element, which moves it out of its source if it is moved. -/
def newElement (braces : Bool) (argument : Argument ν Args) : Act ν A T T :=
  match argument with
  | .args args => do
      enter types true
      return if braces then types.braced args else types.direct args
  | .element other index => do
      let value ← element (← load other).start index
      enter types true
      return if braces then types.bracedCopy value else value
  | .moved other index => do
      let start := (← load other).start
      let value ← element start index
      enter types (!types.isNothrowMoveConstructible || braces)
      assign start index (types.moved value)
      return if braces then types.bracedCopy value else value

/-- The arithmetic is that of `std::size_t`. -/
def twiceSize (currentSize : Nat) : Act ν A T Nat :=
  if (types.maxSize + 2 ^ 64 - currentSize) % 2 ^ 64 < 1 then .throw .rangeError
  else
    let len := (currentSize + max currentSize 1) % 2 ^ 64
    return if len < currentSize ∨ types.maxSize < len then types.maxSize else len

variable [DecidableEq ν]

/-- The new element is constructed as a temporary and moved to its slot. The handler finds
`new_finish` null, which is assigned last. -/
def reallocAndInsert (this : ν) (argument : Argument ν Args) : Act ν A T Unit := do
  let array ← load this
  let newSize ← twiceSize types array.finish
  let newStart ← allocate types newSize array.allocator_
  (do
    let value ← newElement types true argument
    enter types (!types.isNothrowMoveConstructible)
    construct newStart array.finish value
    uninitializedMoveIfNoexcept types array.start array.finish newStart : Act ν A T Unit).catching
      fun exception => do
        destroyAt newStart array.finish
        deallocate newStart array.allocator_
        .throw exception
  destroyRange array.start 0 array.finish
  deallocate array.start array.allocator_
  setArray this (some { array with start := newStart, finish := array.finish + 1, endOfStorage := newSize })

/-- `push_back` and `emplace_back`. -/
def pushBack (this : ν) (argument : Argument ν Args) : Act ν A T Unit := do
  let array ← load this
  if array.finish ≠ array.endOfStorage then
    construct array.start array.finish (← newElement types false argument)
    setArray this (some { array with finish := array.finish + 1 })
  else reallocAndInsert types this argument

def clear (this : ν) : Act ν A T Unit := do
  let array ← load this
  destroyRange array.start 0 array.finish
  setArray this (some { array with finish := 0 })

def reserve (this : ν) (n : Nat) : Act ν A T Unit :=
  if types.maxSize < n then .throw .rangeError
  else do
    let array ← load this
    if array.endOfStorage < n then
      let pointer ← allocateAndCopy types n (fun result => moveOne types array.start 0 result 0) array.finish
        array.allocator_
      destroyRange array.start 0 array.finish
      deallocate array.start array.allocator_
      setArray this (some { array with start := pointer, endOfStorage := n })

/-- `std::copy` between elements. -/
def copyElements (source result : Option Addr) : (first count : Nat) → Act ν A T Unit
  | _, 0 => pure ()
  | first, count + 1 => do
      let value ← element source first
      enter types true
      assign result first value
      copyElements source result (first + 1) count

/-- The part of `operator=` that replaces the allocator. -/
def propagate [DecidableEq A] (this other : ν) : Act ν A T Unit := do
  if types.propagateOnContainerCopyAssignment then
    let array ← load this
    let allocator := (← load other).allocator_
    if types.isAlwaysEqual ∧ array.allocator_ ≠ allocator then
      clear this
      deallocate array.start array.allocator_
      setArray this (some { allocator_ := array.allocator_ })
    setArray this (some { (← load this) with allocator_ := allocator })

/-- `operator=`. -/
def copyAssign [DecidableEq A] (this other : ν) : Act ν A T Unit :=
  if other = this then pure ()
  else do
    propagate types this other
    let array ← load this
    let source ← load other
    let xsize := source.finish
    if array.endOfStorage < xsize then
      let tmp ← allocateAndCopy types xsize (fun result => copyOne types source.start 0 result 0) xsize array.allocator_
      destroyRange array.start 0 array.finish
      deallocate array.start array.allocator_
      setArray this (some { array with start := tmp, finish := xsize, endOfStorage := xsize })
    else if xsize ≤ array.finish then
      copyElements types source.start array.start 0 xsize
      destroyRange array.start xsize (array.finish - xsize)
      setArray this (some { array with finish := xsize })
    else
      copyElements types source.start array.start 0 array.finish
      uninitialized (copyOne types source.start array.finish array.start array.finish) array.start array.finish 0
        (xsize - array.finish)
      setArray this (some { array with finish := xsize })

/-- The constructors that allocate: the elements are constructed in a new block, which the base
class deallocates if one of them throws. -/
def constructArray (this : ν) (count : Nat) (constructOne : Option Addr → Nat → Act ν A T Unit) (allocator : A) :
    Act ν A T Unit := do
  let start ← allocateAndCopy types count constructOne count allocator
  setArray this (some { allocator_ := allocator, start, finish := count, endOfStorage := count })

/-- The base class takes the block, and leaves null pointers. -/
def constructMove (this other : ν) : Act ν A T Unit := do
  let source ← load other
  setArray other (some { allocator_ := source.allocator_ })
  setArray this (some source)

def constructCopy (this other : ν) : Act ν A T Unit := do
  let source ← load other
  constructArray types this source.finish (fun result => copyOne types source.start 0 result 0)
    (types.selectOnContainerCopyConstruction source.allocator_)

def destructor (this : ν) : Act ν A T Unit := do
  let array ← load this
  destroyRange array.start 0 array.finish
  deallocate array.start array.allocator_
  setArray this none

/-- The calls on a family of arrays. -/
inductive Call (ν Args A T : Type) where
  | constructEmpty (this : ν) (allocator : A)
  | constructFill (this : ν) (n : Nat) (value : T) (allocator : A)
  | constructList (this : ν) (list : List T) (allocator : A)
  | constructCopy (this other : ν)
  | constructMove (this other : ν)
  | pushBack (this : ν) (argument : Argument ν Args)
  | reserve (this : ν) (n : Nat)
  | clear (this : ν)
  | copyAssign (this other : ν)
  | destructor (this : ν)
deriving DecidableEq, Repr

def perform [DecidableEq A] : Call ν Args A T → Act ν A T Unit
  | .constructEmpty this allocator => setArray this (some { allocator_ := allocator })
  | .constructFill this n value allocator => constructArray types this n (listOne types (List.replicate n value)) allocator
  | .constructList this list allocator => constructArray types this list.length (listOne types list) allocator
  | .constructCopy this other => constructCopy types this other
  | .constructMove this other => constructMove this other
  | .pushBack this argument => pushBack types this argument
  | .reserve this n => reserve types this n
  | .clear this => clear this
  | .copyAssign this other => copyAssign types this other
  | .destructor this => destructor this

/-- The caller catches what is thrown. -/
def step [DecidableEq A] (world : World ν A T) (call : Call ν Args A T) : Outcome (World ν A T) :=
  Prod.snd <$> perform types call world

/-- Numbers as elements, and numbered allocators. -/
def numbers : Types Nat Nat Nat where
  isNothrowMoveConstructible := true
  isCopyConstructible := true
  moved := id
  direct := id
  braced := id
  bracedCopy := id
  throws _ := false
  maxSize := 2 ^ 63 - 1
  maxSize_lt := by decide
  selectOnContainerCopyConstruction := id
  propagateOnContainerCopyAssignment := false
  isAlwaysEqual := false
  alwaysEqual := nofun

end Dsac.DynamicArrays

import Dsac.Container.DynamicArray

namespace Dsac.DynamicArrays

open Dsac.Library Dsac.Library.Action

/-! Which allocator a block goes back to, when copy assignment replaces the allocator. -/

variable {ν Args A T : Type}

/-- If there is a block at the pointer, it is from this allocator. -/
def AllocatedBy (allocator : A) (pointer : Option Addr) (world : World ν A T) : Prop :=
  ∀ address, pointer = some address → address < world.heap.fresh ∧
    ∀ block, world.heap.get address = some block → block.allocatedBy = allocator

/-- Every block that went back went to an equal allocator, and so would those of the arrays. -/
structure Matched (world : World ν A T) : Prop where
  returned : ∀ pair ∈ world.returned, pair.1 = pair.2
  arrays : ∀ this array, world.arrays this = some array → AllocatedBy array.allocator_ array.start world

/-- No block changed its allocator. -/
def Later (world next : World ν A T) : Prop :=
  ∀ (allocator : A) pointer, AllocatedBy allocator pointer world → AllocatedBy allocator pointer next

/-- The call keeps the blocks matched, if it does not fault. -/
def Keeps {α : Type} (action : Act ν A T α) (world : World ν A T) (returned : α → World ν A T → Prop) : Prop :=
  Matched world → EndsOr True action world (fun value next => Matched next ∧ Later world next ∧ returned value next)
    (fun _ next => Matched next ∧ Later world next)

variable {α β : Type} {world next : World ν A T} {allocator : A} {pointer : Option Addr}

theorem AllocatedBy.null : AllocatedBy allocator none world := fun _ impossible => nomatch impossible

theorem Later.refl (world : World ν A T) : Later world world := fun _ _ allocated => allocated

theorem Later.trans {middle : World ν A T} (first : Later world middle) (second : Later middle next) :
    Later world next := fun allocator pointer allocated => second allocator pointer (first allocator pointer allocated)

theorem Later.of_same (same : next.heap = world.heap) : Later world next := by
  intro allocator pointer allocated address points
  rw [same]
  exact allocated address points

/-- A block that is written keeps its allocator. -/
theorem Later.of_set {address : Addr} {block new : Block A T} (heap : next.heap = world.heap.set address new)
    (live : world.heap.get address = some block) (same : new.allocatedBy = block.allocatedBy) : Later world next := by
  intro allocator pointer allocated other points
  obtain ⟨inside, owner⟩ := allocated other points
  rw [heap]
  refine ⟨by rwa [Heap.fresh_set], fun found there => ?_⟩
  by_cases here : other = address
  · subst here
    rw [Heap.get_set_self inside] at there
    cases there
    rw [same]
    exact owner block live
  · rw [Heap.get_set_of_ne here] at there
    exact owner found there

theorem Later.of_alloc {block : Block A T} (heap : next.heap = world.heap.alloc block) : Later world next := by
  intro allocator pointer allocated address points
  obtain ⟨inside, owner⟩ := allocated address points
  rw [heap, Heap.fresh_alloc, Heap.get_alloc_of_ne (Nat.ne_of_lt inside)]
  exact ⟨Nat.lt_succ_of_lt inside, owner⟩

theorem Later.of_free {address : Addr} (heap : next.heap = world.heap.free address) : Later world next := by
  intro allocator pointer allocated other points
  obtain ⟨inside, owner⟩ := allocated other points
  rw [heap]
  refine ⟨by rwa [Heap.fresh_free], fun found there => ?_⟩
  by_cases here : other = address
  · rw [here, Heap.get_free_self] at there
    cases there
  · rw [Heap.get_free_of_ne here] at there
    exact owner found there

/-- The arrays and what went back are the same. -/
theorem Matched.later (matched : Matched world) (later : Later world next) (returned : next.returned = world.returned)
    (arrays : next.arrays = world.arrays) : Matched next where
  returned := by
    rw [returned]
    exact matched.returned
  arrays := by
    rw [arrays]
    exact fun this array found => later _ _ (matched.arrays this array found)

namespace Keeps

variable {action : Act ν A T α} {returned : α → World ν A T → Prop}

theorem pure {value : α} (holds : returned value world) : Keeps (pure value) world returned :=
  fun matched => ⟨matched, Later.refl world, holds⟩

theorem throw {exception : Exn} : Keeps (.throw exception) world returned :=
  fun matched => ⟨matched, Later.refl world⟩

theorem fault {reason : Fault} : Keeps (.fault reason) world returned := fun _ => trivial

theorem bind {following : α → Act ν A T β} {final : β → World ν A T → Prop} (first : Keeps action world returned)
    (second : ∀ value middle, Later world middle → returned value middle → Keeps (following value) middle final) :
    Keeps (action >>= following) world final := by
  intro matched
  apply EndsOr.bind
  apply (first matched).imp
  · rintro value middle ⟨after, later, holds⟩
    apply (second value middle later holds after).imp
    · exact fun _ _ ended => ⟨ended.1, later.trans ended.2.1, ended.2.2⟩
    · exact fun _ _ ended => ⟨ended.1, later.trans ended.2⟩
  · exact fun _ _ ended => ended

theorem catching {handler : Exn → Act ν A T α} (body : Keeps action world returned)
    (handled : ∀ exception middle, Later world middle → Keeps (handler exception) middle returned) :
    Keeps (action.catching handler) world returned := by
  intro matched
  apply EndsOr.catching
  apply (body matched).imp
  · exact fun _ _ ended => ended
  · rintro exception middle ⟨after, later⟩
    apply (handled exception middle later after).imp
    · exact fun _ _ ended => ⟨ended.1, later.trans ended.2.1, ended.2.2⟩
    · exact fun _ _ ended => ⟨ended.1, later.trans ended.2⟩

theorem imp {other : α → World ν A T → Prop} (keeps : Keeps action world returned)
    (weaker : ∀ value next, returned value next → other value next) : Keeps action world other := by
  intro matched
  apply (keeps matched).imp
  · exact fun value next ended => ⟨ended.1, ended.2.1, weaker value next ended.2.2⟩
  · exact fun _ _ ended => ended

end Keeps

theorem blockAt_keeps (pointer : Option Addr) : Keeps (blockAt pointer) world
    (fun found next => next.heap.get found.1 = some found.2) := by
  intro matched
  unfold EndsOr blockAt
  cases pointer with
  | none => trivial
  | some address =>
      simp only
      cases live : world.heap.get address with
      | none => trivial
      | some block => exact ⟨matched, Later.refl world, live⟩

theorem setSlot_keeps {address : Addr} {block : Block A T} {index : Nat} {slot : Option T}
    (live : world.heap.get address = some block) :
    Keeps (setSlot address block index slot) world (fun _ _ => True) := by
  intro matched
  apply EndsOr.modify
  have later : Later world { world with
      heap := world.heap.set address { block with slots := block.slots.set index slot } } :=
    Later.of_set rfl live rfl
  exact ⟨matched.later later rfl rfl, later, trivial⟩

theorem element_keeps (pointer : Option Addr) (index : Nat) : Keeps (element pointer index) world (fun _ _ => True) := by
  apply Keeps.bind (blockAt_keeps pointer)
  rintro ⟨address, block⟩ middle _ _
  simp only
  split
  · exact Keeps.pure trivial
  · exact Keeps.fault
  · exact Keeps.fault

theorem assign_keeps (pointer : Option Addr) (index : Nat) (value : T) :
    Keeps (assign pointer index value) world (fun _ _ => True) := by
  apply Keeps.bind (blockAt_keeps pointer)
  rintro ⟨address, block⟩ middle _ live
  simp only
  split
  · exact setSlot_keeps live
  · exact Keeps.fault
  · exact Keeps.fault

theorem construct_keeps (pointer : Option Addr) (index : Nat) (value : T) :
    Keeps (construct pointer index value) world (fun _ _ => True) := by
  apply Keeps.bind (blockAt_keeps pointer)
  rintro ⟨address, block⟩ middle _ live
  simp only
  split
  · exact setSlot_keeps live
  · intro matched
    apply EndsOr.bind
    apply EndsOr.modify
    exact setSlot_keeps live (matched.later (Later.of_same rfl) rfl rfl)
  · exact Keeps.fault

theorem destroyAt_keeps (pointer : Option Addr) (index : Nat) :
    Keeps (destroyAt pointer index) world (fun _ _ => True) := by
  apply Keeps.bind (blockAt_keeps pointer)
  rintro ⟨address, block⟩ middle _ live
  simp only
  split
  · exact setSlot_keeps live
  · exact Keeps.fault
  · exact Keeps.fault

theorem destroyRange_keeps (pointer : Option Addr) (first count : Nat) :
    Keeps (destroyRange pointer first count) world (fun _ _ => True) := by
  induction count generalizing world first with
  | zero => exact Keeps.pure trivial
  | succ count ih =>
      apply Keeps.bind (destroyAt_keeps pointer first)
      intro _ middle _ _
      exact ih (first + 1)

/-- The block goes back to the allocator that it is from. -/
theorem deallocate_keeps (allocated : AllocatedBy allocator pointer world) :
    Keeps (deallocate pointer allocator) world (fun _ _ => True) := by
  cases pointer with
  | none => exact Keeps.pure trivial
  | some address =>
      intro matched
      unfold deallocate EndsOr
      simp only [Bind.bind, blockAt]
      cases live : world.heap.get address with
      | none => trivial
      | some block =>
          simp only [Action.modify]
          have owner := (allocated address rfl).2 block live
          have later : Later world { world with
              heap := world.heap.free address
              returned := world.returned ++ [(block.allocatedBy, allocator)]
              lost := world.lost + block.slots.countP (·.isSome) } := Later.of_free rfl
          refine ⟨⟨?_, fun this array found => later _ _ (matched.arrays this array found)⟩, later, trivial⟩
          intro pair member
          rcases List.mem_append.mp member with old | new
          · exact matched.returned pair old
          · rw [List.mem_singleton.mp new]
            exact owner

theorem load_keeps (this : ν) : Keeps (load this) world
    (fun array next => next = world ∧ world.arrays this = some array ∧ AllocatedBy array.allocator_ array.start world) := by
  intro matched
  unfold EndsOr load
  cases found : world.arrays this with
  | none => trivial
  | some array => exact ⟨matched, Later.refl world, rfl, rfl, matched.arrays this array found⟩

theorem setArray_keeps [DecidableEq ν] {this : ν} {array : Option (DynamicArray A)}
    (allocated : ∀ new, array = some new → AllocatedBy new.allocator_ new.start world) :
    Keeps (setArray this array) world (fun _ next => next.heap = world.heap ∧
      next.arrays = Function.update world.arrays this array) := by
  intro matched
  apply EndsOr.modify
  refine ⟨⟨matched.returned, fun other found there => ?_⟩, Later.of_same rfl, rfl, rfl⟩
  by_cases same : other = this
  · subst same
    exact allocated found (by simpa only [Function.update_self] using there)
  · exact matched.arrays other found (by simpa only [Function.update_of_ne same] using there)

variable {types : Types Args A T}

theorem newBlock_keeps (n : Nat) : Keeps (newBlock n allocator) world (AllocatedBy allocator) := by
  intro matched
  have later : Later world { world with
      heap := world.heap.alloc { allocatedBy := allocator, slots := List.replicate n none } } := Later.of_alloc rfl
  refine ⟨matched.later later rfl rfl, later, ?_⟩
  intro address points
  cases points
  refine ⟨by simp only [Heap.fresh_alloc, Nat.lt_succ_self], fun block live => ?_⟩
  rw [Heap.get_alloc_fresh] at live
  cases live
  rfl

theorem allocate_keeps (n : Nat) : Keeps (allocate types n allocator) world (AllocatedBy allocator) := by
  unfold allocate
  split
  · exact Keeps.pure AllocatedBy.null
  · split
    · exact Keeps.throw
    · exact newBlock_keeps n

theorem enter_keeps (mayThrow : Bool) : Keeps (enter types mayThrow) world (fun _ _ => True) := by
  intro matched
  unfold EndsOr enter
  have after : Matched { world with operations := world.operations + 1 } := matched.later (Later.of_same rfl) rfl rfl
  have later : Later world { world with operations := world.operations + 1 } := Later.of_same rfl
  cases mayThrow with
  | false => exact ⟨matched, Later.refl world, trivial⟩
  | true => cases types.throws world.operations with
      | false => exact ⟨after, later, trivial⟩
      | true => exact ⟨after, later⟩

theorem uninitialized_keeps {constructOne : Nat → Act ν A T Unit} (result : Option Addr) (first done left : Nat)
    (one : ∀ done world, Keeps (constructOne done) world (fun _ _ => True)) :
    Keeps (uninitialized constructOne result first done left) world (fun _ _ => True) := by
  induction left generalizing world done with
  | zero => exact Keeps.pure trivial
  | succ left ih =>
      refine @Keeps.bind _ _ _ _ _ _ _ (fun _ _ => True) _ _ ?_ ?_
      · apply Keeps.catching (one done world)
        intro exception middle _
        apply Keeps.bind (destroyRange_keeps result first done)
        exact fun _ _ _ _ => Keeps.throw
      · exact fun _ _ _ _ => ih (done + 1)

theorem copyOne_keeps (source : Option Addr) (first : Nat) (result : Option Addr) (resultFirst done : Nat) :
    Keeps (copyOne types source first result resultFirst done) world (fun _ _ => True) := by
  apply Keeps.bind (element_keeps source _)
  intro value _ _ _
  apply Keeps.bind (enter_keeps true)
  intro _ _ _ _
  exact construct_keeps result _ value

theorem moveOne_keeps (source : Option Addr) (first : Nat) (result : Option Addr) (resultFirst done : Nat) :
    Keeps (moveOne types source first result resultFirst done) world (fun _ _ => True) := by
  apply Keeps.bind (element_keeps source _)
  intro value _ _ _
  apply Keeps.bind (enter_keeps _)
  intro _ _ _ _
  apply Keeps.bind (assign_keeps source _ _)
  intro _ _ _ _
  exact construct_keeps result _ value

theorem listOne_keeps (values : List T) (result : Option Addr) (done : Nat) :
    Keeps (listOne types values result done) world (fun _ _ => True) := by
  unfold listOne
  split
  · exact Keeps.fault
  · apply Keeps.bind (enter_keeps true)
    intro _ _ _ _
    exact construct_keeps result done _

theorem allocateAndCopy_keeps (n : Nat) {constructOne : Option Addr → Nat → Act ν A T Unit} (count : Nat)
    (one : ∀ result done world, Keeps (constructOne result done) world (fun _ _ => True)) :
    Keeps (allocateAndCopy types n constructOne count allocator) world (AllocatedBy allocator) := by
  apply Keeps.bind (allocate_keeps n)
  intro pointer middle _ allocated
  apply Keeps.catching
  · apply Keeps.bind (uninitialized_keeps pointer 0 0 count (one pointer))
    exact fun _ _ later _ => Keeps.pure (later _ _ allocated)
  · intro exception after later
    apply Keeps.bind (deallocate_keeps (later _ _ allocated))
    exact fun _ _ _ _ => Keeps.throw

theorem uninitializedMoveIfNoexcept_keeps (source : Option Addr) (count : Nat) (result : Option Addr) :
    Keeps (uninitializedMoveIfNoexcept types source count result) world (fun _ _ => True) := by
  unfold uninitializedMoveIfNoexcept
  split
  · exact uninitialized_keeps result 0 0 count fun done _ => copyOne_keeps source 0 result 0 done
  · exact uninitialized_keeps result 0 0 count fun done _ => moveOne_keeps source 0 result 0 done

theorem newElement_keeps (braces : Bool) (argument : Argument ν Args) :
    Keeps (newElement types braces argument) world (fun _ _ => True) := by
  cases argument with
  | args args =>
      apply Keeps.bind (enter_keeps true)
      exact fun _ _ _ _ => Keeps.pure trivial
  | element other index =>
      apply Keeps.bind (load_keeps other)
      intro array _ _ _
      apply Keeps.bind (element_keeps array.start index)
      intro _ _ _ _
      apply Keeps.bind (enter_keeps true)
      exact fun _ _ _ _ => Keeps.pure trivial
  | moved other index =>
      apply Keeps.bind (load_keeps other)
      intro array _ _ _
      apply Keeps.bind (element_keeps array.start index)
      intro _ _ _ _
      apply Keeps.bind (enter_keeps _)
      intro _ _ _ _
      apply Keeps.bind (assign_keeps array.start index _)
      exact fun _ _ _ _ => Keeps.pure trivial

theorem twiceSize_keeps (currentSize : Nat) :
    Keeps (twiceSize types currentSize) world (fun _ _ => True) := by
  unfold twiceSize
  split
  · exact Keeps.throw
  · exact Keeps.pure trivial

theorem copyElements_keeps (source result : Option Addr) (first count : Nat) :
    Keeps (copyElements types source result first count) world (fun _ _ => True) := by
  induction count generalizing world first with
  | zero => exact Keeps.pure trivial
  | succ count ih =>
      apply Keeps.bind (element_keeps source first)
      intro value _ _ _
      apply Keeps.bind (enter_keeps true)
      intro _ _ _ _
      apply Keeps.bind (assign_keeps result first value)
      intro _ _ _ _
      exact ih (first + 1)

variable [DecidableEq ν]

theorem setArray_matched {this : ν} {array : Option (DynamicArray A)}
    (allocated : ∀ new, array = some new → AllocatedBy new.allocator_ new.start world) :
    Keeps (setArray this array) world (fun _ _ => True) :=
  (setArray_keeps allocated).imp fun _ _ _ => trivial

/-- The old elements and their block are released, and the array has another block. -/
theorem replace_keeps {this : ν} {array new : DynamicArray A} (count : Nat)
    (old : AllocatedBy array.allocator_ array.start world) (allocated : AllocatedBy new.allocator_ new.start world) :
    Keeps (do
      destroyRange array.start 0 count
      deallocate array.start array.allocator_
      setArray this (some new)) world (fun _ _ => True) := by
  apply Keeps.bind (destroyRange_keeps array.start 0 count)
  intro _ middle later _
  apply Keeps.bind (deallocate_keeps (later _ _ old))
  intro _ after further _
  apply setArray_matched
  intro found same
  cases same
  exact further _ _ (later _ _ allocated)

theorem reallocAndInsert_keeps (this : ν) (argument : Argument ν Args) :
    Keeps (reallocAndInsert types this argument) world (fun _ _ => True) := by
  apply Keeps.bind (load_keeps this)
  rintro array _ _ ⟨rfl, _, old⟩
  apply Keeps.bind (twiceSize_keeps array.finish)
  intro newSize _ sized _
  apply Keeps.bind (allocate_keeps newSize)
  intro newStart _ made allocated
  refine @Keeps.bind _ _ _ _ _ _ _ (fun _ _ => True) _ _ ?_ ?_
  · apply Keeps.catching
    · apply Keeps.bind (newElement_keeps true argument)
      intro value _ _ _
      apply Keeps.bind (enter_keeps _)
      intro _ _ _ _
      apply Keeps.bind (construct_keeps newStart array.finish value)
      intro _ _ _ _
      exact uninitializedMoveIfNoexcept_keeps array.start array.finish newStart
    · intro exception _ later
      apply Keeps.bind (destroyAt_keeps newStart array.finish)
      intro _ _ further _
      apply Keeps.bind (deallocate_keeps (further _ _ (later _ _ allocated)))
      exact fun _ _ _ _ => Keeps.throw
  · intro _ _ filled _
    exact replace_keeps _ (filled _ _ (made _ _ (sized _ _ old))) (filled _ _ allocated)

theorem pushBack_keeps (this : ν) (argument : Argument ν Args) :
    Keeps (pushBack types this argument) world (fun _ _ => True) := by
  apply Keeps.bind (load_keeps this)
  rintro array _ _ ⟨rfl, _, old⟩
  split
  · apply Keeps.bind (newElement_keeps false argument)
    intro value _ made _
    apply Keeps.bind (construct_keeps array.start array.finish value)
    intro _ _ built _
    apply setArray_matched
    intro found same
    cases same
    exact built _ _ (made _ _ old)
  · exact reallocAndInsert_keeps this argument

theorem clear_keeps (this : ν) : Keeps (clear this) world (fun _ _ => True) := by
  apply Keeps.bind (load_keeps this)
  rintro array _ _ ⟨rfl, _, old⟩
  apply Keeps.bind (destroyRange_keeps array.start 0 array.finish)
  intro _ _ later _
  apply setArray_matched
  intro found same
  cases same
  exact later _ _ old

theorem reserve_keeps (this : ν) (n : Nat) : Keeps (reserve types this n) world (fun _ _ => True) := by
  unfold reserve
  split
  · exact Keeps.throw
  · apply Keeps.bind (load_keeps this)
    rintro array _ _ ⟨rfl, _, old⟩
    split
    · apply Keeps.bind (allocateAndCopy_keeps n array.finish fun result done _ => moveOne_keeps array.start 0 result 0 done)
      intro pointer _ later allocated
      exact replace_keeps _ (later _ _ old) allocated
    · exact Keeps.pure trivial

theorem constructArray_keeps (this : ν) {count : Nat} {constructOne : Option Addr → Nat → Act ν A T Unit}
    (one : ∀ result done world, Keeps (constructOne result done) world (fun _ _ => True)) :
    Keeps (constructArray types this count constructOne allocator) world (fun _ _ => True) := by
  apply Keeps.bind (allocateAndCopy_keeps count count one)
  intro start _ _ allocated
  apply setArray_matched
  intro found same
  cases same
  exact allocated

theorem destructor_keeps (this : ν) : Keeps (destructor this) world (fun _ _ => True) := by
  apply Keeps.bind (load_keeps this)
  rintro array _ _ ⟨rfl, _, old⟩
  apply Keeps.bind (destroyRange_keeps array.start 0 array.finish)
  intro _ _ later _
  apply Keeps.bind (deallocate_keeps (later _ _ old))
  intro _ _ _ _
  apply setArray_matched
  intro found impossible
  cases impossible

/-- A copy assignment to an array that has a block is from the array itself or from one with
an equal allocator. -/
def EqualAllocators (world : World ν A T) : Call ν Args A T → Prop
  | .copyAssign this other => other = this ∨ ∀ array ∈ world.arrays this, ∀ source ∈ world.arrays other,
      array.start = none ∨ array.allocator_ = source.allocator_
  | _ => True

variable [DecidableEq A]

instance (world : World ν A T) : (call : Call ν Args A T) → Decidable (EqualAllocators world call)
  | .copyAssign this other => inferInstanceAs (Decidable (other = this ∨ ∀ array ∈ world.arrays this,
      ∀ source ∈ world.arrays other, array.start = none ∨ array.allocator_ = source.allocator_))
  | .constructEmpty .. | .constructFill .. | .constructList .. | .constructCopy .. | .constructMove .. | .pushBack ..
  | .reserve .. | .clear .. | .destructor .. => inferInstanceAs (Decidable True)

theorem propagate_keeps (propagates : types.propagateOnContainerCopyAssignment = true)
    (unequal : types.isAlwaysEqual = false) {this other : ν}
    (equal : ∀ array ∈ world.arrays this, ∀ source ∈ world.arrays other,
      array.start = none ∨ array.allocator_ = source.allocator_) :
    Keeps (propagate types this other) world (fun _ _ => True) := by
  simp only [propagate, propagates, unequal, if_true, Bool.false_eq_true, false_and, if_false]
  apply Keeps.bind (load_keeps this)
  rintro array _ _ ⟨rfl, found, old⟩
  apply Keeps.bind (load_keeps other)
  rintro source _ _ ⟨rfl, read, _⟩
  apply Keeps.bind (load_keeps this)
  rintro again _ _ ⟨rfl, same, _⟩
  cases found.symm.trans same
  apply setArray_matched
  intro new given
  cases given
  rcases equal array found source read with null | equals
  · rw [null]
    exact AllocatedBy.null
  · rw [← equals]
    exact old

theorem copyAssign_keeps (propagates : types.propagateOnContainerCopyAssignment = true)
    (unequal : types.isAlwaysEqual = false) {this other : ν}
    (equal : EqualAllocators world (.copyAssign this other : Call ν Args A T)) :
    Keeps (copyAssign types this other) world (fun _ _ => True) := by
  unfold copyAssign
  split
  · exact Keeps.pure trivial
  rename_i differ
  apply Keeps.bind (propagate_keeps propagates unequal (equal.resolve_left differ))
  intro _ _ _ _
  apply Keeps.bind (load_keeps this)
  rintro array _ _ ⟨rfl, _, old⟩
  apply Keeps.bind (load_keeps other)
  rintro source _ _ ⟨rfl, _, _⟩
  dsimp only
  split
  · apply Keeps.bind (allocateAndCopy_keeps source.finish source.finish fun result done _ => copyOne_keeps source.start 0 result 0 done)
    intro tmp _ later allocated
    exact replace_keeps _ (later _ _ old) allocated
  · split
    · apply Keeps.bind (copyElements_keeps source.start array.start 0 source.finish)
      intro _ _ copied _
      apply Keeps.bind (destroyRange_keeps array.start source.finish (array.finish - source.finish))
      intro _ _ destroyed _
      apply setArray_matched
      intro new given
      cases given
      exact destroyed _ _ (copied _ _ old)
    · apply Keeps.bind (copyElements_keeps source.start array.start 0 array.finish)
      intro _ _ copied _
      apply Keeps.bind (uninitialized_keeps array.start array.finish 0 (source.finish - array.finish)
        fun done _ => copyOne_keeps source.start array.finish array.start array.finish done)
      intro _ _ built _
      apply setArray_matched
      intro new given
      cases given
      exact built _ _ (copied _ _ old)

/-- Every call keeps the blocks matched if a copy assignment has equal allocators. -/
theorem perform_keeps (propagates : types.propagateOnContainerCopyAssignment = true)
    (unequal : types.isAlwaysEqual = false) (call : Call ν Args A T) (equal : EqualAllocators world call) :
    Keeps (perform types call) world (fun _ _ => True) := by
  cases call with
  | constructEmpty this allocator =>
      apply setArray_matched
      intro new given
      cases given
      exact AllocatedBy.null
  | constructFill this n value allocator => exact constructArray_keeps this fun result done _ => listOne_keeps _ result done
  | constructList this list allocator => exact constructArray_keeps this fun result done _ => listOne_keeps _ result done
  | constructCopy this other =>
      apply Keeps.bind (load_keeps other)
      intro source _ _ _
      exact constructArray_keeps this fun result done _ => copyOne_keeps source.start 0 result 0 done
  | constructMove this other =>
      apply Keeps.bind (load_keeps other)
      rintro source _ _ ⟨rfl, _, old⟩
      apply Keeps.bind (setArray_matched fun new given => by cases given; exact AllocatedBy.null)
      intro _ _ later _
      apply setArray_matched
      intro new given
      cases given
      exact later _ _ old
  | pushBack this argument => exact pushBack_keeps this argument
  | reserve this n => exact reserve_keeps this n
  | clear this => exact clear_keeps this
  | copyAssign this other => exact copyAssign_keeps propagates unequal equal
  | destructor this => exact destructor_keeps this

/-- Blocks go back to the allocators that they are from, in every run whose copy assignments
to an array with a block are from an equal allocator. -/
theorem runs_match_allocators (propagates : types.propagateOnContainerCopyAssignment = true)
    (unequal : types.isAlwaysEqual = false) {calls : List (Call ν Args A T)} {last : World ν A T}
    (equal : Meets (step types) EqualAllocators {} calls) (ran : run (step types) {} calls = .ok last) :
    ∀ pair ∈ last.returned, pair.1 = pair.2 := by
  have start : Matched ({} : World ν A T) :=
    ⟨fun _ member => absurd member List.not_mem_nil, fun _ _ impossible => nomatch impossible⟩
  have kept : ∀ (past : List (Call ν Args A T)) (world : World ν A T) call, Matched world → EqualAllocators world call →
      (∃ next, step types world call = .ok next ∧ Matched next) ∨ ∃ reason, step types world call = .error reason ∧ True := by
    intro past world call matched equal
    have ends := perform_keeps propagates unequal call equal matched
    unfold EndsOr at ends
    cases result : perform types call world with
    | error reason => exact .inr ⟨reason, by rw [step, result]; rfl, trivial⟩
    | ok pair =>
        obtain ⟨outcome, next⟩ := pair
        rw [result] at ends
        refine .inl ⟨next, by rw [step, result]; rfl, ?_⟩
        cases outcome with
        | ok value => exact ends.1
        | error exception => exact ends.1
  rcases @run_outcome _ _ _ (step types) EqualAllocators (fun _ => Matched) (fun _ => True) kept [] {} start calls equal with
    ⟨final, same, matched⟩ | ⟨reason, failed, _⟩
  · cases ran.symm.trans same
    exact matched.returned
  · cases ran.symm.trans failed

/-- An array that is assigned from one with the same allocator, and destroyed. -/
theorem runs_match_allocators_same :
    ∃ last : World Bool Nat Nat,
      run (step { numbers with propagateOnContainerCopyAssignment := true }) {}
        [.constructFill false 1 5 1, .constructFill true 1 6 1, .copyAssign false true, .destructor false] = .ok last ∧
      last.returned = [(1, 1)] ∧ ∀ pair ∈ last.returned, pair.1 = pair.2 :=
  ⟨_, rfl, rfl, @runs_match_allocators Bool Nat Nat Nat { numbers with propagateOnContainerCopyAssignment := true } _ _ rfl rfl
    [.constructFill false 1 5 1, .constructFill true 1 6 1, .copyAssign false true, .destructor false] _ (by decide) rfl⟩

/-- The array keeps its block when it takes an unequal allocator, to which the block goes back. -/
theorem runs_mismatch_allocators :
    ∃ last : World Bool Nat Nat,
      run (step { numbers with propagateOnContainerCopyAssignment := true }) {}
        [.constructFill false 1 5 1, .constructFill true 1 6 2, .copyAssign false true, .destructor false] = .ok last ∧
      (1, 2) ∈ last.returned :=
  ⟨_, rfl, by decide⟩

end Dsac.DynamicArrays

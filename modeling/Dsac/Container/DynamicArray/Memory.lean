import Dsac.Container.DynamicArray

namespace Dsac.DynamicArrays

open Dsac.Library Dsac.Library.Action

/-! What the algorithms on uninitialized memory do to the blocks. -/

variable {ν Args A T : Type}

/-- The slots behind a pointer. -/
def Points (world : World ν A T) (pointer : Option Addr) (slots : List (Option T)) : Prop :=
  match pointer with
  | none => slots = []
  | some address => ∃ owner, world.heap.get address = some ⟨owner, slots⟩

/-- The block at a pointer. -/
def At (pointer : Option Addr) : Addr → Prop := fun address => pointer = some address

/-- Only the blocks that were touched changed, in a number of operations that may throw. -/
structure Within (touched : Addr → Prop) (entered : Nat) (world next : World ν A T) : Prop where
  outside : ∀ address, ¬ touched address → next.heap.get address = world.heap.get address
  arrays : next.arrays = world.arrays
  operations : next.operations = world.operations + entered
  lost : next.lost = world.lost

variable {world middle next : World ν A T} {touched wider : Addr → Prop} {entered more : Nat}
  {pointer other : Option Addr} {slots before after : List (Option T)} {slot : Option T} {value : T} {index : Nat}

theorem Within.refl (touched : Addr → Prop) (world : World ν A T) : Within touched 0 world world :=
  ⟨fun _ _ => rfl, rfl, rfl, rfl⟩

theorem Within.trans (first : Within touched entered world middle) (second : Within touched more middle next) :
    Within touched (entered + more) world next where
  outside address untouched := (second.outside address untouched).trans (first.outside address untouched)
  arrays := second.arrays.trans first.arrays
  operations := by rw [second.operations, first.operations, Nat.add_assoc]
  lost := second.lost.trans first.lost

theorem Within.mono (within : Within touched entered world next) (wide : ∀ address, touched address → wider address) :
    Within wider entered world next :=
  { within with outside := fun address untouched => within.outside address fun inside => untouched (wide address inside) }

theorem Within.of_nowhere (within : Within (fun _ => False) entered world next) : Within touched entered world next :=
  within.mono fun _ impossible => impossible.elim

theorem Points.frame (points : Points world pointer slots)
    (same : ∀ address, pointer = some address → next.heap.get address = world.heap.get address) : Points next pointer slots := by
  cases pointer with
  | none => exact points
  | some address =>
      obtain ⟨owner, live⟩ := points
      exact ⟨owner, (same address rfl).trans live⟩

/-- A block that was not touched. -/
theorem Points.within (points : Points world pointer slots) (within : Within touched entered world next)
    (untouched : ∀ address, pointer = some address → ¬ touched address) : Points next pointer slots :=
  points.frame fun address here => within.outside address (untouched address here)

theorem Points.unique {others : List (Option T)} (one : Points world pointer slots) (two : Points world pointer others) :
    slots = others := by
  cases pointer with
  | none => exact Eq.trans one (Eq.symm two)
  | some address =>
      obtain ⟨owner, live⟩ := one
      obtain ⟨owner', live'⟩ := two
      cases live.symm.trans live'
      rfl

theorem slots_at (length : before.length = index) : (before ++ slot :: after)[index]? = some slot := by
  subst length
  simp

theorem set_at {new : Option T} (length : before.length = index) :
    (before ++ slot :: after).set index new = before ++ new :: after := by
  subst length
  simp

section

variable {α : Type} {returned : α → World ν A T → Prop} {thrown : Exn → World ν A T → Prop}

/-- What follows the check that there is a block. -/
theorem blockAt_ends {following : Addr × Block A T → Act ν A T α} (points : Points world pointer (before ++ slot :: after))
    (ends : ∀ address owner, pointer = some address → world.heap.get address = some ⟨owner, before ++ slot :: after⟩ →
      Ends (following (address, ⟨owner, before ++ slot :: after⟩)) world returned thrown) :
    Ends (blockAt pointer >>= following) world returned thrown := by
  cases pointer with
  | none => exact absurd points (by simp [Points])
  | some address =>
      obtain ⟨owner, live⟩ := points
      apply EndsOr.bind
      apply EndsOr.of_returned (by simp only [blockAt, live]; rfl)
      exact ends address owner rfl live

theorem element_ends {returned : T → World ν A T → Prop} (points : Points world pointer (before ++ some value :: after))
    (length : before.length = index) (holds : returned value world) : Ends (element pointer index) world returned thrown := by
  apply blockAt_ends points
  intro address owner _ _
  simp only [slots_at length]
  exact holds

end

section

variable {returned : Unit → World ν A T → Prop} {thrown : Exn → World ν A T → Prop}

theorem setSlot_ends {address : Addr} {owner : A} (live : world.heap.get address = some ⟨owner, before ++ slot :: after⟩)
    (length : before.length = index) (new : Option T)
    (holds : ∀ next, Within (At (some address)) 0 world next → Points next (some address) (before ++ new :: after) →
      returned () next) :
    Ends (setSlot address ⟨owner, before ++ slot :: after⟩ index new) world returned thrown := by
  apply EndsOr.modify
  apply holds
  · refine ⟨fun other untouched => ?_, rfl, rfl, rfl⟩
    exact Heap.get_set_of_ne fun same => untouched (congrArg some same.symm)
  · refine ⟨owner, ?_⟩
    rw [← @set_at _ before after slot index new length]
    exact Heap.get_set_self (Heap.lt_fresh_of_get live)

theorem construct_ends (points : Points world pointer (before ++ none :: after)) (length : before.length = index) (value : T)
    (holds : ∀ next, Within (At pointer) 0 world next → Points next pointer (before ++ some value :: after) →
      returned () next) :
    Ends (construct pointer index value) world returned thrown := by
  apply blockAt_ends points
  intro address owner here live
  subst here
  simp only [slots_at length]
  exact setSlot_ends live length _ holds

theorem destroyAt_ends (points : Points world pointer (before ++ some value :: after)) (length : before.length = index)
    (holds : ∀ next, Within (At pointer) 0 world next → Points next pointer (before ++ none :: after) → returned () next) :
    Ends (destroyAt pointer index) world returned thrown := by
  apply blockAt_ends points
  intro address owner here live
  subst here
  simp only [slots_at length]
  exact setSlot_ends live length _ holds

theorem assign_ends (points : Points world pointer (before ++ some value :: after)) (length : before.length = index) (new : T)
    (holds : ∀ next, Within (At pointer) 0 world next → Points next pointer (before ++ some new :: after) →
      returned () next) :
    Ends (assign pointer index new) world returned thrown := by
  apply blockAt_ends points
  intro address owner here live
  subst here
  simp only [slots_at length]
  exact setSlot_ends live length _ holds

/-- The destruction of some elements in a row. -/
theorem destroyRange_ends (values : List T) (points : Points world pointer (before ++ (values.map some ++ after)))
    (length : before.length = index)
    (holds : ∀ next, Within (At pointer) 0 world next →
      Points next pointer (before ++ (List.replicate values.length none ++ after)) → returned () next) :
    Ends (destroyRange pointer index values.length) world returned thrown := by
  induction values generalizing world before index with
  | nil =>
      apply EndsOr.pure
      exact holds world (Within.refl _ _) points
  | cons value values ih =>
      apply EndsOr.bind
      apply destroyAt_ends points length
      intro middle changed reached
      have here : Points middle pointer ((before ++ [none]) ++ (values.map some ++ after)) := by
        rwa [List.append_assoc]
      apply ih here (by rw [List.length_append, length]; rfl)
      intro next rest finished
      rw [List.append_assoc] at finished
      exact holds next (changed.trans rest) finished

end

end Dsac.DynamicArrays

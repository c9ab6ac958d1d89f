import Dsac.Container.DynamicArray.Runs

namespace Dsac.DynamicArrays

open Dsac.Library Dsac.Library.Action

/-! Runs in which constructors and assignments of the elements throw. -/

variable {ν Args A T : Type} {types : Types Args A T} {world next : World ν A T} {lists : Lists ν T} {this : ν}
  {array : DynamicArray A}

/-- Every block is that of one array, with an element in each slot before `finish` and in no other. -/
structure Clean (world : World ν A T) : Prop where
  live : ∀ this array address, world.arrays this = some array → array.start = some address →
    ∃ block, world.heap.get address = some block ∧ block.slots.length = array.endOfStorage ∧
      ∀ index, (∃ value, block.slots[index]? = some (some value)) ↔ index < array.finish
  owned : ∀ address block, world.heap.get address = some block → ∃ this array, world.arrays this = some array ∧ array.start = some address
  apart : ∀ this other array another address, world.arrays this = some array → world.arrays other = some another →
    array.start = some address → another.start = some address → this = other
  lost : world.lost = 0

theorem Represents.clean (represents : Represents types none world lists) : Clean world where
  live this array address found here := by
    obtain ⟨list, _, held⟩ := represents.holds found
    have points := held.points
    rw [here] at points
    obtain ⟨owner, live⟩ := points
    refine ⟨_, live, ?_, ?_⟩
    · have room := held.room
      rw [List.length_append, List.length_map, List.length_replicate]
      omega
    · intro index
      rw [held.finish]
      by_cases inside : index < list.length
      · simp [inside, List.getElem?_append_left]
      · rw [List.getElem?_append_right (by simpa using inside), List.getElem?_replicate]
        simp [inside]
  owned address block live := (represents.owned address block live).resolve_left nofun
  apart := represents.apart
  lost := represents.lost

theorem enter_throws {mayThrow : Bool} {returned : Unit → World ν A T → Prop} {thrown : Exn → World ν A T → Prop}
    (may : mayThrow = true) (throws : types.throws world.operations = true)
    (fails : ∀ next, Within (fun _ => False) 1 world next → thrown .element next) :
    Ends (enter types mayThrow) world returned thrown := by
  subst may
  unfold Ends EndsOr enter
  simp only [throws, if_true]
  exact fails _ ⟨fun _ _ => rfl, rfl, rfl, rfl⟩

/-- There is no element in the slot. -/
theorem destroyAt_faults {pointer : Option Addr} {before after : List (Option T)} {index : Nat}
    (points : Points world pointer (before ++ none :: after)) (length : before.length = index) :
    ∃ reason, destroyAt pointer index world = .error reason := by
  cases pointer with
  | none => simp [Points] at points
  | some address =>
      obtain ⟨owner, live⟩ := points
      refine ⟨.destroyedNode, ?_⟩
      simp only [destroyAt, blockAt, live, Bind.bind, slots_at length]
      rfl

section

variable {argument : Argument ν Args}

theorem newElement_throws {loose : Option Addr} (represents : Represents types loose world lists)
    (valid : argument.Valid world) (throws : types.throws world.operations = true)
    {returned : T → World ν A T → Prop} {thrown : Exn → World ν A T → Prop}
    (fails : ∀ next, Within (fun _ => False) 1 world next → thrown .element next) :
    Ends (newElement types true argument) world returned thrown := by
  cases argument with
  | args given =>
      apply EndsOr.bind
      exact enter_throws rfl throws fails
  | element other index =>
      obtain ⟨array, found, inside⟩ := valid
      obtain ⟨list, known, held⟩ := represents.holds found
      rw [held.finish] at inside
      have points := held.points
      have here := List.getElem?_eq_getElem inside
      rw [map_some_split here, List.append_assoc, List.cons_append] at points
      apply load_ends found
      apply EndsOr.bind
      apply element_ends points (length_map_some_take here)
      apply EndsOr.bind
      exact enter_throws rfl throws fails
  | moved other index =>
      obtain ⟨array, found, inside⟩ := valid
      obtain ⟨list, known, held⟩ := represents.holds found
      rw [held.finish] at inside
      have points := held.points
      have here := List.getElem?_eq_getElem inside
      rw [map_some_split here, List.append_assoc, List.cons_append] at points
      apply load_ends found
      apply EndsOr.bind
      apply element_ends points (length_map_some_take here)
      apply EndsOr.bind
      exact enter_throws (Bool.or_true _) throws fails

variable [DecidableEq ν]

/-- The handler of `realloc_and_insert` destroys the slot of the new element, which was not constructed. -/
theorem pushBack_faults (represents : Represents types none world lists) (valid : argument.Valid world)
    (unrest : ¬ Calm types world (.pushBack this argument)) : ∃ reason, pushBack types this argument world = .error reason := by
  simp only [Calm, not_forall] at unrest
  obtain ⟨array, found, full, less, spoilt⟩ := unrest
  obtain ⟨value, given⟩ := represents.value valid true
  have loaded : load this world = .ok (.ok array, world) := by
    simp only [load, Option.mem_def.mp found]
  apply EndsOr.faults
  apply EndsOr.bind
  apply EndsOr.of_returned loaded
  rw [if_neg (not_not.mpr full)]
  apply EndsOr.bind
  apply EndsOr.of_returned loaded
  apply EndsOr.bind
  apply EndsOr.weaken _ False.elim
  apply twiceSize_ends (Nat.le_of_lt less) _ (fun largest => absurd less (by omega))
  intro newSize grown fits
  apply EndsOr.bind
  apply EndsOr.weaken _ False.elim
  apply represents.allocate newSize array.allocator_ _ (fun large => absurd fits (by omega))
  intro newStart allocated _ made loose raw
  have validThere : argument.Valid allocated := by
    cases argument <;> simp_all [Argument.Valid, made.arrays]
  have counted : allocated.operations = world.operations := made.operations
  apply EndsOr.bind
  apply EndsOr.catching
  apply EndsOr.bind
  have handled : ∀ next (returned : Unit → World ν A T → Prop), Points next newStart (List.replicate newSize none) →
      EndsOr True (do destroyAt newStart array.finish; deallocate newStart array.allocator_; .throw .element : Act ν A T Unit)
        next returned (fun _ _ => False) := by
    intro next returned points
    have cells : List.replicate newSize (none : Option T) =
        List.replicate array.finish none ++ none :: List.replicate (newSize - (array.finish + 1)) none := by
      rw [← List.replicate_succ, ← List.replicate_add]
      congr 1
      omega
    rw [cells] at points
    obtain ⟨reason, failed⟩ := destroyAt_faults points List.length_replicate
    apply EndsOr.bind
    exact EndsOr.of_fault failed trivial
  apply EndsOr.weaken _ False.elim
  cases first : types.throws world.operations with
  | true =>
      apply newElement_throws loose validThere (by rw [counted, first])
      exact fun next passed => handled next _ (raw.within passed fun _ _ => id)
  | false =>
      simp only [first, true_and, not_forall, Bool.not_eq_false] at spoilt
      obtain ⟨moves, second⟩ := spoilt
      apply newElement_ends loose given
      · intro built _ _ constructed same
        apply EndsOr.bind
        apply EndsOr.weaken _ False.elim
        apply enter_throws (by rw [moves]; rfl) (by rw [constructed rfl, counted, second])
        exact fun next passed => handled next _ ((raw.frame same).within passed fun _ _ => id)
      · intro next failed _
        rw [counted, first] at failed
        cases failed

variable [DecidableEq A]

/-- A call is calm and leaves the arrays in order, or it faults. -/
theorem step_cases (represents : Represents types none world lists) {call : Call ν Args A T} (fits : Fits world call) :
    (Calm types world call ∧ ∃ next after, step types world call = .ok next ∧ Represents types none next after) ∨
      (¬ Calm types world call ∧ ∃ reason, step types world call = .error reason) := by
  by_cases calm : Calm types world call
  · obtain ⟨result, next, ran, leaves⟩ := perform_result represents fits calm
    obtain ⟨after, kept, _⟩ := leaves.represents
    exact .inl ⟨calm, next, after, step_of_perform ran, kept⟩
  · refine .inr ⟨calm, ?_⟩
    cases call with
    | pushBack this argument =>
        obtain ⟨reason, failed⟩ := pushBack_faults represents fits.2 calm
        exact ⟨reason, by rw [step, perform, failed]; rfl⟩
    | _ => exact absurd trivial calm

theorem run_represents (represents : Represents types none world lists) {calls : List (Call ν Args A T)}
    (fits : Meets (step types) Fits world calls) (ran : run (step types) world calls = .ok next) :
    ∃ after, Represents types none next after := by
  induction calls generalizing world lists with
  | nil =>
      cases ran
      exact ⟨lists, represents⟩
  | cons call calls ih =>
      rcases step_cases represents fits.1 with ⟨_, middle, after, stepped, kept⟩ | ⟨_, reason, failed⟩
      · simp only [run, stepped] at ran
        exact ih kept (fits.2 middle stepped) ran
      · simp only [run, failed, reduceCtorEq] at ran

theorem run_calm_iff (represents : Represents types none world lists) {calls : List (Call ν Args A T)}
    (fits : Meets (step types) Fits world calls) :
    (∃ last, run (step types) world calls = .ok last) ↔ Meets (step types) (Calm types) world calls := by
  induction calls generalizing world lists with
  | nil => exact ⟨fun _ => trivial, fun _ => ⟨world, rfl⟩⟩
  | cons call calls ih =>
      rcases step_cases represents fits.1 with ⟨calm, middle, after, stepped, kept⟩ | ⟨unrest, reason, failed⟩
      · simp only [run, stepped, ih kept (fits.2 middle stepped)]
        constructor
        · intro meets
          refine ⟨calm, fun other same => ?_⟩
          cases stepped.symm.trans same
          exact meets
        · exact fun meets => meets.2 middle stepped
      · simp only [run, failed, reduceCtorEq, exists_false, false_iff]
        exact fun meets => unrest meets.1

/-- Elements are constructed and destroyed in turn, and each block goes back once, exactly as long as no element throws
while it is constructed in a block that grows: then `push_back` destroys a slot without an element. -/
theorem runs_clean_iff {calls : List (Call ν Args A T)} (fits : Meets (step types) Fits {} calls) :
    (∃ last, run (step types) {} calls = .ok last ∧ Clean last) ↔ Meets (step types) (Calm types) {} calls := by
  rw [← run_calm_iff (.initial types) fits]
  constructor
  · exact fun ⟨last, ran, _⟩ => ⟨last, ran⟩
  · rintro ⟨last, ran⟩
    obtain ⟨after, represents⟩ := run_represents (.initial types) fits ran
    exact ⟨last, ran, represents.clean⟩

/-- The fourth operation throws, which moves the second element to its slot. -/
theorem runs_clean_iff_fourth :
    (∃ last : World Bool Nat Nat, run (step { numbers with isNothrowMoveConstructible := false, throws := fun n => n == 3 }) {}
      [.constructEmpty false 1, .pushBack false (.args 5), .pushBack false (.args 6)] = .ok last ∧ Clean last) ↔
      Meets (step { numbers with isNothrowMoveConstructible := false, throws := fun n => n == 3 })
        (Calm { numbers with isNothrowMoveConstructible := false, throws := fun n => n == 3 }) ({} : World Bool Nat Nat)
        [.constructEmpty false 1, .pushBack false (.args 5), .pushBack false (.args 6)] :=
  runs_clean_iff (by decide)

/-- The moves may throw, and the fifth operation does. -/
def fifthThrows : Types Nat Nat Nat := { numbers with isNothrowMoveConstructible := false, throws := fun n => n == 4 }

end

end Dsac.DynamicArrays

import Dsac.Container.DynamicArray.Memory

namespace Dsac.DynamicArrays

open Dsac.Library Dsac.Library.Action

/-! The loops that construct elements in raw memory, and undo it when a construction throws. -/

variable {ν Args A T : Type} {types : Types Args A T} {world : World ν A T} {source result : Option Addr} {first resultFirst : Nat}
  {before after sourceBefore sourceAfter : List (Option T)} {values : List T}
  {returned : Unit → World ν A T → Prop} {thrown : Exn → World ν A T → Prop}

theorem enter_ends {mayThrow : Bool}
    (passes : ∀ next, Within (fun _ => False) mayThrow.toNat world next → returned () next)
    (fails : ∀ next, mayThrow = true → types.throws world.operations = true → Within (fun _ => False) 1 world next →
      thrown .element next) :
    Ends (enter types mayThrow) world returned thrown := by
  have counted : Within (fun _ => False) 1 world { world with operations := world.operations + 1 } :=
    ⟨fun _ _ => rfl, rfl, rfl, rfl⟩
  cases mayThrow with
  | false => exact passes world (Within.refl _ _)
  | true =>
      unfold Ends EndsOr enter
      cases throws : types.throws world.operations with
      | false => exact passes _ counted
      | true => exact fails _ rfl throws counted

/-- The rule for a loop of constructions: what each of them keeps, and what is left after one
that throws, if it does not depend on the new elements. -/
theorem uninitialized_ends {constructOne : Nat → Act ν A T Unit} {stage : Nat → World ν A T → Prop}
    {failing : Nat → Exn → World ν A T → Prop} (length : before.length = first)
    (one : ∀ done value world rest, values[done]? = some value → stage done world →
      Points world result (before ++ ((values.take done).map some ++ none :: rest)) →
      Ends (constructOne done) world
        (fun _ next => stage (done + 1) next ∧
          Points next result (before ++ ((values.take done).map some ++ some value :: rest)))
        (fun exception next => failing done exception next ∧
          Points next result (before ++ ((values.take done).map some ++ none :: rest))))
    (undone : ∀ done exception world next, failing done exception world → Within (At result) 0 world next →
      failing done exception next)
    {done left : Nat} (count : done + left = values.length) (start : stage done world)
    (points : Points world result (before ++ ((values.take done).map some ++ (List.replicate left none ++ after)))) :
    Ends (uninitialized constructOne result first done left) world
      (fun _ next => stage values.length next ∧ Points next result (before ++ (values.map some ++ after)))
      (fun exception next => ∃ done < values.length, failing done exception next ∧
        Points next result (before ++ (List.replicate values.length none ++ after))) := by
  induction left generalizing world done with
  | zero =>
      cases count
      apply EndsOr.pure
      rw [List.take_length, List.replicate_zero, List.nil_append] at points
      exact ⟨start, points⟩
  | succ left ih =>
      have inside : done < values.length := by omega
      rw [List.replicate_succ, List.cons_append] at points
      apply EndsOr.bind
      apply EndsOr.catching
      apply (one done values[done] world _ (List.getElem?_eq_getElem inside) start points).imp
      · rintro _ middle ⟨further, constructed⟩
        apply ih (by omega) further
        rwa [List.take_succ_eq_append_getElem inside, List.map_append, List.append_assoc]
      · rintro exception middle ⟨failed, kept⟩
        have taken : (values.take done).length = done := List.length_take_of_le (Nat.le_of_lt inside)
        apply EndsOr.bind
        rw [← taken]
        apply destroyRange_ends (values.take done) kept length
        intro next destroyed raw
        apply EndsOr.throw
        refine ⟨done, inside, undone done exception middle next failed destroyed, ?_⟩
        have total : values.length = done + (left + 1) := count.symm
        rwa [total, List.replicate_add, List.append_assoc, List.replicate_succ, List.cons_append, ← taken]

theorem map_some_split {done : Nat} {value : T} (found : values[done]? = some value) :
    values.map some = (values.take done).map some ++ some value :: (values.drop (done + 1)).map some := by
  obtain ⟨inside, rfl⟩ := List.getElem?_eq_some_iff.mp found
  rw [← List.map_cons, ← List.map_append, ← List.drop_eq_getElem_cons inside, List.take_append_drop]

theorem length_before_taken {done : Nat} {value : T} (found : values[done]? = some value) (length : before.length = first) :
    (before ++ (values.take done).map some).length = first + done := by
  have inside := (List.getElem?_eq_some_iff.mp found).1
  rw [List.length_append, List.length_map, List.length_take_of_le (Nat.le_of_lt inside), length]

/-- The elements are copied, or what was copied is destroyed. -/
theorem copy_ends (sourcePoints : Points world source (sourceBefore ++ (values.map some ++ sourceAfter)))
    (sourceLength : sourceBefore.length = first)
    (points : Points world result (before ++ (List.replicate values.length none ++ after))) (length : before.length = resultFirst)
    (apart : ∀ address, source = some address → result ≠ some address)
    (returns : ∀ next, Within (At result) values.length world next →
      Points next result (before ++ (values.map some ++ after)) → returned () next)
    (throws : ∀ next done, done < values.length → types.throws (world.operations + done) = true →
      Within (At result) (done + 1) world next →
      Points next result (before ++ (List.replicate values.length none ++ after)) → thrown .element next) :
    Ends (uninitialized (copyOne types source first result resultFirst) result resultFirst 0 values.length) world
      returned thrown := by
  have one : ∀ done value middle rest, values[done]? = some value → Within (At result) done world middle →
      Points middle result (before ++ ((values.take done).map some ++ none :: rest)) →
      Ends (copyOne types source first result resultFirst done) middle
        (fun _ next => Within (At result) (done + 1) world next ∧
          Points next result (before ++ ((values.take done).map some ++ some value :: rest)))
        (fun exception next => (exception = .element ∧ types.throws (world.operations + done) = true ∧
          Within (At result) (done + 1) world next) ∧
          Points next result (before ++ ((values.take done).map some ++ none :: rest))) := by
    intro done value middle rest found within raw
    have there := sourcePoints.within within apart
    rw [map_some_split found, List.append_assoc, ← List.append_assoc sourceBefore, List.cons_append] at there
    rw [← List.append_assoc] at raw
    apply EndsOr.bind
    apply element_ends there (length_before_taken found sourceLength)
    apply EndsOr.bind
    apply enter_ends
    · intro entered passed
      have here := raw.within passed fun _ _ => id
      apply construct_ends here (length_before_taken found length)
      intro next constructed finished
      rw [List.append_assoc] at finished
      exact ⟨within.trans (passed.of_nowhere.trans constructed), finished⟩
    · intro next _ failed passed
      have here := raw.within passed fun _ _ => id
      rw [List.append_assoc] at here
      rw [within.operations] at failed
      exact ⟨⟨rfl, failed, within.trans passed.of_nowhere⟩, here⟩
  have undone : ∀ done exception middle next, (exception = Exn.element ∧ types.throws (world.operations + done) = true ∧
      Within (At result) (done + 1) world middle) → Within (At result) 0 middle next →
      exception = .element ∧ types.throws (world.operations + done) = true ∧ Within (At result) (done + 1) world next :=
    fun done exception middle next failed destroyed => ⟨failed.1, failed.2.1, failed.2.2.trans destroyed⟩
  apply (uninitialized_ends length one undone (Nat.zero_add _) (Within.refl _ _) points).imp
  · exact fun _ next ended => returns next ended.1 ended.2
  · rintro _ next ⟨done, inside, ⟨rfl, failed, within⟩, raw⟩
    exact throws next done inside failed within raw

/-- Elements from outside the arrays. -/
theorem list_ends (points : Points world result (List.replicate values.length none))
    (returns : ∀ next, Within (At result) values.length world next → Points next result (values.map some) → returned () next)
    (throws : ∀ next done, done < values.length → types.throws (world.operations + done) = true →
      Within (At result) (done + 1) world next → Points next result (List.replicate values.length none) →
      thrown .element next) :
    Ends (uninitialized (listOne types values result) result 0 0 values.length) world returned thrown := by
  have one : ∀ done value middle rest, values[done]? = some value → Within (At result) done world middle →
      Points middle result ([] ++ ((values.take done).map some ++ none :: rest)) →
      Ends (listOne types values result done) middle
        (fun _ next => Within (At result) (done + 1) world next ∧
          Points next result ([] ++ ((values.take done).map some ++ some value :: rest)))
        (fun exception next => (exception = .element ∧ types.throws (world.operations + done) = true ∧
          Within (At result) (done + 1) world next) ∧
          Points next result ([] ++ ((values.take done).map some ++ none :: rest))) := by
    intro done value middle rest found within raw
    have inside := (List.getElem?_eq_some_iff.mp found).1
    simp only [listOne, found]
    apply EndsOr.bind
    apply enter_ends
    · intro entered passed
      have here := raw.within passed fun _ _ => id
      apply construct_ends here (by rw [List.length_map, List.length_take_of_le (Nat.le_of_lt inside)])
      intro next constructed finished
      exact ⟨within.trans (passed.of_nowhere.trans constructed), finished⟩
    · intro next _ failed passed
      rw [within.operations] at failed
      exact ⟨⟨rfl, failed, within.trans passed.of_nowhere⟩, raw.within passed fun _ _ => id⟩
  have undone : ∀ done exception middle next, (exception = Exn.element ∧ types.throws (world.operations + done) = true ∧
      Within (At result) (done + 1) world middle) → Within (At result) 0 middle next →
      exception = .element ∧ types.throws (world.operations + done) = true ∧ Within (At result) (done + 1) world next :=
    fun done exception middle next failed destroyed => ⟨failed.1, failed.2.1, failed.2.2.trans destroyed⟩
  have raw : Points world result ([] ++ ((values.take 0).map some ++ (List.replicate values.length none ++ []))) := by
    simpa using points
  apply (uninitialized_ends rfl one undone (Nat.zero_add _) (Within.refl _ _) raw).imp
  · rintro _ next ⟨within, finished⟩
    exact returns next within (by simpa using finished)
  · rintro _ next ⟨done, inside, ⟨rfl, failed, within⟩, raw⟩
    exact throws next done inside failed within (by simpa using raw)

/-- A source whose first elements were moved out. -/
def movedOut (types : Types Args A T) (values : List T) (done : Nat) : List T :=
  (values.take done).map types.moved ++ values.drop done

theorem length_movedOut (values : List T) (done : Nat) : (movedOut types values done).length = values.length := by
  rw [movedOut, List.length_append, List.length_map, ← List.length_append, List.take_append_drop]

theorem movedOut_split {done : Nat} {value : T} (found : values[done]? = some value) :
    (movedOut types values done).map some =
      ((values.take done).map types.moved).map some ++ some value :: (values.drop (done + 1)).map some := by
  obtain ⟨inside, rfl⟩ := List.getElem?_eq_some_iff.mp found
  rw [movedOut, List.map_append, List.drop_eq_getElem_cons inside, List.map_cons]

theorem movedOut_succ {done : Nat} {value : T} (found : values[done]? = some value) :
    (movedOut types values (done + 1)).map some =
      ((values.take done).map types.moved).map some ++ some (types.moved value) :: (values.drop (done + 1)).map some := by
  obtain ⟨inside, rfl⟩ := List.getElem?_eq_some_iff.mp found
  rw [movedOut, List.take_succ_eq_append_getElem inside, List.map_append, List.map_append, List.map_append,
    List.append_assoc]
  rfl

/-- The elements are moved. If a move throws, those before it are gone from the source and destroyed. -/
theorem move_ends (sourcePoints : Points world source (sourceBefore ++ (values.map some ++ sourceAfter)))
    (sourceLength : sourceBefore.length = first)
    (points : Points world result (before ++ (List.replicate values.length none ++ after))) (length : before.length = resultFirst)
    (apart : ∀ address, source = some address → result ≠ some address)
    (returns : ∀ next, Within (fun address => At source address ∨ At result address)
        (values.length * (!types.isNothrowMoveConstructible).toNat) world next →
      Points next source (sourceBefore ++ ((values.map types.moved).map some ++ sourceAfter)) →
      Points next result (before ++ (values.map some ++ after)) → returned () next)
    (throws : ∀ next done, done < values.length → types.isNothrowMoveConstructible = false →
      types.throws (world.operations + done) = true →
      Within (fun address => At source address ∨ At result address) (done + 1) world next →
      Points next source (sourceBefore ++ ((movedOut types values done).map some ++ sourceAfter)) →
      Points next result (before ++ (List.replicate values.length none ++ after)) → thrown .element next) :
    Ends (uninitialized (moveOne types source first result resultFirst) result resultFirst 0 values.length) world
      returned thrown := by
  let both : Addr → Prop := fun address => At source address ∨ At result address
  let mayThrow := !types.isNothrowMoveConstructible
  have one : ∀ done value middle rest, values[done]? = some value →
      (Within both (done * mayThrow.toNat) world middle ∧
        Points middle source (sourceBefore ++ ((movedOut types values done).map some ++ sourceAfter))) →
      Points middle result (before ++ ((values.take done).map some ++ none :: rest)) →
      Ends (moveOne types source first result resultFirst done) middle
        (fun _ next => (Within both ((done + 1) * mayThrow.toNat) world next ∧
          Points next source (sourceBefore ++ ((movedOut types values (done + 1)).map some ++ sourceAfter))) ∧
          Points next result (before ++ ((values.take done).map some ++ some value :: rest)))
        (fun exception next => (exception = .element ∧ types.isNothrowMoveConstructible = false ∧
          types.throws (world.operations + done) = true ∧ Within both (done + 1) world next ∧
          Points next source (sourceBefore ++ ((movedOut types values done).map some ++ sourceAfter))) ∧
          Points next result (before ++ ((values.take done).map some ++ none :: rest))) := by
    rintro done value middle rest found ⟨within, there⟩ raw
    have inside := (List.getElem?_eq_some_iff.mp found).1
    have taken : (sourceBefore ++ ((values.take done).map types.moved).map some).length = first + done := by
      rw [List.length_append, List.length_map, List.length_map, List.length_take_of_le (Nat.le_of_lt inside), sourceLength]
    have split := there
    rw [movedOut_split found, List.append_assoc, ← List.append_assoc sourceBefore, List.cons_append] at split
    apply EndsOr.bind
    apply element_ends split taken
    apply EndsOr.bind
    apply enter_ends
    · intro entered passed
      apply EndsOr.bind
      apply assign_ends (split.within passed fun _ _ => id) taken
      intro assigned moved left
      have untouched : ∀ address, result = some address → ¬ At source address := fun address here same => apart address same here
      have here := (raw.within passed fun _ _ => id).within moved untouched
      rw [← List.append_assoc] at here
      apply construct_ends here (length_before_taken found length)
      intro next constructed finished
      have still := left.within constructed fun address same => apart address same
      rw [← List.cons_append, List.append_assoc, ← List.append_assoc, ← List.append_assoc] at still
      rw [List.append_assoc] at finished
      refine ⟨⟨?_, ?_⟩, finished⟩
      · have onSource : Within both 0 entered assigned := moved.mono fun _ => .inl
        have onResult : Within both 0 assigned next := constructed.mono fun _ => .inr
        have total := within.trans ((passed.of_nowhere.trans onSource).trans onResult)
        rw [Nat.succ_mul]
        exact total
      · rw [movedOut_succ found]
        simpa only [List.append_assoc, List.cons_append] using still
    · intro next may failed passed
      have throwing : types.isNothrowMoveConstructible = false := by simpa using may
      have counted : done * mayThrow.toNat = done := by
        rw [show mayThrow = true from may]
        exact Nat.mul_one done
      rw [counted] at within
      rw [within.operations] at failed
      exact ⟨⟨rfl, throwing, failed, within.trans passed.of_nowhere, there.within passed fun _ _ => id⟩,
        raw.within passed fun _ _ => id⟩
  have undone : ∀ done exception middle next, (exception = Exn.element ∧ types.isNothrowMoveConstructible = false ∧
      types.throws (world.operations + done) = true ∧ Within both (done + 1) world middle ∧
      Points middle source (sourceBefore ++ ((movedOut types values done).map some ++ sourceAfter))) →
      Within (At result) 0 middle next → exception = .element ∧ types.isNothrowMoveConstructible = false ∧
      types.throws (world.operations + done) = true ∧ Within both (done + 1) world next ∧
      Points next source (sourceBefore ++ ((movedOut types values done).map some ++ sourceAfter)) := by
    rintro done exception middle next ⟨same, throwing, failed, within, left⟩ destroyed
    have onResult : Within both 0 middle next := destroyed.mono fun _ => .inr
    exact ⟨same, throwing, failed, within.trans onResult, left.within destroyed fun address same => apart address same⟩
  have start : Within both (0 * mayThrow.toNat) world world ∧
      Points world source (sourceBefore ++ ((movedOut types values 0).map some ++ sourceAfter)) := by
    rw [Nat.zero_mul]
    exact ⟨Within.refl _ _, sourcePoints⟩
  apply (uninitialized_ends length one undone (Nat.zero_add _) start points).imp
  · rintro _ next ⟨⟨within, left⟩, finished⟩
    have all : movedOut types values values.length = values.map types.moved := by
      rw [movedOut, List.take_length, List.drop_length, List.append_nil]
    rw [all] at left
    exact returns next within left finished
  · rintro _ next ⟨done, inside, ⟨rfl, throwing, failed, within, left⟩, raw⟩
    exact throws next done inside throwing failed within left raw

end Dsac.DynamicArrays

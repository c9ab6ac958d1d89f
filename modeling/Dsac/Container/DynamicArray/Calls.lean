import Dsac.Container.DynamicArray.Growth

namespace Dsac.DynamicArrays

open Dsac.Library Dsac.Library.Action

/-! Construction, assignment and destruction of arrays. -/

variable {ν Args A T : Type} {types : Types Args A T} {world : World ν A T} {lists : Lists ν T} {this other : ν}
  {array : DynamicArray A} {list copied : List T} {thrown : Exn → World ν A T → Prop}

/-- Elements are assigned to others, and those before an assignment that throws are assigned. -/
theorem copyElements_ends {source result : Option Addr} {first : Nat} {values olds : List T}
    {sourceBefore sourceAfter before after : List (Option T)} {returned : Unit → World ν A T → Prop}
    (sourcePoints : Points world source (sourceBefore ++ (values.map some ++ sourceAfter))) (sourceLength : sourceBefore.length = first)
    (points : Points world result (before ++ (olds.map some ++ after))) (length : before.length = first)
    (same : olds.length = values.length) (apart : ∀ address, source = some address → result ≠ some address)
    (returns : ∀ next entered, Within (At result) entered world next →
      Points next result (before ++ (values.map some ++ after)) → returned () next)
    (throws : ∀ next entered (left : List T), left.length = values.length → (∃ n, types.throws n = true) →
      Within (At result) entered world next → Points next result (before ++ (left.map some ++ after)) → thrown .element next) :
    Ends (copyElements types source result first values.length) world returned thrown := by
  induction values generalizing world first olds sourceBefore before with
  | nil =>
      obtain rfl := List.length_eq_zero_iff.mp same
      exact returns world 0 (Within.refl _ _) points
  | cons value values ih =>
      cases olds with
      | nil => cases same
      | cons old olds =>
          have fewer : olds.length = values.length := by simpa using same
          apply EndsOr.bind
          apply element_ends sourcePoints sourceLength
          apply EndsOr.bind
          apply enter_ends
          · intro entered passed
            apply EndsOr.bind
            apply assign_ends (points.within passed fun _ _ => id) length
            intro middle assigned written
            have total := passed.of_nowhere.trans assigned
            have there := sourcePoints.within total apart
            rw [List.map_cons, List.cons_append, List.append_cons] at there
            rw [List.append_cons] at written
            apply ih there (by simp [sourceLength]) written (by simp [length]) fewer
            · intro next _ rest finished
              rw [List.append_assoc] at finished
              exact returns next _ (total.trans rest) finished
            · intro next _ left size failed rest finished
              rw [List.append_assoc] at finished
              exact throws next _ (value :: left) (by simp [size]) failed (total.trans rest) finished
          · intro next _ failed passed
            exact throws next 1 (old :: olds) same ⟨_, failed⟩ passed.of_nowhere (points.within passed fun _ _ => id)

/-- The last elements of an array are destroyed. -/
theorem Holds.truncate (holds : Holds types world array (list ++ copied)) {finish : Nat} (length : finish = list.length)
    {returned : Unit → World ν A T → Prop}
    (returns : ∀ next, Within (At array.start) 0 world next → Holds types next { array with finish := list.length } list →
      returned () next) :
    Ends (destroyRange array.start finish copied.length) world returned thrown := by
  have points := holds.points
  have room := holds.room
  rw [List.map_append, List.append_assoc] at points
  rw [List.length_append] at room
  apply destroyRange_ends copied points (by rw [List.length_map, length])
  intro next destroyed raw
  refine returns next destroyed ⟨rfl, show list.length ≤ array.endOfStorage by omega, holds.bounded, ?_⟩
  rw [← List.replicate_add, List.length_append] at raw
  have cells : copied.length + (array.endOfStorage - (list.length + copied.length)) = array.endOfStorage - list.length := by omega
  rwa [cells] at raw

section

variable [DecidableEq ν]

theorem clear_ends (represents : Represents types none world lists) (found : world.arrays this = some array)
    {returned : Unit → World ν A T → Prop}
    (returns : ∀ next, next.arrays = Function.update world.arrays this (some { array with finish := 0 }) →
      Represents types none next (Function.update lists this (some [])) → returned () next) :
    Ends (clear this) world returned thrown := by
  obtain ⟨list, _, held⟩ := represents.holds found
  have whole : Holds types world array ([] ++ list) := held
  apply load_ends found
  rw [held.finish]
  apply EndsOr.bind
  apply whole.truncate rfl
  intro next destroyed empty
  apply setArray_ends
  have arrays := congrArg (Function.update · this (some { array with finish := 0 })) destroyed.arrays
  apply returns _ arrays
  apply represents.rewrite found (show ({ array with finish := 0 } : DynamicArray A).start = array.start from rfl) arrays
  · exact fun address unpooled => destroyed.outside address fun here => unpooled (.inr ⟨array, found, here⟩)
  · exact destroyed.lost
  · exact empty.congr fun _ _ => rfl

/-- A new array takes the loose block. -/
theorem Represents.construct {loose : Option Addr} (represents : Represents types loose world lists) (absent : world.arrays this = none)
    (start : array.start = loose) (holds : Holds types world array list) :
    Represents types none { world with arrays := Function.update world.arrays this (some array) }
      (Function.update lists this (some list)) := by
  apply represents.adopt start rfl
  · exact fun _ _ => rfl
  · intro mine address there
    cases absent.symm.trans there
  · rfl
  · exact holds.congr fun _ _ => rfl

theorem constructArray_ends (represents : Represents types none world lists) (absent : world.arrays this = none)
    {constructOne : Option Addr → Nat → Act ν A T Unit} {allocator : A}
    (loop : ∀ pointer middle, middle.arrays = world.arrays → Represents types pointer middle lists →
      Points middle pointer (List.replicate list.length none) →
      Ends (uninitialized (constructOne pointer) pointer 0 0 list.length) middle
        (fun _ next => ∃ entered, Within (At pointer) entered middle next ∧ Points next pointer (list.map some))
        (fun exception next => exception = .element ∧ (∃ n, types.throws n = true) ∧ ∃ entered,
          Within (At pointer) entered middle next ∧ Points next pointer (List.replicate list.length none)))
    {returned : Unit → World ν A T → Prop}
    (returns : ∀ next array, list.length ≤ types.maxSize → array.endOfStorage = list.length →
      next.arrays = Function.update world.arrays this (some array) → Represents types none next (Function.update lists this (some list)) → returned () next)
    (large : types.maxSize < list.length → thrown .badAlloc world)
    (throws : ∀ next, (∃ n, types.throws n = true) → next.arrays = world.arrays → Represents types none next lists →
      thrown .element next) :
    Ends (constructArray types this list.length constructOne allocator) world returned thrown := by
  let failing : Exn → Lists ν T → Prop := fun exception after => exception = .element ∧ (∃ n, types.throws n = true) ∧ after = lists
  apply EndsOr.bind
  apply represents.allocateAndCopy failing _ large
  · rintro exception after next ⟨rfl, failed, rfl⟩ arrays final
    exact throws next failed arrays final
  · intro pointer middle small same stored raw
    apply (loop pointer middle same stored raw).imp
    · rintro _ next ⟨entered, within, filled⟩
      apply setArray_ends
      have arrays : next.arrays = world.arrays := within.arrays.trans same
      apply returns _ _ small rfl (by rw [arrays])
      apply (stored.within within).construct (by rw [arrays, absent]) rfl
      exact ⟨rfl, Nat.le_refl _, small, by simpa using filled⟩
    · rintro exception next ⟨rfl, failed, entered, within, undone⟩
      exact ⟨lists, ⟨rfl, failed, rfl⟩, within.arrays.trans same, stored.within within, undone⟩

theorem constructList_ends (represents : Represents types none world lists) (absent : world.arrays this = none) {allocator : A}
    {returned : Unit → World ν A T → Prop}
    (returns : ∀ next array, list.length ≤ types.maxSize → array.endOfStorage = list.length →
      next.arrays = Function.update world.arrays this (some array) → Represents types none next (Function.update lists this (some list)) → returned () next)
    (large : types.maxSize < list.length → thrown .badAlloc world)
    (throws : ∀ next, (∃ n, types.throws n = true) → next.arrays = world.arrays → Represents types none next lists →
      thrown .element next) :
    Ends (constructArray types this list.length (listOne types list) allocator) world returned thrown := by
  apply constructArray_ends represents absent _ returns large throws
  intro pointer middle _ stored raw
  apply list_ends raw
  · exact fun next within filled => ⟨_, within, filled⟩
  · exact fun next done _ failed within undone => ⟨rfl, ⟨_, failed⟩, _, within, undone⟩

theorem constructCopy_ends (represents : Represents types none world lists) (absent : world.arrays this = none)
    (known : lists other = some list) {returned : Unit → World ν A T → Prop}
    (returns : ∀ next array, next.arrays = Function.update world.arrays this (some array) →
      Represents types none next (Function.update lists this (some list)) → returned () next)
    (throws : ∀ next, (∃ n, types.throws n = true) → next.arrays = world.arrays → Represents types none next lists →
      thrown .element next) :
    Ends (constructCopy types this other) world returned thrown := by
  obtain ⟨source, found, held⟩ := represents.alive other list known
  apply load_ends found
  rw [held.finish]
  apply constructArray_ends represents absent
  · intro pointer middle same stored raw
    have foundMiddle : middle.arrays other = some source := by rw [same, found]
    obtain ⟨_, again, heldMiddle⟩ := stored.holds foundMiddle
    cases known.symm.trans again
    have points : Points middle source.start ([] ++ (list.map some ++ List.replicate (source.endOfStorage - list.length) none)) :=
      heldMiddle.points
    have into : Points middle pointer ([] ++ (List.replicate list.length none ++ [])) := by simpa using raw
    apply copy_ends points rfl into rfl fun address here => stored.unowned other source address foundMiddle here
    · exact fun next within filled => ⟨_, within, by simpa using filled⟩
    · exact fun next done _ failed within undone => ⟨rfl, ⟨_, failed⟩, _, within, by simpa using undone⟩
  · exact fun next array _ _ arrays final => returns next array arrays final
  · exact fun large => absurd (held.room.trans held.bounded) (by omega)
  · exact throws

theorem constructMove_ends (represents : Represents types none world lists) (absent : world.arrays this = none)
    (found : world.arrays other = some array) (known : lists other = some list) {returned : Unit → World ν A T → Prop}
    (returns : ∀ next, next.arrays = Function.update (Function.update world.arrays other (some { allocator_ := array.allocator_ }))
        this (some array) →
      Represents types none next (Function.update (Function.update lists other (some [])) this (some list)) → returned () next) :
    Ends (constructMove this other) world returned thrown := by
  obtain ⟨_, again, held⟩ := represents.holds found
  cases known.symm.trans again
  have different : this ≠ other := by
    rintro rfl
    cases absent.symm.trans found
  apply load_ends found
  apply EndsOr.bind
  apply setArray_ends
  apply setArray_ends
  apply returns _ rfl
  let middle : World ν A T :=
    { world with arrays := Function.update world.arrays other (some { allocator_ := array.allocator_ }) }
  have detached : Represents types array.start middle (Function.update lists other (some [])) :=
    represents.detach found rfl rfl rfl
  have absentMiddle : middle.arrays this = none := (Function.update_of_ne different _ _).trans absent
  exact detached.construct absentMiddle rfl (held.congr fun _ _ => rfl)

theorem destructor_ends (represents : Represents types none world lists) (found : world.arrays this = some array)
    {returned : Unit → World ν A T → Prop}
    (returns : ∀ next, next.arrays = Function.update world.arrays this none →
      Represents types none next (Function.update lists this none) → returned () next) :
    Ends (destructor this) world returned thrown := by
  obtain ⟨list, _, held⟩ := represents.holds found
  apply load_ends found
  rw [held.finish]
  apply release_ends held.points
  intro freed released gone
  apply setArray_ends
  have arrays := congrArg (Function.update · this none) released.arrays
  apply returns _ arrays
  apply represents.remove arrays
  · exact fun address unpooled => released.outside address fun here => unpooled (.inr ⟨array, found, here⟩)
  · intro mine address there here
    cases found.symm.trans there
    exact gone address here
  · exact released.lost

/-- Elements of one array are assigned to the first elements of another. -/
theorem assignPrefix_ends (represents : Represents types none world lists) (found : world.arrays this = some array)
    (known : lists this = some list) (knownOther : lists other = some copied) (different : other ≠ this)
    {source : DynamicArray A} (foundOther : world.arrays other = some source) {common : List T} {rest : List T}
    (prefix_ : copied = common ++ rest) (within : common.length ≤ list.length)
    {returned : Unit → World ν A T → Prop}
    (returns : ∀ next, next.arrays = world.arrays →
      Represents types none next (Function.update lists this (some (common ++ list.drop common.length))) → returned () next)
    (throws : ∀ next left, (∃ n, types.throws n = true) → next.arrays = world.arrays →
      Represents types none next (Function.update lists this (some left)) → thrown .element next) :
    Ends (copyElements types source.start array.start 0 common.length) world returned thrown := by
  obtain ⟨_, again, held⟩ := represents.holds found
  cases known.symm.trans again
  obtain ⟨_, again, heldOther⟩ := represents.holds foundOther
  cases knownOther.symm.trans again
  have apart : ∀ address, source.start = some address → array.start ≠ some address := fun address here there =>
    different (represents.apart other this source array address foundOther found here there)
  have cells : list = list.take common.length ++ list.drop common.length := (List.take_append_drop _ _).symm
  have from_ : Points world source.start ([] ++ (common.map some ++
      (rest.map some ++ List.replicate (source.endOfStorage - copied.length) none))) := by
    have points := heldOther.points
    rwa [prefix_, List.map_append, List.append_assoc, ← prefix_] at points
  have into : Points world array.start ([] ++ ((list.take common.length).map some ++
      ((list.drop common.length).map some ++ List.replicate (array.endOfStorage - list.length) none))) := by
    have points := held.points
    rwa [cells, List.map_append, List.append_assoc, ← cells] at points
  have assigned : ∀ next entered (front : List T), front.length = common.length → Within (At array.start) entered world next →
      Points next array.start ([] ++ (front.map some ++
        ((list.drop common.length).map some ++ List.replicate (array.endOfStorage - list.length) none))) →
      Represents types none next (Function.update lists this (some (front ++ list.drop common.length))) := by
    intro next entered front size wrote finished
    apply represents.written found (wrote.mono fun _ => .inl)
    have size : (front ++ list.drop common.length).length = list.length := by
      rw [List.length_append, List.length_drop]
      omega
    apply held.sameLength size
    rw [List.map_append, List.append_assoc]
    exact finished
  apply copyElements_ends from_ rfl into rfl (List.length_take_of_le within) apart
  · exact fun next entered wrote finished => returns next wrote.arrays (assigned next entered common rfl wrote finished)
  · exact fun next entered left size failed wrote finished =>
      throws next _ failed wrote.arrays (assigned next entered left size wrote finished)

section

variable {source : DynamicArray A} {returned : Unit → World ν A T → Prop}
  (represents : Represents types none world lists) (found : world.arrays this = some array) (known : lists this = some list)
  (foundOther : world.arrays other = some source) (knownOther : lists other = some copied)
  (returns : ∀ next new, next.arrays = Function.update world.arrays this (some new) → array.endOfStorage ≤ new.endOfStorage →
    Represents types none next (Function.update lists this (some copied)) → returned () next)
  (throws : ∀ next left, (∃ n, types.throws n = true) → next.arrays = world.arrays →
    Represents types none next (Function.update lists this (some left)) → thrown .element next)
include represents found known foundOther knownOther returns throws

/-- There is too little room: the copies go to a new block. -/
theorem copyToNew_ends (larger : array.endOfStorage < copied.length) :
    Ends (do
      let tmp ← allocateAndCopy types copied.length (fun result => copyOne types source.start 0 result 0) copied.length
        array.allocator_
      destroyRange array.start 0 array.finish
      deallocate array.start array.allocator_
      setArray this (some { array with start := tmp, finish := copied.length, endOfStorage := copied.length })) world
      returned thrown := by
  let failing : Exn → Lists ν T → Prop := fun exception after => exception = .element ∧ (∃ n, types.throws n = true) ∧ after = lists
  obtain ⟨_, read, heldOther⟩ := represents.holds foundOther
  cases knownOther.symm.trans read
  apply EndsOr.bind
  apply represents.allocateAndCopy failing
  · intro pointer built small same stored raw
    have otherBuilt : built.arrays other = some source := by rw [same, foundOther]
    have foundBuilt : built.arrays this = some array := by rw [same, found]
    have points : Points built source.start ([] ++ (copied.map some ++ List.replicate (source.endOfStorage - copied.length) none)) := by
      obtain ⟨_, read, heldBuilt⟩ := stored.holds otherBuilt
      cases knownOther.symm.trans read
      exact heldBuilt.points
    have into : Points built pointer ([] ++ (List.replicate copied.length none ++ [])) := by simpa using raw
    apply copy_ends points rfl into rfl fun address here => stored.unowned other source address otherBuilt here
    · intro next within filled
      have remains := stored.within within
      have foundNext : next.arrays this = some array := by rw [within.arrays, foundBuilt]
      let new : DynamicArray A := { array with start := pointer, finish := copied.length, endOfStorage := copied.length }
      have holdsNew : Holds types next new copied := by
        refine ⟨rfl, Nat.le_refl _, small, ?_⟩
        rw [show new.endOfStorage - copied.length = 0 from Nat.sub_self _]
        exact filled
      apply remains.swap foundNext (show new.start = pointer from rfl) holdsNew
      intro last swapped final
      refine returns last new ?_ (Nat.le_of_lt larger) final
      rw [swapped, within.arrays, same]
    · intro next done _ failed within undone
      exact ⟨lists, ⟨rfl, ⟨_, failed⟩, rfl⟩, within.arrays.trans same, stored.within within, by simpa using undone⟩
  · exact fun large => absurd (heldOther.room.trans heldOther.bounded) (by omega)
  · rintro exception after next ⟨rfl, failed, rfl⟩ same final
    rw [← Function.update_eq_self this after, known] at final
    exact throws next list failed same final

variable (different : other ≠ this)
include different

/-- There are enough elements: they are assigned, and the rest is destroyed. -/
theorem copyOver_ends (fewer : copied.length ≤ list.length) :
    Ends (do
      copyElements types source.start array.start 0 copied.length
      destroyRange array.start copied.length (list.length - copied.length)
      setArray this (some { array with finish := copied.length })) world returned thrown := by
  apply EndsOr.bind
  apply assignPrefix_ends represents found known knownOther different foundOther (List.append_nil copied).symm fewer
  · intro next same assigned
    have foundNext : next.arrays this = some array := by rw [same, found]
    obtain ⟨_, read, heldNext⟩ := assigned.holds foundNext
    rw [Function.update_self] at read
    cases read
    have size : (list.drop copied.length).length = list.length - copied.length := List.length_drop
    rw [← size]
    apply EndsOr.bind
    apply heldNext.truncate rfl
    intro last destroyed short
    apply setArray_ends
    let new : DynamicArray A := { array with finish := copied.length }
    have arrays : Function.update last.arrays this (some new) = Function.update world.arrays this (some new) := by
      rw [destroyed.arrays, same]
    refine returns _ new arrays (Nat.le_refl _) ?_
    rw [← Function.update_idem (f := lists) (a := this)]
    apply assigned.rewrite foundNext (show new.start = array.start from rfl)
    · show Function.update last.arrays this (some new) = _
      rw [destroyed.arrays]
    · exact fun address unpooled => destroyed.outside address fun here => unpooled (.inr ⟨_, foundNext, here⟩)
    · exact destroyed.lost
    · exact short.congr fun _ _ => rfl
  · exact throws

/-- There is room: the elements are assigned, and the others are constructed behind them. -/
theorem copyBehind_ends (more : list.length ≤ copied.length) (room : copied.length ≤ array.endOfStorage) :
    Ends (do
      copyElements types source.start array.start 0 list.length
      uninitialized (copyOne types source.start list.length array.start list.length) array.start list.length 0
        (copied.length - list.length)
      setArray this (some { array with finish := copied.length })) world returned thrown := by
  have within : (copied.take list.length).length = list.length := List.length_take_of_le more
  have cells : copied = copied.take list.length ++ copied.drop list.length := (List.take_append_drop _ _).symm
  apply EndsOr.bind
  rw [← within]
  apply assignPrefix_ends represents found known knownOther different foundOther cells (Nat.le_of_eq within) _ throws
  intro next same assigned
  have foundNext : next.arrays this = some array := by rw [same, found]
  have otherNext : next.arrays other = some source := by rw [same, foundOther]
  rw [within, List.drop_length, List.append_nil] at assigned
  rw [within]
  obtain ⟨_, read, held⟩ := assigned.holds foundNext
  rw [Function.update_self] at read
  cases read
  obtain ⟨_, read, heldOther⟩ := assigned.holds otherNext
  rw [Function.update_of_ne different, knownOther] at read
  cases read
  have size : (copied.drop list.length).length = copied.length - list.length := List.length_drop
  have sourcePoints : Points next source.start ((copied.take list.length).map some ++ ((copied.drop list.length).map some ++
      List.replicate (source.endOfStorage - copied.length) none)) := by
    have points := heldOther.points
    rwa [cells, List.map_append, List.append_assoc, ← cells] at points
  have raw : array.endOfStorage - list.length = (copied.drop list.length).length + (array.endOfStorage - copied.length) := by omega
  have points : Points next array.start ((copied.take list.length).map some ++
      (List.replicate (copied.drop list.length).length none ++ List.replicate (array.endOfStorage - copied.length) none)) := by
    have points := held.points
    rw [within] at points
    rwa [← List.replicate_add, ← raw]
  rw [← size]
  apply EndsOr.bind
  apply copy_ends sourcePoints (by rw [List.length_map, within]) points (by rw [List.length_map, within])
    fun address here there => different (assigned.apart other this source _ address otherNext foundNext here there)
  · intro last wrote filled
    apply setArray_ends
    let new : DynamicArray A := { array with finish := copied.length }
    have arrays : Function.update last.arrays this (some new) = Function.update world.arrays this (some new) := by
      rw [wrote.arrays, same]
    refine returns _ new arrays (Nat.le_refl _) ?_
    rw [← List.append_assoc, ← List.map_append, ← cells] at filled
    rw [← Function.update_idem (f := lists) (a := this)]
    apply assigned.rewrite foundNext (show new.start = array.start from rfl)
    · show Function.update last.arrays this (some new) = _
      rw [wrote.arrays]
    · exact fun address unpooled => wrote.outside address fun here => unpooled (.inr ⟨_, foundNext, here⟩)
    · exact wrote.lost
    · exact ⟨rfl, room, held.bounded, filled⟩
  · intro last done _ failed wrote undone
    refine throws last (copied.take list.length) ⟨_, failed⟩ (wrote.arrays.trans same) ?_
    rw [← Function.update_idem (f := lists) (a := this)]
    apply assigned.written foundNext (wrote.mono fun _ => .inl)
    apply held.sameLength rfl
    rw [within, raw, List.replicate_add]
    exact undone

end

variable [DecidableEq A]

/-- The allocator is replaced; the block stays. -/
theorem propagate_ends (represents : Represents types none world lists) (found : world.arrays this = some array)
    (alive : world.arrays other ≠ none) {returned : Unit → World ν A T → Prop}
    (returns : ∀ next allocator, next.arrays = Function.update world.arrays this (some { array with allocator_ := allocator }) →
      Represents types none next lists → returned () next) :
    Ends (propagate types this other) world returned thrown := by
  obtain ⟨source, foundOther⟩ := Option.ne_none_iff_exists'.mp alive
  obtain ⟨list, known, held⟩ := represents.holds found
  unfold propagate
  split
  · apply load_ends found
    apply load_ends foundOther
    rw [if_neg fun both => both.2 (types.alwaysEqual both.1 _ _)]
    apply load_ends found
    apply setArray_ends
    apply returns _ source.allocator_ rfl
    have kept : Represents types none
        { world with arrays := Function.update world.arrays this (some { array with allocator_ := source.allocator_ }) }
        (Function.update lists this (some list)) := by
      apply represents.rewrite found (show ({ array with allocator_ := source.allocator_ } : DynamicArray A).start = array.start from rfl) rfl
      · exact fun _ _ => rfl
      · rfl
      · exact ⟨held.finish, held.room, held.bounded, held.points⟩
    rwa [← known, Function.update_eq_self] at kept
  · apply EndsOr.pure
    exact returns world array.allocator_ (by rw [← found, Function.update_eq_self]) represents

/-- What the copies replace depends on the room; the new allocator does not matter for it. -/
theorem copyAssign_ends (represents : Represents types none world lists) (found : world.arrays this = some array)
    (knownOther : lists other = some copied) {returned : Unit → World ν A T → Prop}
    (returns : ∀ next new, next.arrays = Function.update world.arrays this (some new) → array.endOfStorage ≤ new.endOfStorage →
      Represents types none next (Function.update lists this (some copied)) → returned () next)
    (throws : ∀ next new left, (∃ n, types.throws n = true) → next.arrays = Function.update world.arrays this (some new) →
      array.endOfStorage ≤ new.endOfStorage → Represents types none next (Function.update lists this (some left)) →
      thrown .element next) :
    Ends (copyAssign types this other) world returned thrown := by
  unfold copyAssign
  split
  · rename_i same
    subst same
    apply EndsOr.pure
    apply returns world array (by rw [← found, Function.update_eq_self]) (Nat.le_refl _)
    rwa [← knownOther, Function.update_eq_self]
  rename_i different
  obtain ⟨source, foundOther, _⟩ := represents.alive other copied knownOther
  apply EndsOr.bind
  apply propagate_ends represents found (by rw [foundOther]; exact Option.some_ne_none _)
  intro middle allocator arrays kept
  have foundMiddle : middle.arrays this = some { array with allocator_ := allocator } := by rw [arrays, Function.update_self]
  have otherMiddle : middle.arrays other = some source := by rw [arrays, Function.update_of_ne different, foundOther]
  obtain ⟨list, known, held⟩ := kept.holds foundMiddle
  obtain ⟨_, read, heldOther⟩ := kept.holds otherMiddle
  cases knownOther.symm.trans read
  have returns' : ∀ next new, next.arrays = Function.update middle.arrays this (some new) → array.endOfStorage ≤ new.endOfStorage →
      Represents types none next (Function.update lists this (some copied)) → returned () next := by
    intro next new same
    rw [arrays, Function.update_idem] at same
    exact returns next new same
  have throws' : ∀ next left, (∃ n, types.throws n = true) → next.arrays = middle.arrays →
      Represents types none next (Function.update lists this (some left)) → thrown .element next := by
    intro next left failed same
    exact throws next { array with allocator_ := allocator } left failed (same.trans arrays) (Nat.le_refl _)
  apply load_ends foundMiddle
  apply load_ends otherMiddle
  dsimp only
  rw [heldOther.finish]
  split
  · rename_i larger
    exact copyToNew_ends kept foundMiddle known otherMiddle knownOther returns' throws' larger
  rename_i room
  rw [held.finish]
  split
  · rename_i fewer
    exact copyOver_ends kept foundMiddle known otherMiddle knownOther returns' throws' different fewer
  · rename_i more
    exact copyBehind_ends kept foundMiddle known otherMiddle knownOther returns' throws' different (by omega) (Nat.not_lt.mp room)

end

end Dsac.DynamicArrays

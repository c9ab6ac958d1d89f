import Dsac.Container.DynamicArray.Plain
import Dsac.Container.DynamicArray.Storage

namespace Dsac.DynamicArrays

open Dsac.Library Dsac.Library.Action

/-! Growing an array, and releasing what it held. -/

variable {ν Args A T : Type} {types : Types Args A T} {world next : World ν A T} {lists : Lists ν T} {loose pointer : Option Addr}
  {this : ν} {array : DynamicArray A} {list : List T} {α : Type} {thrown : Exn → World ν A T → Prop}

theorem newBlock_ends (n : Nat) (allocator : A) {returned : Option Addr → World ν A T → Prop}
    (holds : ∀ address next, world.heap.get address = none → Within (At (some address)) 0 world next →
      Points next (some address) (List.replicate n none) → returned (some address) next) :
    Ends (newBlock n allocator) world returned thrown := by
  apply EndsOr.of_returned rfl
  apply holds
  · exact Heap.get_fresh
  · refine ⟨fun address different => Heap.get_alloc_of_ne fun same => different (congrArg some same.symm), rfl, rfl, rfl⟩
  · exact ⟨allocator, Heap.get_alloc_fresh⟩

/-- A new block is loose. -/
theorem Represents.allocate (represents : Represents types none world lists) (n : Nat) (allocator : A)
    {returned : Option Addr → World ν A T → Prop}
    (returns : ∀ pointer next, n ≤ types.maxSize → Within (At pointer) 0 world next → Represents types pointer next lists →
      Points next pointer (List.replicate n none) → returned pointer next)
    (throws : types.maxSize < n → thrown .badAlloc world) : Ends (allocate types n allocator) world returned thrown := by
  unfold DynamicArrays.allocate
  split
  · rename_i zero
    apply EndsOr.pure
    exact returns none world (by omega) (Within.refl _ _) represents (by rw [zero]; rfl)
  · split
    · rename_i large
      exact EndsOr.throw (throws large)
    · rename_i small
      apply newBlock_ends
      intro address next free within points
      refine returns (some address) next (by omega) within ?_ points
      have apart : ∀ this array other, world.arrays this = some array → array.start = some other → some address ≠ some other := by
        rintro this array other found here ⟨⟩
        obtain ⟨list, _, holds⟩ := represents.holds found
        obtain ⟨block, live⟩ := holds.live here
        cases free.symm.trans live
      refine ⟨fun this list found => ?_, fun this absent => ?_, ?_, ?_, ?_, within.lost.trans represents.lost⟩
      · obtain ⟨array, there, holds⟩ := represents.alive this list found
        refine ⟨array, by rw [within.arrays, there], holds.congr fun other here => ?_⟩
        exact within.outside other (apart this array other there here)
      · rw [within.arrays]
        exact represents.dead this absent
      · rw [within.arrays]
        exact represents.apart
      · rw [within.arrays]
        exact apart
      · rw [within.arrays]
        intro other block live
        by_cases here : some address = some other
        · exact .inl here
        · rw [within.outside other here] at live
          exact (represents.owned other block live).imp (fun impossible => nomatch impossible) id

/-- A block without elements goes back. -/
theorem deallocate_ends {count : Nat} {allocator : A} (points : Points world pointer (List.replicate count none))
    {returned : Unit → World ν A T → Prop}
    (holds : ∀ next, Within (At pointer) 0 world next → (∀ address, pointer = some address → next.heap.get address = none) →
      returned () next) :
    Ends (deallocate pointer allocator) world returned thrown := by
  cases pointer with
  | none => exact holds world (Within.refl _ _) fun _ impossible => nomatch impossible
  | some address =>
      obtain ⟨owner, live⟩ := points
      apply EndsOr.bind
      apply EndsOr.of_returned (by simp only [blockAt, live]; rfl)
      apply EndsOr.modify
      apply holds
      · refine ⟨fun other different => Heap.get_free_of_ne fun same => different (congrArg some same.symm), rfl, rfl, ?_⟩
        simp
      · rintro _ ⟨⟩
        exact Heap.get_free_self

/-- The elements are destroyed and their block goes back. -/
theorem release_ends {allocator : A} {count : Nat} {following : Unit → Act ν A T α} {returned : α → World ν A T → Prop}
    (points : Points world pointer (list.map some ++ List.replicate count none))
    (ends : ∀ next, Within (At pointer) 0 world next → (∀ address, pointer = some address → next.heap.get address = none) →
      Ends (following ()) next returned thrown) :
    Ends (destroyRange pointer 0 list.length >>= fun _ => deallocate pointer allocator >>= following) world
      returned thrown := by
  have held : Points world pointer ([] ++ (list.map some ++ List.replicate count none)) := points
  apply EndsOr.bind
  apply destroyRange_ends list held rfl
  intro middle destroyed raw
  rw [List.nil_append, ← List.replicate_add] at raw
  apply EndsOr.bind
  apply deallocate_ends raw
  intro next freed gone
  exact ends next (destroyed.trans freed) gone

theorem load_ends {following : DynamicArray A → Act ν A T α} {returned : α → World ν A T → Prop}
    (found : world.arrays this = some array) (ends : Ends (following array) world returned thrown) :
    Ends (load this >>= following) world returned thrown := by
  apply EndsOr.bind
  apply EndsOr.of_returned (by simp only [load, found]; rfl)
  exact ends

theorem setArray_ends [DecidableEq ν] {new : Option (DynamicArray A)} {returned : Unit → World ν A T → Prop}
    (holds : returned () { world with arrays := Function.update world.arrays this new }) :
    Ends (setArray this new) world returned thrown := EndsOr.modify holds

theorem map_some_modify {index : Nat} {value : T} (found : list[index]? = some value) (change : T → T) :
    (list.modify index change).map some =
      (list.take index).map some ++ some (change value) :: (list.drop (index + 1)).map some := by
  obtain ⟨inside, rfl⟩ := List.getElem?_eq_some_iff.mp found
  rw [List.modify_eq_take_cons_drop inside, List.map_append, List.map_cons]

theorem length_map_some_take {index : Nat} {value : T} (found : list[index]? = some value) :
    ((list.take index).map some).length = index := by
  rw [List.length_map, List.length_take_of_le (Nat.le_of_lt (List.getElem?_eq_some_iff.mp found).1)]

theorem newElement_ends [DecidableEq ν] (represents : Represents types loose world lists) {braces : Bool}
    {argument : Argument ν Args} {value : T} (given : argument.value types braces lists = some value)
    {returned : T → World ν A T → Prop}
    (returns : ∀ next, Represents types loose next (argument.taken types lists) → next.arrays = world.arrays →
      (braces = true → next.operations = world.operations + 1) →
      (∀ address, loose = some address → next.heap.get address = world.heap.get address) → returned value next)
    (throws : ∀ next, types.throws world.operations = true → Within (fun _ => False) 1 world next → thrown .element next) :
    Ends (newElement types braces argument) world returned thrown := by
  cases argument with
  | args args =>
      cases given
      apply EndsOr.bind
      apply enter_ends
      · intro next passed
        exact returns next (represents.within passed.of_nowhere) passed.arrays (fun _ => passed.operations)
          fun address _ => passed.outside address id
      · exact fun next _ failed passed => throws next failed passed
  | element other index =>
      simp only [Argument.value, Option.map_eq_some_iff, Option.bind_eq_some_iff] at given
      obtain ⟨old, ⟨list, known, at_⟩, rfl⟩ := given
      obtain ⟨array, found, holds⟩ := represents.alive other list known
      have points := holds.points
      rw [map_some_split at_, List.append_assoc, List.cons_append] at points
      apply load_ends found
      apply EndsOr.bind
      apply element_ends points (length_map_some_take at_)
      apply EndsOr.bind
      apply enter_ends
      · intro next passed
        exact returns next (represents.within passed.of_nowhere) passed.arrays (fun _ => passed.operations)
          fun address _ => passed.outside address id
      · exact fun next _ failed passed => throws next failed passed
  | moved other index =>
      simp only [Argument.value, Option.map_eq_some_iff, Option.bind_eq_some_iff] at given
      obtain ⟨old, ⟨list, known, at_⟩, rfl⟩ := given
      obtain ⟨array, found, holds⟩ := represents.alive other list known
      have points := holds.points
      rw [map_some_split at_, List.append_assoc, List.cons_append] at points
      apply load_ends found
      apply EndsOr.bind
      apply element_ends points (length_map_some_take at_)
      apply EndsOr.bind
      apply enter_ends
      · intro entered passed
        apply EndsOr.bind
        apply assign_ends (points.within passed fun _ _ => id) (length_map_some_take at_)
        intro next assigned left
        have total : Within (At array.start) _ world next := passed.of_nowhere.trans assigned
        have taken : Holds types next array (list.modify index types.moved) := by
          refine ⟨by rw [List.length_modify, holds.finish], by rw [List.length_modify]; exact holds.room, holds.bounded, ?_⟩
          rw [map_some_modify at_, List.length_modify, List.append_assoc, List.cons_append]
          exact left
        have after : Represents types loose next (Function.update lists other (some (list.modify index types.moved))) :=
          represents.written found (total.mono fun _ => .inl) taken
        refine returns next ?_ total.arrays ?_ ?_
        · rw [Argument.taken, known]
          exact after
        · rintro rfl
          rw [total.operations, Bool.or_true]
          rfl
        · exact fun address isLoose => total.outside address fun here => represents.unowned other array address found here isLoose
      · exact fun next _ failed passed => throws next failed passed

theorem twiceSize_ends {size : Nat} (bounded : size ≤ types.maxSize) {returned : Nat → World ν A T → Prop}
    (returns : ∀ newSize, size < newSize → newSize ≤ types.maxSize → returned newSize world)
    (throws : size = types.maxSize → thrown .rangeError world) : Ends (twiceSize types size) world returned thrown := by
  have small := types.maxSize_lt
  have room : (types.maxSize + 2 ^ 64 - size) % 2 ^ 64 = types.maxSize - size := by omega
  unfold twiceSize
  rw [room]
  split
  · exact EndsOr.throw (throws (by omega))
  · apply EndsOr.pure
    split
    · exact returns _ (by omega) (Nat.le_refl _)
    · exact returns _ (by omega) (by omega)

/-- The elements are copied if a move may throw, and moved if not, or if they cannot be copied. -/
theorem relocate_ends {source result : Option Addr} {values : List T} {sourceAfter after : List (Option T)}
    (sourcePoints : Points world source (values.map some ++ sourceAfter))
    (points : Points world result (List.replicate values.length none ++ after))
    (apart : ∀ address, source = some address → result ≠ some address) {returned : Unit → World ν A T → Prop}
    (returns : ∀ next entered (left : List T), left.length = values.length →
      Within (fun address => At source address ∨ At result address) entered world next →
      Points next source (left.map some ++ sourceAfter) → Points next result (values.map some ++ after) → returned () next)
    (throws : ∀ next done (left : List T), done < values.length → left.length = values.length →
      types.isNothrowMoveConstructible = false → types.throws (world.operations + done) = true →
      (types.isCopyConstructible = true → left = values) →
      Within (fun address => At source address ∨ At result address) (done + 1) world next →
      Points next source (left.map some ++ sourceAfter) → Points next result (List.replicate values.length none ++ after) →
      thrown .element next) :
    Ends (uninitializedMoveIfNoexcept types source values.length result) world returned thrown := by
  have fromStart : Points world source ([] ++ (values.map some ++ sourceAfter)) := sourcePoints
  have raw : Points world result ([] ++ (List.replicate values.length none ++ after)) := points
  unfold uninitializedMoveIfNoexcept
  split
  · rename_i copies
    simp only [Bool.and_eq_true, Bool.not_eq_true'] at copies
    apply copy_ends fromStart rfl raw rfl apart
    · intro next within finished
      exact returns next _ values rfl (within.mono fun _ => .inr) (sourcePoints.within within apart) finished
    · intro next done inside failed within undone
      exact throws next done values inside rfl copies.1 failed (fun _ => rfl) (within.mono fun _ => .inr)
        (sourcePoints.within within apart) undone
  · rename_i moves
    apply move_ends fromStart rfl raw rfl apart
    · intro next within left finished
      exact returns next _ _ (List.length_map _) within left finished
    · intro next done inside throwing failed within left undone
      refine throws next done _ inside (length_movedOut values done) throwing failed (fun copyable => ?_) within left undone
      rw [throwing, copyable] at moves
      exact absurd rfl moves

/-- The loose block goes back without elements. -/
theorem Represents.discard (represents : Represents types loose world lists) {allocator : A} {count : Nat}
    (raw : Points world loose (List.replicate count none)) {returned : Unit → World ν A T → Prop}
    (returns : ∀ next, next.arrays = world.arrays → Represents types none next lists → returned () next) :
    Ends (deallocate loose allocator) world returned thrown := by
  apply deallocate_ends raw
  intro next freed gone
  exact returns next freed.arrays (represents.drop freed gone)

/-- The loop of constructions in a new block, which goes back if one of them throws. -/
theorem Represents.allocateAndCopy (represents : Represents types none world lists) {n count : Nat} {allocator : A}
    {constructOne : Option Addr → Nat → Act ν A T Unit} {returned : Option Addr → World ν A T → Prop}
    (failing : Exn → Lists ν T → Prop)
    (loop : ∀ pointer middle, n ≤ types.maxSize → middle.arrays = world.arrays → Represents types pointer middle lists →
      Points middle pointer (List.replicate n none) →
      Ends (uninitialized (constructOne pointer) pointer 0 0 count) middle (fun _ next => returned pointer next)
        (fun exception next => ∃ after, failing exception after ∧ next.arrays = world.arrays ∧
          Represents types pointer next after ∧ Points next pointer (List.replicate n none)))
    (large : types.maxSize < n → thrown .badAlloc world)
    (throws : ∀ exception after next, failing exception after → next.arrays = world.arrays →
      Represents types none next after → thrown exception next) :
    Ends (DynamicArrays.allocateAndCopy types n constructOne count allocator) world returned thrown := by
  apply EndsOr.bind
  apply represents.allocate n allocator _ large
  intro pointer middle small within stored raw
  apply EndsOr.catching
  apply EndsOr.bind
  apply (loop pointer middle small within.arrays stored raw).imp
  · exact fun _ next holds => EndsOr.pure holds
  · rintro exception next ⟨after, failed, arrays, remains, undone⟩
    apply EndsOr.bind
    apply remains.discard undone
    intro final same represented
    exact EndsOr.throw (throws exception after final failed (same.trans arrays) represented)

section

variable [DecidableEq ν]

/-- The elements of an array go to the start of the loose block. -/
theorem Represents.relocate (represents : Represents types loose world lists) (found : world.arrays this = some array)
    (known : lists this = some list) {after : List (Option T)}
    (points : Points world loose (List.replicate list.length none ++ after)) {returned : Unit → World ν A T → Prop}
    (returns : ∀ next left, next.arrays = world.arrays → Represents types loose next (Function.update lists this (some left)) →
      Points next loose (list.map some ++ after) → returned () next)
    (throws : ∀ next done left, done < list.length → types.isNothrowMoveConstructible = false →
      types.throws (world.operations + done) = true → (types.isCopyConstructible = true → left = list) →
      next.arrays = world.arrays → Represents types loose next (Function.update lists this (some left)) →
      Points next loose (List.replicate list.length none ++ after) → thrown .element next) :
    Ends (uninitializedMoveIfNoexcept types array.start array.finish loose) world returned thrown := by
  obtain ⟨_, same, holds⟩ := represents.holds found
  cases known.symm.trans same
  have apart : ∀ address, array.start = some address → loose ≠ some address :=
    fun address here => represents.unowned this array address found here
  rw [holds.finish]
  apply relocate_ends holds.points points apart
  · intro next entered left length within leftover relocated
    refine returns next left within.arrays (represents.written found within ?_) relocated
    exact holds.sameLength length leftover
  · intro next done left inside length throwing failed copies within leftover undone
    refine throws next done left inside throwing failed copies within.arrays (represents.written found within ?_) undone
    exact holds.sameLength length leftover

/-- The elements of an array are moved to the start of the loose block. -/
theorem Represents.moveAll (represents : Represents types loose world lists) (found : world.arrays this = some array)
    (known : lists this = some list) {after : List (Option T)}
    (points : Points world loose (List.replicate list.length none ++ after)) {returned : Unit → World ν A T → Prop}
    (returns : ∀ next left, next.arrays = world.arrays → Represents types loose next (Function.update lists this (some left)) →
      Points next loose (list.map some ++ after) → returned () next)
    (throws : ∀ next left, types.isNothrowMoveConstructible = false → (∃ n, types.throws n = true) →
      next.arrays = world.arrays → Represents types loose next (Function.update lists this (some left)) →
      Points next loose (List.replicate list.length none ++ after) → thrown .element next) :
    Ends (uninitialized (moveOne types array.start 0 loose 0) loose 0 0 list.length) world returned thrown := by
  obtain ⟨_, same, holds⟩ := represents.holds found
  cases known.symm.trans same
  have apart : ∀ address, array.start = some address → loose ≠ some address :=
    fun address here => represents.unowned this array address found here
  have fromStart : Points world array.start ([] ++ (list.map some ++ List.replicate (array.endOfStorage - list.length) none)) :=
    holds.points
  have intoStart : Points world loose ([] ++ (List.replicate list.length none ++ after)) := points
  apply move_ends fromStart rfl intoStart rfl apart
  · intro next within left relocated
    refine returns next (list.map types.moved) within.arrays (represents.written found within ?_) relocated
    exact holds.sameLength (List.length_map _) left
  · intro next done inside throwing failed within left undone
    refine throws next (movedOut types list done) throwing ⟨_, failed⟩ within.arrays (represents.written found within ?_) undone
    exact holds.sameLength (length_movedOut list done) left

/-- The old elements and their block are released, and the array takes the loose block. -/
theorem Represents.swap (represents : Represents types loose world lists) (found : world.arrays this = some array)
    {new : DynamicArray A} (start : new.start = loose) (holds : Holds types world new list)
    {returned : Unit → World ν A T → Prop}
    (returns : ∀ next, next.arrays = Function.update world.arrays this (some new) →
      Represents types none next (Function.update lists this (some list)) → returned () next) :
    Ends (do
      destroyRange array.start 0 array.finish
      deallocate array.start array.allocator_
      setArray this (some new)) world returned thrown := by
  obtain ⟨old, _, held⟩ := represents.holds found
  rw [held.finish]
  apply release_ends held.points
  intro freed released gone
  apply setArray_ends
  have arrays := congrArg (Function.update · this (some new)) released.arrays
  apply returns _ arrays
  apply represents.adopt start arrays
  · exact fun address unpooled => released.outside address fun here => unpooled (.inr ⟨array, found, here⟩)
  · intro mine address there here
    cases found.symm.trans there
    exact gone address here
  · exact released.lost
  · have kept : Holds types freed new list := holds.congr fun address here =>
      released.outside address fun mine => represents.unowned this array address found mine (start ▸ here)
    exact ⟨kept.finish, kept.room, kept.bounded, kept.points⟩

/-- A full array grows, unless the construction of the new element throws. -/
theorem reallocAndInsert_ends (represents : Represents types none world lists) {argument : Argument ν Args}
    {value : T} (found : world.arrays this = some array) (given : argument.value types true lists = some value)
    (calm : types.throws world.operations = false)
    (moves : types.isNothrowMoveConstructible = false → types.throws (world.operations + 1) = false)
    {returned : Unit → World ν A T → Prop}
    (returns : ∀ next list newStart newSize, argument.taken types lists this = some list → array.finish < newSize →
      next.arrays = Function.update world.arrays this
        (some { array with start := newStart, finish := array.finish + 1, endOfStorage := newSize }) →
      Represents types none next (Function.update (argument.taken types lists) this (some (list ++ [value]))) →
      returned () next)
    (full : array.finish = types.maxSize → thrown .rangeError world)
    (throws : ∀ next done list left, argument.taken types lists this = some list → done < array.finish →
      types.isNothrowMoveConstructible = false → types.throws (world.operations + 2 + done) = true →
      (types.isCopyConstructible = true → left = list) → next.arrays = world.arrays →
      Represents types none next (Function.update (argument.taken types lists) this (some left)) → thrown .element next) :
    Ends (reallocAndInsert types this argument) world returned thrown := by
  obtain ⟨_, _, held⟩ := represents.holds found
  have bounded : array.finish ≤ types.maxSize := by
    rw [held.finish]
    exact Nat.le_trans held.room held.bounded
  apply load_ends found
  apply EndsOr.bind
  apply twiceSize_ends bounded _ full
  intro newSize grown fits
  apply EndsOr.bind
  apply represents.allocate newSize array.allocator_
  · intro newStart allocated _ made loose raw
    apply EndsOr.bind
    apply EndsOr.catching
    apply EndsOr.bind
    apply newElement_ends loose given
    · intro built taken sameArrays counted sameLoose
      have foundBuilt : built.arrays this = some array := by rw [sameArrays, made.arrays, found]
      obtain ⟨list, known, holdsBuilt⟩ := taken.holds foundBuilt
      have finish := holdsBuilt.finish
      have cells : List.replicate newSize (none : Option T) =
          List.replicate list.length none ++ none :: List.replicate (newSize - (list.length + 1)) none := by
        rw [← List.replicate_succ, ← List.replicate_add]
        congr 1
        omega
      apply EndsOr.bind
      apply enter_ends
      · intro entered passed
        have placed := (raw.frame sameLoose).within passed fun _ _ => id
        rw [cells] at placed
        apply EndsOr.bind
        apply construct_ends placed (by rw [List.length_replicate, finish])
        intro constructed wrote filled
        have stored := (taken.within passed.of_nowhere).within wrote
        have sameStored : constructed.arrays = world.arrays := by rw [wrote.arrays, passed.arrays, sameArrays, made.arrays]
        have foundStored : constructed.arrays this = some array := by rw [sameStored, found]
        apply stored.relocate foundStored known filled
        · intro moved left arrays relocated block
          have foundMoved : moved.arrays this = some array := by rw [arrays, foundStored]
          let new : DynamicArray A := { array with start := newStart, finish := array.finish + 1, endOfStorage := newSize }
          have holdsNew : Holds types moved new (list ++ [value]) :=
            Holds.append (congrArg (· + 1) finish) (finish ▸ grown) fits block
          apply relocated.swap foundMoved rfl holdsNew
          intro next swapped final
          rw [Function.update_idem] at final
          refine returns next list newStart newSize known grown ?_ final
          rw [swapped, arrays, sameStored]
        · intro moved done left inside throwing failed copies arrays relocated undone
          apply EndsOr.bind
          apply destroyAt_ends undone (by rw [List.length_replicate, finish])
          intro destroyed removed raw
          rw [← cells] at raw
          apply EndsOr.bind
          apply (relocated.within removed).discard raw
          intro next sameNext final
          apply EndsOr.throw
          have counts : constructed.operations = world.operations + 2 := by
            rw [wrote.operations, passed.operations, counted rfl, made.operations, throwing]
            rfl
          rw [counts] at failed
          apply throws next done list left known (by rw [finish]; exact inside) throwing failed copies _ final
          rw [sameNext, removed.arrays, arrays, sameStored]
      · intro next may failed _
        rw [counted rfl, made.operations, Nat.add_zero, moves (by simpa using may)] at failed
        cases failed
    · intro next failed _
      rw [made.operations, Nat.add_zero, calm] at failed
      cases failed
  · intro large
    omega

/-- With room, only the construction of the new element can throw. -/
theorem pushBack_ends (represents : Represents types none world lists) {argument : Argument ν Args} {value : T}
    (found : world.arrays this = some array) (room : array.finish ≠ array.endOfStorage)
    (given : argument.value types false lists = some value) {returned : Unit → World ν A T → Prop}
    (returns : ∀ next list, argument.taken types lists this = some list →
      next.arrays = Function.update world.arrays this (some { array with finish := array.finish + 1 }) →
      Represents types none next (Function.update (argument.taken types lists) this (some (list ++ [value]))) →
      returned () next)
    (throws : ∀ next, types.throws world.operations = true → Within (fun _ => False) 1 world next → thrown .element next) :
    Ends (pushBack types this argument) world returned thrown := by
  apply load_ends found
  rw [if_pos room]
  apply EndsOr.bind
  apply newElement_ends represents given _ throws
  intro built taken sameArrays _ _
  have foundBuilt : built.arrays this = some array := by rw [sameArrays, found]
  obtain ⟨list, known, holds⟩ := taken.holds foundBuilt
  have finish := holds.finish
  have more : list.length + 1 ≤ array.endOfStorage := by
    have full := holds.room
    omega
  have points := holds.points
  have cells : array.endOfStorage - list.length = array.endOfStorage - (list.length + 1) + 1 := by omega
  rw [cells, List.replicate_succ] at points
  apply EndsOr.bind
  apply construct_ends points (by rw [List.length_map, finish])
  intro constructed wrote filled
  apply setArray_ends
  have sameStored : constructed.arrays = world.arrays := wrote.arrays.trans sameArrays
  let new : DynamicArray A := { array with finish := array.finish + 1 }
  have arrays := congrArg (Function.update · this (some new)) sameStored
  have holdsNew : Holds types constructed new (list ++ [value]) :=
    Holds.append (congrArg (· + 1) finish) more holds.bounded filled
  apply returns _ list known arrays
  apply taken.rewrite foundBuilt (show new.start = array.start from rfl) (by rw [wrote.arrays])
  · exact fun address unpooled => wrote.outside address fun here => unpooled (.inr ⟨array, foundBuilt, here⟩)
  · exact wrote.lost
  · exact holdsNew.congr fun _ _ => rfl

/-- More room for the same elements; if a move throws, those before it are moved out. -/
theorem reserve_ends (represents : Represents types none world lists) (found : world.arrays this = some array) (n : Nat)
    {returned : Unit → World ν A T → Prop}
    (returns : ∀ next new, next.arrays = Function.update world.arrays this (some new) → new.finish = array.finish →
      array.endOfStorage ≤ new.endOfStorage → n ≤ new.endOfStorage → Represents types none next lists → returned () next)
    (large : types.maxSize < n → thrown .rangeError world)
    (throws : ∀ next left, types.isNothrowMoveConstructible = false → (∃ n, types.throws n = true) →
      next.arrays = world.arrays → Represents types none next (Function.update lists this (some left)) →
      thrown .element next) :
    Ends (reserve types this n) world returned thrown := by
  unfold reserve
  split
  · rename_i beyond
    exact EndsOr.throw (large beyond)
  rename_i within
  apply load_ends found
  obtain ⟨list, known, held⟩ := represents.holds found
  split
  · rename_i more
    let failing : Exn → Lists ν T → Prop := fun exception after => exception = .element ∧
      types.isNothrowMoveConstructible = false ∧ (∃ n, types.throws n = true) ∧ ∃ left, after = Function.update lists this (some left)
    have full := held.room
    have cells : List.replicate n (none : Option T) = List.replicate list.length none ++ List.replicate (n - list.length) none := by
      rw [← List.replicate_add]
      congr 1
      omega
    rw [held.finish]
    apply EndsOr.bind
    apply represents.allocateAndCopy failing
    · intro pointer middle small same stored raw
      have foundMiddle : middle.arrays this = some array := by rw [same, found]
      rw [cells] at raw
      apply stored.moveAll foundMiddle known raw
      · intro moved left arrays remains filled
        let new : DynamicArray A := { array with start := pointer, endOfStorage := n }
        have holdsNew : Holds types moved new list := ⟨held.finish, show list.length ≤ n by omega, small, filled⟩
        rw [← held.finish]
        apply remains.swap (by rw [arrays, foundMiddle]) (show new.start = pointer from rfl) holdsNew
        intro next swapped final
        rw [Function.update_idem, ← known, Function.update_eq_self] at final
        exact returns next new (by rw [swapped, arrays, same]) rfl (show array.endOfStorage ≤ n by omega) (Nat.le_refl n) final
      · intro next left throwing failed arrays remains undone
        rw [← cells] at undone
        exact ⟨_, ⟨rfl, throwing, failed, left, rfl⟩, arrays.trans same, remains, undone⟩
    · exact fun beyond => absurd beyond within
    · rintro exception after next ⟨rfl, throwing, failed, left, rfl⟩ arrays final
      exact throws next left throwing failed arrays final
  · rename_i room
    apply EndsOr.pure
    apply returns world array (by rw [← found, Function.update_eq_self]) rfl (Nat.le_refl _) (by omega) represents

end

end Dsac.DynamicArrays

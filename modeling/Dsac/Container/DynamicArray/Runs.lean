import Dsac.Container.DynamicArray.Calls

namespace Dsac.DynamicArrays

open Dsac.Library Dsac.Library.Action

/-! Runs of calls on a family of arrays. -/

variable {ν Args A T : Type} {types : Types Args A T} {world next : World ν A T} {lists : Lists ν T} {this : ν}
  {array : DynamicArray A}

theorem Represents.elements (represents : Represents types none world lists) (this : ν) :
    world.elements this = (lists this).map (List.map some) := by
  cases known : lists this with
  | none =>
      rw [World.elements, represents.dead this known]
      rfl
  | some list =>
      obtain ⟨array, found, holds⟩ := represents.alive this list known
      have points := holds.points
      rw [World.elements, found]
      cases start : array.start with
      | none =>
          rw [start] at points
          obtain ⟨empty, _⟩ := List.append_eq_nil_iff.mp points
          simp [start, List.map_eq_nil_iff.mp empty]
      | some address =>
          rw [start] at points
          obtain ⟨owner, live⟩ := points
          simp [start, live, holds.finish]

theorem Represents.value (represents : Represents types none world lists) {argument : Argument ν Args}
    (valid : argument.Valid world) (braces : Bool) : ∃ value, argument.value types braces lists = some value := by
  cases argument with
  | args given => exact ⟨_, rfl⟩
  | element other index | moved other index =>
      obtain ⟨array, found, inside⟩ := valid
      obtain ⟨list, known, holds⟩ := represents.holds found
      rw [holds.finish] at inside
      simp only [Argument.value, known, Option.bind_some, List.getElem?_eq_getElem inside]
      exact ⟨_, rfl⟩

theorem Represents.initial (types : Types Args A T) : Represents types none ({} : World ν A T) (fun _ => none) where
  alive _ _ impossible := by cases impossible
  dead _ _ := rfl
  apart _ _ _ _ _ impossible := by cases impossible
  unowned _ _ _ impossible := by cases impossible
  owned address block live := by simp [Heap.get] at live
  lost := rfl

/-- On a full array, neither the construction of the new element nor its move to the block throws. -/
def Calm (types : Types Args A T) (world : World ν A T) : Call ν Args A T → Prop
  | .pushBack this _ => ∀ array ∈ world.arrays this, array.finish = array.endOfStorage → array.finish < types.maxSize →
      types.throws world.operations = false ∧
      (types.isNothrowMoveConstructible = false → types.throws (world.operations + 1) = false)
  | _ => True

theorem Calm.of_never (never : ∀ n, types.throws n = false) (world : World ν A T) (call : Call ν Args A T) : Calm types world call := by
  cases call with
  | pushBack this argument => exact fun array _ _ _ => ⟨never _, fun _ => never _⟩
  | _ => trivial

/-- `T(args...)` and `T{args...}` make the same elements. -/
structure Uniform (types : Types Args A T) : Prop where
  args : ∀ args, types.braced args = types.direct args
  copies : ∀ value, types.bracedCopy value = value

theorem Uniform.value (uniform : Uniform types) (argument : Argument ν Args) (braces : Bool) :
    argument.value types braces lists = argument.value types false lists := by
  cases argument <;> cases braces <;> simp [Argument.value, uniform.args, uniform.copies]

/-- No capacity gets smaller but that of an array that is moved from or destroyed. -/
structure Roomy (world next : World ν A T) (call : Call ν Args A T) : Prop where
  kept : ∀ name array, world.arrays name = some array → (∀ this, call ≠ .constructMove this name) → call ≠ .destructor name →
    ∃ later, next.arrays name = some later ∧ array.endOfStorage ≤ later.endOfStorage
  fits : ∀ name array, next.arrays name = some array → array.finish ≤ array.endOfStorage

theorem Represents.finish_le (represents : Represents types none world lists) (found : world.arrays this = some array) :
    array.finish ≤ array.endOfStorage := by
  obtain ⟨list, _, holds⟩ := represents.holds found
  rw [holds.finish]
  exact holds.room

theorem Roomy.same {call : Call ν Args A T} (represents : Represents types none next lists) (arrays : next.arrays = world.arrays) :
    Roomy world next call where
  kept name array found _ _ := ⟨array, by rw [arrays, found], Nat.le_refl _⟩
  fits name array found := represents.finish_le found

section

variable [DecidableEq ν]

/-- The arrays that a call does not take away have at least the room that they had. -/
theorem Roomy.update {call : Call ν Args A T} (represents : Represents types none next lists) {new : DynamicArray A}
    (arrays : next.arrays = Function.update world.arrays this (some new))
    (grown : ∀ array, world.arrays this = some array → array.endOfStorage ≤ new.endOfStorage) : Roomy world next call where
  kept name array found _ _ := by
    rw [arrays]
    by_cases same : name = this
    · subst same
      exact ⟨new, Function.update_self .., grown array found⟩
    · exact ⟨array, by rw [Function.update_of_ne same, found], Nat.le_refl _⟩
  fits name array found := represents.finish_le found

/-- The element type is copyable, or its moves do not throw. -/
def Guarded (types : Types Args A T) : Prop :=
  types.isCopyConstructible = true ∨ types.isNothrowMoveConstructible = true

/-- `push_back` appends the element, or throws and leaves the elements as they were. -/
theorem pushBack_appends (represents : Represents types none world lists) {argument : Argument ν Args}
    (found : world.arrays this = some array) (valid : argument.Valid world) (calm : Calm types world (.pushBack this argument))
    {returned : Unit → World ν A T → Prop} {thrown : Exn → World ν A T → Prop}
    (returns : ∀ next new list value, array.finish < types.maxSize → argument.taken types lists this = some list →
      argument.value types (decide (array.finish = array.endOfStorage)) lists = some value →
      next.arrays = Function.update world.arrays this (some new) → array.endOfStorage ≤ new.endOfStorage →
      Represents types none next (Function.update (argument.taken types lists) this (some (list ++ [value]))) → returned () next)
    (full : array.finish = types.maxSize → thrown .rangeError world)
    (throws : ∀ next after, array.finish < types.maxSize → (∃ n, types.throws n = true) → next.arrays = world.arrays →
      Represents types none next after →
      (Guarded types → ∀ name, (∀ index, argument ≠ .moved name index) → after name = lists name) → thrown .element next) :
    Ends (pushBack types this argument) world returned thrown := by
  obtain ⟨old, known, held⟩ := represents.holds found
  have below : array.finish ≤ array.endOfStorage := represents.finish_le found
  by_cases noRoom : array.finish = array.endOfStorage
  · obtain ⟨value, given⟩ := represents.value valid true
    have grows : Ends (reallocAndInsert types this argument) world returned thrown := by
      by_cases largest : array.finish = types.maxSize
      · apply load_ends found
        apply EndsOr.bind
        apply twiceSize_ends (Nat.le_of_eq largest)
        · intro newSize more fits
          omega
        · exact full
      have less : array.finish < types.maxSize := Nat.lt_of_le_of_ne (below.trans held.bounded) largest
      obtain ⟨constructs, moves⟩ := calm array found noRoom less
      apply reallocAndInsert_ends represents found given constructs moves
      · intro next list newStart newSize taken grown arrays after
        refine returns next _ list value less taken ?_ arrays (noRoom ▸ Nat.le_of_lt grown) after
        rw [decide_eq_true noRoom, given]
      · exact full
      · intro next done list left taken inside throwing failed copies arrays after
        refine throws next _ less ⟨_, failed⟩ arrays after ?_
        intro guarded name others
        obtain rfl := copies (guarded.resolve_right (by rw [throwing]; exact Bool.false_ne_true))
        rw [← taken, Function.update_eq_self, Argument.taken_of_ne others]
    apply load_ends found
    rw [if_neg (not_not.mpr noRoom)]
    exact grows
  · obtain ⟨value, given⟩ := represents.value valid false
    have less : array.finish < types.maxSize := (Nat.lt_of_le_of_ne below noRoom).trans_le held.bounded
    apply pushBack_ends represents found noRoom given
    · intro next list taken arrays after
      refine returns next _ list value less taken ?_ arrays (Nat.le_refl _) after
      rw [decide_eq_false noRoom, given]
    · intro next failed passed
      exact throws next lists less ⟨_, failed⟩ passed.arrays (represents.within passed.of_nowhere) fun _ _ _ => rfl

/-- What a call leaves: the lists that the same call makes of the lists, or others if an element threw. -/
structure Leaves (types : Types Args A T) (lists : Lists ν T) (world : World ν A T) (call : Call ν Args A T)
    (result : Except Exn Unit) (next : World ν A T) : Prop where
  represents : ∃ after, Represents types none next after ∧
    (Uniform types → (∀ n, types.throws n = false) → Lists.perform types lists call = (result, after))
  roomy : Roomy world next call
  reserved : result = .ok () → ∀ name n, call = .reserve name n → ∀ array, next.arrays name = some array → n ≤ array.endOfStorage

theorem Leaves.of_element {call : Call ν Args A T} {after : Lists ν T} (represents : Represents types none next after)
    (roomy : Roomy world next call) (throws : ∃ n, types.throws n = true) :
    Leaves types lists world call (.error .element) next where
  represents := by
    refine ⟨after, represents, fun _ never => ?_⟩
    obtain ⟨n, failed⟩ := throws
    rw [never] at failed
    cases failed
  roomy := roomy
  reserved impossible := by cases impossible

theorem Leaves.of_error {call : Call ν Args A T} {exception : Exn} (represents : Represents types none world lists)
    (same : Lists.perform types lists call = (.error exception, lists)) :
    Leaves types lists world call (.error exception) world where
  represents := ⟨lists, represents, fun _ _ => same⟩
  roomy := .same represents rfl
  reserved impossible := by cases impossible

theorem Leaves.of_ok {call : Call ν Args A T} {after : Lists ν T} (represents : Represents types none next after)
    (same : Uniform types → Lists.perform types lists call = (.ok (), after)) (roomy : Roomy world next call)
    (others : ∀ name n, call ≠ .reserve name n) : Leaves types lists world call (.ok ()) next where
  represents := ⟨after, represents, fun uniform _ => same uniform⟩
  roomy := roomy
  reserved _ name n is := absurd is (others name n)

/-- What is constructed has a name that was free. -/
theorem Roomy.constructed {call : Call ν Args A T} {after : Lists ν T} (absent : world.arrays this = none)
    (represents : Represents types none next after) (arrays : next.arrays = Function.update world.arrays this (some array)) :
    Roomy world next call := by
  refine .update represents arrays ?_
  intro old found
  cases absent.symm.trans found

theorem constructList_leaves (represents : Represents types none world lists) (absent : world.arrays this = none) {list : List T}
    {allocator : A} {call : Call ν Args A T} (same : Lists.perform types lists call = lists.construct types this list)
    (others : ∀ name n, call ≠ .reserve name n) :
    Ends (constructArray types this list.length (listOne types list) allocator) world
      (fun _ next => Leaves types lists world call (.ok ()) next)
      (fun exception next => Leaves types lists world call (.error exception) next) := by
  rw [Lists.construct] at same
  apply constructList_ends represents absent
  · intro next array small _ arrays after
    rw [if_neg (Nat.not_lt.mpr small)] at same
    exact .of_ok after (fun _ => same) (.constructed absent after arrays) others
  · intro large
    rw [if_pos large] at same
    exact .of_error represents same
  · exact fun next failed arrays after => .of_element after (.same after arrays) failed

theorem pushBack_leaves (represents : Represents types none world lists) {argument : Argument ν Args}
    (alive : world.arrays this ≠ none) (valid : argument.Valid world) (calm : Calm types world (.pushBack this argument)) :
    Ends (pushBack types this argument) world (fun _ next => Leaves types lists world (.pushBack this argument) (.ok ()) next)
      (fun exception next => Leaves types lists world (.pushBack this argument) (.error exception) next) := by
  obtain ⟨array, found⟩ := Option.ne_none_iff_exists'.mp alive
  obtain ⟨list, known, held⟩ := represents.holds found
  have length : (lists this).map List.length = some array.finish := by rw [known, held.finish, Option.map_some]
  apply pushBack_appends represents found valid calm
  · intro next new left value less taken given arrays grown after
    refine .of_ok after (fun uniform => ?_) (.update after arrays fun old foundOld => ?_) (by simp)
    · rw [uniform.value] at given
      rw [Lists.perform, length, if_neg (by simp [Nat.ne_of_lt less]), Lists.append, taken, given]
      rfl
    · cases found.symm.trans foundOld
      exact grown
  · intro largest
    exact .of_error represents (by rw [Lists.perform, length, largest, if_pos rfl])
  · exact fun next after _ failed arrays represents _ => .of_element represents (.same represents arrays) failed

variable [DecidableEq A]

theorem copyAssign_leaves (represents : Represents types none world lists) {other : ν} (alive : world.arrays this ≠ none)
    (aliveOther : world.arrays other ≠ none) :
    Ends (copyAssign types this other) world (fun _ next => Leaves types lists world (.copyAssign this other) (.ok ()) next)
      (fun exception next => Leaves types lists world (.copyAssign this other) (.error exception) next) := by
  obtain ⟨array, found⟩ := Option.ne_none_iff_exists'.mp alive
  obtain ⟨source, foundOther⟩ := Option.ne_none_iff_exists'.mp aliveOther
  obtain ⟨copied, knownOther, _⟩ := represents.holds foundOther
  have grown : ∀ new : DynamicArray A, array.endOfStorage ≤ new.endOfStorage →
      ∀ old, world.arrays this = some old → old.endOfStorage ≤ new.endOfStorage := by
    intro new more old foundOld
    cases found.symm.trans foundOld
    exact more
  apply copyAssign_ends represents found knownOther
  · intro next new arrays more after
    exact .of_ok after (fun _ => by rw [Lists.perform, knownOther]) (.update after arrays (grown new more)) (by simp)
  · intro next new left failed arrays more after
    exact .of_element after (.update after arrays (grown new more)) failed

theorem perform_leaves (represents : Represents types none world lists) {call : Call ν Args A T} (fits : Fits world call)
    (calm : Calm types world call) :
    Ends (perform types call) world (fun _ next => Leaves types lists world call (.ok ()) next)
      (fun exception next => Leaves types lists world call (.error exception) next) := by
  cases call with
  | constructEmpty this allocator =>
      apply setArray_ends
      have made : Represents types none { world with arrays := Function.update world.arrays this (some { allocator_ := allocator }) }
          (Function.update lists this (some [])) :=
        represents.construct fits rfl ⟨rfl, Nat.le_refl 0, Nat.zero_le _, rfl⟩
      exact .of_ok made (fun _ => rfl) (.constructed fits made rfl) (by simp)
  | constructFill this n value allocator =>
      have filled := @constructList_leaves _ _ _ _ types world lists this _ represents fits (List.replicate n value) allocator
        (.constructFill this n value allocator) rfl (by simp)
      rwa [List.length_replicate] at filled
  | constructList this list allocator => exact constructList_leaves represents fits rfl (by simp)
  | constructCopy this other =>
      obtain ⟨source, found⟩ := Option.ne_none_iff_exists'.mp fits.2
      obtain ⟨list, known, _⟩ := represents.holds found
      apply constructCopy_ends represents fits.1 known
      · intro next array arrays after
        exact .of_ok after (fun _ => by rw [Lists.perform, known]) (.constructed fits.1 after arrays) (by simp)
      · exact fun next failed arrays after => .of_element after (.same after arrays) failed
  | constructMove this other =>
      obtain ⟨source, found⟩ := Option.ne_none_iff_exists'.mp fits.2
      obtain ⟨list, known, _⟩ := represents.holds found
      apply constructMove_ends represents fits.1 found known
      intro next arrays after
      refine .of_ok after (fun _ => by rw [Lists.perform, known]) ⟨?_, fun name array => after.finish_le⟩ (by simp)
      intro name array there notMoved _
      have notOther : name ≠ other := fun same => notMoved this (by rw [same])
      have notThis : name ≠ this := by
        rintro rfl
        cases fits.1.symm.trans there
      rw [arrays, Function.update_of_ne notThis, Function.update_of_ne notOther]
      exact ⟨array, there, Nat.le_refl _⟩
  | pushBack this argument => exact pushBack_leaves represents fits.1 fits.2 calm
  | reserve this n =>
      obtain ⟨array, found⟩ := Option.ne_none_iff_exists'.mp fits
      apply reserve_ends represents found n
      · intro next new arrays _ more enough after
        refine ⟨⟨lists, after, fun _ _ => ?_⟩, .update after arrays fun old foundOld => ?_, ?_⟩
        · obtain ⟨_, _, held⟩ := after.holds (by rw [arrays, Function.update_self] : next.arrays this = some new)
          rw [Lists.perform, if_neg (Nat.not_lt.mpr (enough.trans held.bounded))]
        · cases found.symm.trans foundOld
          exact more
        · rintro _ name size ⟨⟩ last foundLast
          rw [arrays, Function.update_self] at foundLast
          cases foundLast
          exact enough
      · intro large
        exact .of_error represents (by rw [Lists.perform, if_pos large])
      · exact fun next left throwing failed arrays after => .of_element after (.same after arrays) failed
  | clear this =>
      obtain ⟨array, found⟩ := Option.ne_none_iff_exists'.mp fits
      apply clear_ends represents found
      intro next arrays after
      refine .of_ok after (fun _ => rfl) (.update after arrays fun old foundOld => ?_) (by simp)
      cases found.symm.trans foundOld
      exact Nat.le_refl _
  | copyAssign this other => exact copyAssign_leaves represents fits.1 fits.2
  | destructor this =>
      obtain ⟨array, found⟩ := Option.ne_none_iff_exists'.mp fits
      apply destructor_ends represents found
      intro next arrays after
      refine .of_ok after (fun _ => rfl) ⟨?_, fun name array => after.finish_le⟩ (by simp)
      intro name array there _ notDestroyed
      rw [arrays, Function.update_of_ne fun same => notDestroyed (by rw [same])]
      exact ⟨array, there, Nat.le_refl _⟩

/-- After every call the arrays hold what the lists hold, the result of the call is that on the lists, and there is room. -/
def Refined (types : Types Args A T) : World ν A T → Lists ν T → List (Call ν Args A T) → Prop
  | world, lists, [] => ∀ this, world.elements this = (lists this).map (List.map some)
  | world, lists, call :: calls => (∀ this, world.elements this = (lists this).map (List.map some)) ∧
      ∃ next, perform types call world = .ok ((lists.perform types call).1, next) ∧ Roomy world next call ∧
        ((lists.perform types call).1 = .ok () → ∀ name n, call = .reserve name n →
          ∀ array, next.arrays name = some array → n ≤ array.endOfStorage) ∧
        Refined types next (lists.perform types call).2 calls

/-- How a call ended, and what it left. -/
theorem perform_result (represents : Represents types none world lists) {call : Call ν Args A T} (fits : Fits world call)
    (calm : Calm types world call) :
    ∃ result next, perform types call world = .ok (result, next) ∧ Leaves types lists world call result next := by
  rcases (perform_leaves represents fits calm).result with ⟨_, next, ran, leaves⟩ | ⟨exception, next, ran, leaves⟩
  · exact ⟨_, next, ran, leaves⟩
  · exact ⟨_, next, ran, leaves⟩

theorem step_of_perform {call : Call ν Args A T} {result : Except Exn Unit} (ran : perform types call world = .ok (result, next)) :
    step types world call = .ok next := by
  rw [step, ran]
  rfl

theorem refined_of_uniform (uniform : Uniform types) (never : ∀ n, types.throws n = false)
    (represents : Represents types none world lists) {calls : List (Call ν Args A T)} (fits : Meets (step types) Fits world calls) :
    Refined types world lists calls := by
  induction calls generalizing world lists with
  | nil => exact represents.elements
  | cons call calls ih =>
      obtain ⟨result, next, ran, ⟨after, kept, same⟩, roomy, reserved⟩ := perform_result represents fits.1 (.of_never never world call)
      refine ⟨represents.elements, next, ?_⟩
      rw [same uniform never]
      exact ⟨ran, roomy, reserved, ih kept (fits.2 next (step_of_perform ran))⟩

/-- On a full array, the new element is made with braces. -/
theorem value_of_refined (never : ∀ n, types.throws n = false) (represents : Represents types none world lists)
    {argument : Argument ν Args} (found : world.arrays this = some array) (full : array.finish = array.endOfStorage)
    (less : array.finish < types.maxSize) (valid : argument.Valid world) (plain : argument.taken types lists = lists)
    (refined : Refined types world lists [.pushBack this argument]) :
    argument.value types true lists = argument.value types false lists := by
  obtain ⟨value, given⟩ := represents.value valid false
  have appends : Ends (pushBack types this argument) world
      (fun _ next => ∀ list, lists this = some list →
        ∃ value, argument.value types true lists = some value ∧ next.elements this = some ((list ++ [value]).map some))
      (fun _ _ => False) := by
    apply pushBack_appends represents found valid (.of_never never world _)
    · intro next new list made _ known braced _ _ after list' known'
      rw [plain, known'] at known
      cases known
      rw [decide_eq_true full] at braced
      exact ⟨made, braced, by rw [after.elements, Function.update_self, Option.map_some]⟩
    · exact fun largest => absurd less (by omega)
    · rintro _ _ _ ⟨n, throws⟩
      rw [never] at throws
      cases throws
  obtain ⟨list, known, held⟩ := represents.holds found
  rcases appends.result with ⟨_, next, ran, holds⟩ | ⟨_, _, _, impossible⟩
  · obtain ⟨made, braced, elements⟩ := holds list known
    obtain ⟨_, last, ran', _, _, final⟩ := refined
    obtain rfl : next = last := (Prod.ext_iff.mp (Except.ok.inj (ran.symm.trans ran'))).2
    have shorter : list.length ≠ types.maxSize := by
      rw [← held.finish]
      exact Nat.ne_of_lt less
    have listed := final this
    simp only [Lists.perform, known, Option.map_some, Option.some.injEq, if_neg shorter, Lists.append, plain, given,
      Function.update_self, elements] at listed
    rw [braced, given]
    simpa using listed
  · exact impossible.elim

/-- An array that was made from a list is full, so that the next element is made with braces. -/
theorem value_after_list (never : ∀ n, types.throws n = false) {name : ν} (allocator : A)
    (always : ∀ calls : List (Call ν Args A T), Meets (step types) Fits {} calls → Refined types {} (fun _ => none) calls)
    {list : List T} (short : list.length < types.maxSize) {argument : Argument ν Args}
    (valid : ∀ (world : World ν A T) array, world.arrays name = some array → array.finish = list.length → argument.Valid world)
    (plain : ∀ lists, argument.taken types lists = lists) :
    argument.value types true (Function.update (fun _ => none) name (some list)) =
      argument.value types false (Function.update (fun _ => none) name (some list)) := by
  have made : Ends (perform types (.constructList name list allocator : Call ν Args A T)) ({} : World ν A T)
      (fun _ next => ∃ array, next.arrays name = some array ∧ array.endOfStorage = list.length ∧
        Represents types none next (Function.update (fun _ => none) name (some list)))
      (fun _ _ => False) := by
    apply constructList_ends (.initial types) rfl
    · intro next array _ size arrays after
      exact ⟨array, by rw [arrays, Function.update_self], size, after⟩
    · exact fun large => absurd short (by omega)
    · rintro _ ⟨n, throws⟩
      rw [never] at throws
      cases throws
  rcases made.result with ⟨_, middle, ran, array, found, size, after⟩ | ⟨_, _, _, impossible⟩
  · obtain ⟨_, read, held⟩ := after.holds found
    rw [Function.update_self] at read
    cases read
    have fits : Meets (step types) Fits {} [.constructList name list allocator, .pushBack name argument] := by
      refine ⟨rfl, ?_⟩
      intro next stepped
      cases (step_of_perform ran).symm.trans stepped
      exact ⟨⟨by rw [found]; exact Option.some_ne_none _, valid middle array found held.finish⟩, fun _ _ => trivial⟩
    obtain ⟨_, next, ran', _, _, refined⟩ := always _ fits
    obtain rfl : middle = next := (Prod.ext_iff.mp (Except.ok.inj (ran.symm.trans ran'))).2
    rw [Lists.perform, Lists.construct, if_neg (by omega)] at refined
    exact value_of_refined never after found (held.finish.trans size.symm) (by rw [held.finish]; exact short)
      (valid middle array found held.finish) (plain _) refined
  · exact impossible.elim

/-- The family of arrays does what the lists do, in all runs, exactly if braces make the elements that parentheses make. -/
theorem runs_refine_lists_iff (never : ∀ n, types.throws n = false) (room : 2 ≤ types.maxSize) (name : ν) (allocator : A) :
    (∀ calls : List (Call ν Args A T), Meets (step types) Fits {} calls → Refined types {} (fun _ => none) calls) ↔
      Uniform types := by
  constructor
  · intro always
    constructor
    · intro given
      have same := @value_after_list _ _ _ _ _ _ _ never name allocator always [] (by simp; omega) (.args given)
        (fun _ _ _ _ => trivial) (fun _ => rfl)
      exact Option.some.inj same
    · intro value
      have same := @value_after_list _ _ _ _ _ _ _ never name allocator always [value] (by simp; omega) (.element name 0)
        (fun world array found finish => ⟨array, found, by rw [finish]; exact Nat.zero_lt_one⟩) (fun _ => rfl)
      simpa [Argument.value] using same
  · exact fun uniform calls fits => refined_of_uniform uniform never (.initial types) fits

theorem runs_refine_lists_iff_numbers :
    (∀ calls : List (Call Bool Nat Nat Nat), Meets (step numbers) Fits {} calls → Refined numbers {} (fun _ => none) calls) ↔
      Uniform numbers :=
  runs_refine_lists_iff (fun _ => rfl) (by decide) false 0

end

end Dsac.DynamicArrays

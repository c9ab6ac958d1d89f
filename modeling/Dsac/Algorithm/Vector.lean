import Dsac.Fault

namespace Dsac.Sort

/-! `std::vector` with indices of type `int`. -/

variable {T : Type}

def minInt : Int := -2147483648

def maxInt : Int := 2147483647

/-- The result of a computation in `int`. -/
def checked (value : Int) : Outcome Int :=
  if minInt ≤ value ∧ value ≤ maxInt then .ok value else .error .overflow

/-- The conversion to `int`. -/
def toInt (value : Int) : Int := value.bmod (2 ^ 32)

/-- `arr[index]`; a negative index is converted to one past every end. -/
def readAt (arr : List T) (index : Int) : Outcome T :=
  if 0 ≤ index then
    match arr[index.toNat]? with
    | some value => .ok value
    | none => .error .outOfRange
  else .error .outOfRange

/-- `arr[index] = value` -/
def writeAt (arr : List T) (index : Int) (value : T) : Outcome (List T) :=
  if 0 ≤ index ∧ index < arr.length then .ok (arr.set index.toNat value) else .error .outOfRange

/-- `std::swap(arr[first], arr[second])` -/
def swapAt (arr : List T) (first second : Int) : Outcome (List T) := do
  let held ← readAt arr first
  let arr ← writeAt arr first (← readAt arr second)
  writeAt arr second held

/-- The elements from `low` to `high`. -/
def range (arr : List T) (low high : Int) : List T := (arr.drop low.toNat).take (high + 1 - low).toNat

variable {arr next front middle back : List T} {value other : T} {index first second : Int}

theorem checked_of_range (low : -2147483648 ≤ index) (high : index ≤ 2147483647) : checked index = .ok index :=
  if_pos ⟨low, high⟩

theorem toInt_of_range (low : -2147483648 ≤ index) (high : index ≤ 2147483647) : toInt index = index := by
  rw [toInt, Int.bmod_eq_emod]
  split_ifs <;> omega

theorem length_snoc (front : List T) (value : T) : ((front ++ [value]).length : Int) = front.length + 1 := by
  rw [List.length_append]
  rfl

theorem readAt_append (here : index = front.length) : readAt (front ++ value :: back) index = .ok value := by
  subst here
  simp [readAt]

theorem readAt_of_getElem? {place : Nat} (back : List T) (here : front[place]? = some value) :
    readAt (front ++ back) place = .ok value := by
  obtain ⟨inside, _⟩ := List.getElem?_eq_some_iff.mp here
  simp only [readAt, Int.natCast_nonneg, if_true, Int.toNat_natCast, List.getElem?_append_left inside, here]

theorem readAt_of_getElem?_nil {place : Nat} (here : arr[place]? = some value) : readAt arr place = .ok value := by
  have read := readAt_of_getElem? [] here
  rwa [List.append_nil] at read

theorem writeAt_append (here : index = front.length) (next : T) :
    writeAt (front ++ value :: back) index next = .ok (front ++ next :: back) := by
  subst here
  have inside : (front.length : Int) < (front ++ value :: back).length := by
    rw [List.length_append, List.length_cons]
    omega
  simp [writeAt]

theorem swapAt_self (here : index = front.length) :
    swapAt (front ++ value :: back) index index = .ok (front ++ value :: back) := by
  simp only [swapAt, readAt_append here, writeAt_append here, Outcome.ok_bind]

theorem perm_swap (value other : T) (middle back : List T) :
    (value :: (middle ++ other :: back)).Perm (other :: (middle ++ value :: back)) :=
  (List.perm_middle.cons value).trans ((List.Perm.swap other value _).trans (List.perm_middle.symm.cons other))

section

variable (here : first = front.length) (there : second = front.length + 1 + middle.length)
include there

theorem readAt_second (value other : T) :
    readAt (front ++ value :: (middle ++ other :: back)) second = .ok other := by
  have far : second = (front ++ value :: middle).length := by
    rw [List.length_append, List.length_cons, there]
    push_cast
    omega
  have read : readAt (front ++ value :: middle ++ other :: back) second = .ok other := readAt_append far
  rwa [List.append_assoc, List.cons_append] at read

theorem writeAt_second (value other next : T) :
    writeAt (front ++ value :: (middle ++ other :: back)) second next = .ok (front ++ value :: (middle ++ next :: back)) := by
  have far : second = (front ++ value :: middle).length := by
    rw [List.length_append, List.length_cons, there]
    push_cast
    omega
  have written : writeAt (front ++ value :: middle ++ other :: back) second next =
      .ok (front ++ value :: middle ++ next :: back) := writeAt_append far next
  rwa [List.append_assoc, List.cons_append, List.append_assoc, List.cons_append] at written

include here

/-- The two elements change places. -/
theorem swapAt_append :
    swapAt (front ++ value :: (middle ++ other :: back)) first second =
      .ok (front ++ other :: (middle ++ value :: back)) := by
  simp only [swapAt, readAt_append here, readAt_second there, writeAt_append here, Outcome.ok_bind, writeAt_second there]

theorem swapAt_append_back :
    swapAt (front ++ value :: (middle ++ other :: back)) second first =
      .ok (front ++ other :: (middle ++ value :: back)) := by
  simp only [swapAt, readAt_append here, readAt_second there, writeAt_append here, Outcome.ok_bind, writeAt_second there]

end

theorem range_append {part : List T} {low high : Int} (start : low = front.length) (last : high + 1 = low + part.length) :
    range (front ++ (part ++ back)) low high = part := by
  have skip : low.toNat = front.length := by omega
  have count : (high + 1 - low).toNat = part.length := by omega
  rw [range, skip, count, List.drop_left, List.take_left]

/-- Two elements of the first part change places. -/
theorem swapAt_inside {place child : Nat} (back : List T) (here : front[place]? = some value)
    (there : front[child]? = some other) :
    swapAt (front ++ back) place child = .ok ((front.set place other).set child value ++ back) := by
  obtain ⟨inside, _⟩ := List.getElem?_eq_some_iff.mp here
  obtain ⟨insideToo, _⟩ := List.getElem?_eq_some_iff.mp there
  have long : front.length ≤ (front ++ back).length := by
    rw [List.length_append]
    omega
  have nextInside : child < (front.set place other).length := by rwa [List.length_set]
  have moved : writeAt (front ++ back) place other = .ok (front.set place other ++ back) := by
    rw [writeAt, if_pos ⟨by omega, by omega⟩, Int.toNat_natCast, List.set_append_left _ _ inside]
  have closed : writeAt (front.set place other ++ back) child value =
      .ok ((front.set place other).set child value ++ back) := by
    rw [writeAt, if_pos ⟨by omega, by rw [List.length_append, List.length_set]; omega⟩, Int.toNat_natCast,
      List.set_append_left _ _ nextInside]
  simp only [swapAt, readAt_of_getElem? back here, readAt_of_getElem? back there, Outcome.ok_bind, moved, closed]

/-- What is read is an element. -/
theorem readAt_cases {value : T} (read : readAt arr index = .ok value) :
    0 ≤ index ∧ arr[index.toNat]? = some value := by
  rw [readAt] at read
  split_ifs at read with low
  cases found : arr[index.toNat]? with
  | none => simp only [found, reduceCtorEq] at read
  | some stored =>
      simp only [found, Except.ok.injEq] at read
      exact ⟨low, by rw [read]⟩

theorem mem_of_readAt {value : T} (read : readAt arr index = .ok value) : value ∈ arr :=
  List.mem_of_getElem? (readAt_cases read).2

theorem mem_range_of_readAt {value : T} {low high : Int} (read : readAt arr index = .ok value) (nonneg : 0 ≤ low)
    (above : low ≤ index) (below : index ≤ high) : value ∈ range arr low high := by
  obtain ⟨_, found⟩ := readAt_cases read
  refine List.mem_of_getElem? (i := index.toNat - low.toNat) ?_
  rw [range, List.getElem?_take, if_pos (by omega), List.getElem?_drop]
  rwa [Nat.add_sub_cancel' (by omega)]

theorem writeAt_cases {value : T} (written : writeAt arr index value = .ok next) :
    index.toNat < arr.length ∧ next = arr.set index.toNat value := by
  rw [writeAt] at written
  split_ifs at written with inside
  exact ⟨by omega, (Except.ok.inj written).symm⟩

theorem swapAt_perm (swapped : swapAt arr first second = .ok next) : next.Perm arr := by
  obtain ⟨held, readFirst, rest⟩ := Outcome.of_bind swapped
  obtain ⟨moved, readSecond, rest⟩ := Outcome.of_bind rest
  obtain ⟨middle, written, rest⟩ := Outcome.of_bind rest
  obtain ⟨inside, rfl⟩ := writeAt_cases written
  obtain ⟨_, rfl⟩ := writeAt_cases rest
  obtain ⟨_, foundFirst⟩ := readAt_cases readFirst
  obtain ⟨insideToo, foundSecond⟩ := List.getElem?_eq_some_iff.mp (readAt_cases readSecond).2
  obtain ⟨_, foundFirst⟩ := List.getElem?_eq_some_iff.mp foundFirst
  subst foundFirst foundSecond
  exact List.set_set_perm inside insideToo

end Dsac.Sort

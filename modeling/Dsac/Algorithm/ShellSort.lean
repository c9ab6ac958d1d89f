import Dsac.Library.SortedRange
import Dsac.Library.Stride
import Dsac.Algorithm.Vector

namespace Dsac.Sort

open Dsac.Library

/-! `dsac::sort::ShellSort`. -/

variable {T : Type} [LinearOrder T]

/-- `for (j = step; j >= d; j -= d)` -/
def strideLoop (d : Int) : Nat → List T → Int → Outcome (List T)
  | 0, _, _ => .error .fuel
  | fuel + 1, arr, j =>
      if d ≤ j then do
        if (← readAt arr j) < (← readAt arr (j - d)) then strideLoop d fuel (← swapAt arr j (j - d)) (j - d)
        else strideLoop d fuel arr (j - d)
      else .ok arr

/-- `for (step = d; step < arr.size(); ++step)` -/
def stepLoop (d : Int) : Nat → List T → Int → Outcome (List T)
  | 0, _, _ => .error .fuel
  | fuel + 1, arr, step =>
      if step < arr.length then do
        let arr ← strideLoop d (arr.length + 1) arr step
        stepLoop d fuel arr (← checked (step + 1))
      else .ok arr

/-- One iteration of the loop over the gaps. -/
def shellPass (d : Int) (arr : List T) : Outcome (List T) := stepLoop d (arr.length + 1) arr d

/-- `for (d = arr.size() / 2; d > 0; d /= 2)` -/
def gapLoop : Nat → List T → Int → Outcome (List T)
  | 0, _, _ => .error .fuel
  | fuel + 1, arr, d => if 0 < d then do gapLoop fuel (← shellPass d arr) (d.tdiv 2) else .ok arr

def shellSort (arr : List T) : Outcome (List T) := gapLoop (arr.length + 1) arr (toInt (arr.length / 2))

/-- The first `count` iterations of the loop over the gaps. -/
def shellPasses : Nat → List T → Int → Outcome (List T)
  | 0, arr, _ => .ok arr
  | count + 1, arr, d => do shellPasses count (← shellPass d arr) (d.tdiv 2)

/-- Every subsequence of elements at the distance `d` from each other is sorted. -/
def StrideSorted (d : Nat) (arr : List T) : Prop :=
  ∀ place count first second, arr[place]? = some first → arr[place + count * d]? = some second → first ≤ second

/-- What the vector holds at each place. -/
def cells (arr : List T) (place : Nat) : WithBot T :=
  match arr[place]? with
  | some value => value
  | none => ⊥

variable {arr : List T} {value other : T} {place d : Nat}

omit [LinearOrder T] in
theorem cells_some (here : arr[place]? = some value) : cells arr place = (value : WithBot T) := by
  rw [cells, here]

theorem strideSorted_of_order (ordered : StrideOrder d arr.length (cells arr)) : StrideSorted d arr := by
  intro place count first second readFirst readSecond
  obtain ⟨inside, _⟩ := List.getElem?_eq_some_iff.mp readSecond
  have fact := ordered.chain place count inside
  rwa [cells_some readFirst, cells_some readSecond, WithBot.coe_le_coe] at fact

theorem sorted_of_strideSorted (ordered : StrideSorted 1 arr) : Sorted arr := by
  rw [Sorted, List.pairwise_iff_getElem]
  intro first second _ _ before
  have later : first + (second - first) * 1 = second := by omega
  exact ordered first (second - first) _ _ (List.getElem?_eq_getElem _) (by rw [later]; exact List.getElem?_eq_getElem _)

/-- The exchange of two elements exchanges what the vector holds there. -/
theorem swapAt_cells {second : Nat} (here : arr[place]? = some value) (there : arr[second]? = some other) :
    ∃ next, swapAt arr place second = .ok next ∧ next.Perm arr ∧ cells next = exchanged (cells arr) place second := by
  obtain ⟨inside, valueEq⟩ := List.getElem?_eq_some_iff.mp here
  obtain ⟨insideToo, otherEq⟩ := List.getElem?_eq_some_iff.mp there
  have swapped := swapAt_inside [] here there
  rw [List.append_nil, List.append_nil] at swapped
  refine ⟨_, swapped, swapAt_perm swapped, ?_⟩
  funext index
  by_cases same : index = second
  · rw [same, exchanged_second, cells_some here]
    exact cells_some (List.getElem?_set_self (by rwa [List.length_set]))
  by_cases same' : index = place
  · rw [same', exchanged_first, cells_some there]
    apply cells_some
    rw [List.getElem?_set_ne (by omega), List.getElem?_set_self inside]
  · rw [exchanged_other same' same, cells, cells, List.getElem?_set_ne (Ne.symm same), List.getElem?_set_ne (Ne.symm same')]

/-- The loop inserts one element into the subsequence of those before it at multiples of the gap. It goes
on below the place of the element, where all pairs are in order. -/
theorem strideLoop_orders (arr : List T) {stop j fuel : Nat} (positive : 0 < d) (inside : j < stop)
    (within : stop ≤ arr.length) (gap : StrideGap d stop (cells arr) j) (enough : j < fuel) :
    ∃ next, strideLoop d fuel arr j = .ok next ∧ next.Perm arr ∧ StrideOrder d stop (cells next) := by
  induction fuel generalizing arr j with
  | zero => cases enough
  | succ fuel inductionHypothesis =>
      rw [strideLoop]
      by_cases reached : d ≤ j
      · obtain ⟨place, rfl⟩ := Nat.exists_eq_add_of_le' reached
        have here := List.getElem?_eq_getElem (by omega : place + d < arr.length)
        have there := List.getElem?_eq_getElem (by omega : place < arr.length)
        have before : ((place + d : Nat) : Int) - d = place := by omega
        have readHere : readAt arr (place + d : Nat) = _ := readAt_of_getElem?_nil here
        have readThere : readAt arr place = _ := readAt_of_getElem?_nil there
        rw [if_pos (by omega), before, readHere, Outcome.ok_bind, readThere, Outcome.ok_bind]
        by_cases less : arr[place + d] < arr[place]
        · obtain ⟨moved, swapped, perm, same⟩ := swapAt_cells here there
          have moves := gap.exchange positive inside (by rwa [cells_some here, cells_some there, WithBot.coe_lt_coe])
          rw [← same] at moves
          obtain ⟨next, run, nextPerm, ordered⟩ := inductionHypothesis moved (by omega : place < stop)
            (by rwa [perm.length_eq]) moves (by omega)
          exact ⟨next, by rw [if_pos less, swapped, Outcome.ok_bind, run], nextPerm.trans perm, ordered⟩
        · have keeps := gap.keep positive inside
            (by rw [cells_some here, cells_some there, WithBot.coe_le_coe]; exact not_lt.mp less)
          obtain ⟨next, run, perm, ordered⟩ := inductionHypothesis arr (by omega : place < stop) within keeps (by omega)
          exact ⟨next, by rw [if_neg less, run], perm, ordered⟩
      · exact ⟨arr, by rw [if_neg (by omega)], List.Perm.refl arr, gap.finish (by omega)⟩

theorem stepLoop_orders (arr : List T) {stop fuel : Nat} (positive : 0 < d) (within : stop ≤ arr.length)
    (short : arr.length < 1073741824) (ordered : StrideOrder d stop (cells arr)) (enough : arr.length - stop < fuel) :
    ∃ next, stepLoop d fuel arr stop = .ok next ∧ next.Perm arr ∧ StrideOrder d next.length (cells next) := by
  induction fuel generalizing arr stop with
  | zero => cases enough
  | succ fuel inductionHypothesis =>
      rw [stepLoop]
      by_cases more : stop < arr.length
      · obtain ⟨moved, run, perm, movedOrdered⟩ := strideLoop_orders arr positive (Nat.lt_succ_self stop) more
          (ordered.start positive) (by omega : stop < arr.length + 1)
        have step : checked ((stop : Int) + 1) = .ok ((stop + 1 : Nat) : Int) := checked_of_range (by omega) (by omega)
        obtain ⟨next, rest, nextPerm, nextOrdered⟩ := inductionHypothesis moved (by rwa [perm.length_eq])
          (by rwa [perm.length_eq]) movedOrdered (by rw [perm.length_eq]; omega)
        refine ⟨next, ?_, nextPerm.trans perm, nextOrdered⟩
        rw [if_pos (by omega), run, Outcome.ok_bind, step, Outcome.ok_bind, rest]
      · have whole : stop = arr.length := by omega
        subst whole
        exact ⟨arr, by rw [if_neg (by omega)], List.Perm.refl arr, ordered⟩

/-- A pass with the gap `d` sorts every subsequence of elements at that distance. -/
theorem shellPass_orders (arr : List T) (positive : 0 < d) (within : d ≤ arr.length) (short : arr.length < 1073741824) :
    ∃ next, shellPass d arr = .ok next ∧ next.Perm arr ∧ StrideSorted d next := by
  obtain ⟨next, run, perm, ordered⟩ := stepLoop_orders arr positive within short (StrideOrder.empty (le_refl d))
    (by omega : arr.length - d < arr.length + 1)
  exact ⟨next, run, perm, strideSorted_of_order ordered⟩

theorem gapLoop_sorts (arr : List T) {fuel : Nat} (positive : 0 < d) (within : d ≤ arr.length)
    (short : arr.length < 1073741824) (enough : d < fuel) :
    ∃ sorted, gapLoop fuel arr d = .ok sorted ∧ Sorted sorted ∧ sorted.Perm arr := by
  induction fuel generalizing arr d with
  | zero => cases enough
  | succ fuel inductionHypothesis =>
      obtain ⟨next, pass, perm, ordered⟩ := shellPass_orders arr positive within short
      rw [gapLoop, if_pos (by omega), pass, Outcome.ok_bind]
      have half : (d : Int).tdiv 2 = ((d / 2 : Nat) : Int) := rfl
      rw [half]
      by_cases last : d = 1
      · subst last
        obtain ⟨fuel, rfl⟩ := Nat.exists_eq_add_one_of_ne_zero (by omega : fuel ≠ 0)
        exact ⟨next, by rw [gapLoop, if_neg (by omega)], sorted_of_strideSorted ordered, perm⟩
      · obtain ⟨sorted, run, sortedSorted, sortedPerm⟩ := inductionHypothesis next (by omega : 0 < d / 2)
          (by rw [perm.length_eq]; omega) (by rwa [perm.length_eq]) (by omega)
        exact ⟨sorted, run, sortedSorted, sortedPerm.trans perm⟩

theorem shellPasses_orders (arr : List T) (count : Nat) (positive : 0 < d / 2 ^ count) (within : d ≤ arr.length)
    (short : arr.length < 1073741824) :
    ∃ next, shellPasses (count + 1) arr d = .ok next ∧ next.Perm arr ∧ StrideSorted (d / 2 ^ count) next := by
  induction count generalizing arr d with
  | zero =>
      rw [pow_zero, Nat.div_one] at positive ⊢
      obtain ⟨next, pass, perm, ordered⟩ := shellPass_orders arr positive within short
      exact ⟨next, by rw [shellPasses, pass, Outcome.ok_bind, shellPasses], perm, ordered⟩
  | succ count inductionHypothesis =>
      have halves : d / 2 ^ (count + 1) = d / 2 / 2 ^ count := by rw [pow_succ', Nat.div_div_eq_div_mul]
      rw [halves] at positive ⊢
      have nonzero : 0 < d / 2 := Nat.pos_of_ne_zero fun zero => by simp [zero] at positive
      obtain ⟨moved, pass, perm, _⟩ := shellPass_orders arr (by omega : 0 < d) within short
      obtain ⟨next, run, nextPerm, ordered⟩ := inductionHypothesis moved positive (by rw [perm.length_eq]; omega)
        (by rwa [perm.length_eq])
      have half : (d : Int).tdiv 2 = ((d / 2 : Nat) : Int) := rfl
      exact ⟨next, by rw [shellPasses, pass, Outcome.ok_bind, half, run], nextPerm.trans perm, ordered⟩

/-- The sort returns the sorted permutation, and each pass leaves the subsequences at its gap sorted. -/
theorem shellSort_sorts (arr : List T) (short : arr.length < 1073741824) :
    ∃ sorted, shellSort arr = .ok sorted ∧ Sorted sorted ∧ sorted.Perm arr ∧
      ∀ count, 0 < arr.length / 2 / 2 ^ count → ∃ next,
        shellPasses (count + 1) arr (toInt (arr.length / 2)) = .ok next ∧ next.Perm arr ∧
          StrideSorted (arr.length / 2 / 2 ^ count) next := by
  have gap : toInt ((arr.length : Int) / 2) = ((arr.length / 2 : Nat) : Int) := by
    rw [toInt_of_range (by omega) (by omega)]
    omega
  have passes : ∀ count, 0 < arr.length / 2 / 2 ^ count → ∃ next,
      shellPasses (count + 1) arr (toInt (arr.length / 2)) = .ok next ∧ next.Perm arr ∧
        StrideSorted (arr.length / 2 / 2 ^ count) next := by
    intro count positive
    rw [gap]
    exact shellPasses_orders arr count positive (by omega) short
  rw [shellSort, gap]
  by_cases long : 0 < arr.length / 2
  · obtain ⟨sorted, run, sortedSorted, perm⟩ := gapLoop_sorts arr long (by omega) short
      (by omega : arr.length / 2 < arr.length + 1)
    exact ⟨sorted, run, sortedSorted, perm, by rwa [gap] at passes⟩
  · have sortedShort : Sorted arr := by
      rw [Sorted, List.pairwise_iff_getElem]
      intro first second _ inside before
      omega
    exact ⟨arr, by rw [gapLoop, if_neg (by omega)], sortedShort, List.Perm.refl arr, by rwa [gap] at passes⟩

/-- Seven elements, which take passes with the gaps 3 and 1. -/
theorem shellSort_sorts_numbers : ([5, 2, 7, 1, 2, 6, 3] : List Nat).length < 1073741824 ∧
    ∃ sorted, shellSort [5, 2, 7, 1, 2, 6, 3] = .ok sorted ∧ Sorted sorted ∧ sorted.Perm [5, 2, 7, 1, 2, 6, 3] ∧
      ∀ count, 0 < 7 / 2 / 2 ^ count → ∃ next,
        shellPasses (count + 1) [5, 2, 7, 1, 2, 6, 3] (toInt (7 / 2)) = .ok next ∧
          next.Perm [5, 2, 7, 1, 2, 6, 3] ∧ StrideSorted (7 / 2 / 2 ^ count) next :=
  ⟨by decide, shellSort_sorts [5, 2, 7, 1, 2, 6, 3] (by decide)⟩

end Dsac.Sort

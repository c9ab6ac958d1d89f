import Dsac.Algorithm.QuickSort.Hoare
import Dsac.Algorithm.QuickSort.Lomuto

namespace Dsac.Sort

open Dsac.Library

/-! Both versions sort the vectors whose elements are values of `int`. -/

section

variable {T : Type} [LinearOrder T] {convert : T → T}

/-- What the first version does between the two recursive calls. -/
theorem V1.partition_append (front part back : List T) {low high : Int} (start : low = front.length)
    (last : high + 1 = low + part.length) (several : low < high) (short : front.length + part.length < 1073741824)
    (fixed : ∀ x ∈ part, convert x = x) {fuel : Nat} (enough : part.length + 1 < fuel) :
    ∃ pivot lower equal upper, V1.partition convert fuel (front ++ (part ++ back)) low high =
        .ok ⟨front ++ (lower ++ (equal ++ (upper ++ back))), front.length + lower.length + equal.length,
          front.length + lower.length - 1⟩ ∧
      V1.Halves pivot part lower equal upper := by
  have sum : checked (low + high) = .ok (low + high) := checked_of_range (by omega) (by omega)
  have middle : low ≤ (low + high).tdiv 2 ∧ (low + high).tdiv 2 ≤ high := by
    rw [Int.tdiv_eq_ediv_of_nonneg (by omega)]
    omega
  obtain ⟨skipped, place⟩ : ∃ skipped : Nat, (low + high).tdiv 2 = low + skipped :=
    ⟨((low + high).tdiv 2 - low).toNat, by omega⟩
  have inside : skipped < part.length := by omega
  have split : part = part.take skipped ++ part[skipped] :: part.drop (skipped + 1) := by
    rw [List.getElem_cons_drop, List.take_append_drop]
  have member : part[skipped] ∈ part := List.getElem_mem inside
  have read : readAt (front ++ (part ++ back)) ((low + high).tdiv 2) = .ok part[skipped] := by
    have here : (low + high).tdiv 2 = (front ++ part.take skipped).length := by
      rw [place, List.length_append, List.length_take_of_le inside.le, start, Nat.cast_add]
    have found : readAt (front ++ part.take skipped ++ part[skipped] :: (part.drop (skipped + 1) ++ back)) _ = .ok part[skipped] :=
      readAt_append here
    rwa [List.append_assoc, ← List.cons_append, ← List.append_assoc (part.take skipped), ← split] at found
  obtain ⟨lower, equal, upper, ran, halves⟩ := V1.partitionLoop_append front back [] part [] (by rw [start]; rfl) last
    (by omega : high < 2147483647) (by simp) (by simp) (Or.inr ⟨_, member, le_refl _⟩) (Or.inr ⟨_, member, le_refl _⟩) enough
  refine ⟨part[skipped], lower, equal, upper, ?_, ?_⟩
  · rw [V1.partition, sum, Outcome.ok_bind, read, Outcome.ok_bind, fixed _ member]
    exact ran
  · rwa [List.append_nil, List.nil_append] at halves

theorem V1.Halves.sorted {pivot : T} {part lower equal upper lower' upper' : List T}
    (halves : V1.Halves pivot part lower equal upper) (lowerPerm : lower'.Perm lower) (upperPerm : upper'.Perm upper)
    (lowerSorted : Sorted lower') (upperSorted : Sorted upper') : Sorted (lower' ++ (equal ++ upper')) := by
  have low : ∀ x ∈ lower', x ≤ pivot := fun x member => halves.below x (lowerPerm.mem_iff.mp member)
  have high : ∀ x ∈ upper', pivot ≤ x := fun x member => halves.above x (upperPerm.mem_iff.mp member)
  refine List.pairwise_append.mpr ⟨lowerSorted, List.pairwise_append.mpr ⟨?_, upperSorted, ?_⟩, ?_⟩
  · exact List.pairwise_iff_forall_sublist.mpr fun {x y} both =>
      (halves.same x (both.subset (by simp))).le.trans (halves.same y (both.subset (by simp))).ge
  · intro x member y later
    exact (halves.same x member).le.trans (high y later)
  · intro x member y later
    rcases List.mem_append.mp later with later | later
    · exact (low x member).trans (halves.same y later).ge
    · exact (low x member).trans (high y later)

/-- The first version sorts a part of the vector and leaves the rest of it alone. -/
theorem V1.quickSortImpl_append (front part back : List T) {low high : Int} (start : low = front.length)
    (last : high + 1 = low + part.length) (short : front.length + part.length < 1073741824)
    (fixed : ∀ x ∈ part, convert x = x) {fuel : Nat} (enough : part.length + 2 < fuel) :
    ∃ sorted, V1.quickSortImpl convert fuel (front ++ (part ++ back)) low high = .ok (front ++ (sorted ++ back)) ∧
      sorted.Perm part ∧ Sorted sorted := by
  induction fuel generalizing front part back low high with
  | zero => cases enough
  | succ fuel inductionHypothesis =>
      rw [V1.quickSortImpl]
      by_cases several : low < high
      · obtain ⟨pivot, lower, equal, upper, parted, halves⟩ :=
          V1.partition_append front part back start last several short fixed (by omega : part.length + 1 < fuel)
        have lengths := halves.permuted.length_eq
        rw [List.length_append, List.length_append] at lengths
        have smaller : lower.length < part.length ∧ upper.length < part.length := by
          rcases halves.proper with some | ⟨some, other⟩
          · have := List.length_pos_of_ne_nil some
            omega
          · have := List.length_pos_of_ne_nil some
            have := List.length_pos_of_ne_nil other
            omega
        have member : ∀ x, x ∈ lower ∨ x ∈ upper → x ∈ part := by
          intro x here
          refine halves.permuted.subset ?_
          rcases here with here | here
          · exact List.mem_append_left _ here
          · exact List.mem_append_right _ (List.mem_append_right _ here)
        obtain ⟨lower', sortedLow, lowPerm, lowSorted⟩ := inductionHypothesis front lower (equal ++ (upper ++ back)) start
          (by omega : (front.length + lower.length - 1 : Int) + 1 = low + lower.length) (by omega)
          (fun x here => fixed x (member x (Or.inl here))) (by omega)
        have length : (front ++ (lower' ++ equal)).length = front.length + lower.length + equal.length := by
          rw [List.length_append, List.length_append, lowPerm.length_eq, Nat.add_assoc]
        obtain ⟨upper', sortedHigh, highPerm, highSorted⟩ := inductionHypothesis (front ++ (lower' ++ equal)) upper back
          (by rw [length]; push_cast; rfl : (front.length + lower.length + equal.length : Int) = _)
          (by omega : high + 1 = (front.length + lower.length + equal.length : Int) + upper.length) (by rw [length]; omega)
          (fun x here => fixed x (member x (Or.inr here))) (by omega)
        refine ⟨lower' ++ (equal ++ upper'), ?_, ?_, halves.sorted lowPerm highPerm lowSorted highSorted⟩
        · simp only [List.append_assoc] at sortedHigh
          simp only [if_pos several, parted, Outcome.ok_bind, sortedLow, sortedHigh, List.append_assoc]
        · exact (lowPerm.append (highPerm.append_left equal)).trans halves.permuted
      · refine ⟨part, by rw [if_neg several], .refl part, ?_⟩
        rw [Sorted, List.pairwise_iff_getElem]
        intro first second _ inside before
        omega

end

/-- Whatever the conversion to the pivot makes of the elements, the second version ends with a permutation. It
is sorted exactly if the converted pivot of every call separates the elements as the pivot itself does. -/
theorem V2.quickSort_sorted_iff {T : Type} [LinearOrder T] (convert : T → T) (arr : List T)
    (short : arr.length < 1073741824) :
    ∃ result, (∀ fuel, arr.length < fuel → V2.quickSort convert fuel arr = .ok result) ∧ result.Perm arr ∧
      (Sorted result ↔ V2.AllSeparate convert arr 0 (arr.length - 1)) := by
  have last : checked (toInt arr.length - 1) = .ok ((arr.length : Int) - 1) := by
    rw [toInt_of_range (by omega) (by omega)]
    exact checked_of_range (by omega) (by omega)
  obtain ⟨result, ran, perm, sorted⟩ : ∃ result,
      V2.quickSortImpl convert (arr.length + 1) ([] ++ (arr ++ [])) 0 (arr.length - 1) = .ok ([] ++ (result ++ [])) ∧
        result.Perm arr ∧ (Sorted result ↔ V2.AllSeparate convert ([] ++ (arr ++ [])) 0 (arr.length - 1)) :=
    V2.quickSortImpl_append [] [] arr (by rfl) (by omega) (Nat.lt_succ_self arr.length)
  simp only [List.nil_append, List.append_nil] at ran sorted
  refine ⟨result, ?_, perm, sorted⟩
  intro fuel enough
  rw [V2.quickSort, last, Outcome.ok_bind]
  exact V2.quickSortImpl_more ran enough

/-- An `int` makes of a large 64-bit value another one, so that nothing is on its left. -/
theorem V2.quickSort_sorted_iff_large : [(1 : Int), 4294967296].length < 1073741824 ∧
    ∃ result, (∀ fuel, 2 < fuel → V2.quickSort Element.int64.convert fuel [1, 4294967296] = .ok result) ∧
      result.Perm [1, 4294967296] ∧
        (Sorted result ↔ V2.AllSeparate Element.int64.convert [1, 4294967296] 0 (2 - 1)) :=
  ⟨by decide, V2.quickSort_sorted_iff Element.int64.convert [1, 4294967296] (by decide)⟩

/-- The element kinds keep the values of `int`. -/
theorem Element.convert_of_range (kind : Element) {value : Int} (holds : kind.Holds value) (low : minInt ≤ value)
    (high : value ≤ maxInt) : kind.convert value = value := by
  rw [minInt] at low
  rw [maxInt] at high
  have same : toInt value = value := toInt_of_range low high
  cases kind with
  | int => exact same
  | int64 => exact same
  | uint64 =>
      rw [Element.convert, same]
      exact Int.emod_eq_of_lt holds.1 holds.2

theorem quickSort_sorts (kind : Element) (arr : List Int) (fixed : ∀ x ∈ arr, kind.convert x = x)
    (short : arr.length < 1073741824) {fuel : Nat} (enough : arr.length + 2 < fuel) :
    ∃ first second, V1.quickSort kind.convert fuel arr = .ok first ∧ V2.quickSort kind.convert fuel arr = .ok second ∧
      (first.Perm arr ∧ Sorted first) ∧ second.Perm arr ∧ Sorted second := by
  have last : checked (toInt arr.length - 1) = .ok ((arr.length : Int) - 1) := by
    rw [toInt_of_range (by omega) (by omega)]
    exact checked_of_range (by omega) (by omega)
  have whole : (arr.length : Int) - 1 + 1 = 0 + arr.length := by omega
  have start : (0 : Int) = ([] : List Int).length := rfl
  obtain ⟨first, ranFirst, firstPerm, firstSorted⟩ := V1.quickSortImpl_append [] arr [] start whole
    (by rwa [List.length_nil, Nat.zero_add]) fixed enough
  obtain ⟨second, ranSecond, secondPerm, secondSorted⟩ : ∃ result,
      V2.quickSortImpl kind.convert fuel ([] ++ (arr ++ [])) 0 (arr.length - 1) = .ok ([] ++ (result ++ [])) ∧
        result.Perm arr ∧ (Sorted result ↔ V2.AllSeparate kind.convert ([] ++ (arr ++ [])) 0 (arr.length - 1)) :=
    V2.quickSortImpl_append [] [] arr start whole (by omega)
  simp only [List.nil_append, List.append_nil] at ranFirst ranSecond secondSorted
  refine ⟨first, second, ?_, ?_, ⟨firstPerm, firstSorted⟩, secondPerm, ?_⟩
  · rw [V1.quickSort, last, Outcome.ok_bind, ranFirst]
  · rw [V2.quickSort, last, Outcome.ok_bind, ranSecond]
  · exact secondSorted.mpr (V2.allSeparate_of_fixed fixed 0 _)

/-- Both versions return the sorted permutation of a vector whose elements are values of `int`. -/
theorem quickSort_agree (kind : Element) (arr : List Int) (holds : ∀ x ∈ arr, kind.Holds x)
    (inRange : ∀ x ∈ arr, minInt ≤ x ∧ x ≤ maxInt) (short : arr.length < 1073741824) :
    ∃ sorted, Sorted sorted ∧ sorted.Perm arr ∧ ∀ fuel, arr.length + 2 < fuel →
      V1.quickSort kind.convert fuel arr = .ok sorted ∧ V2.quickSort kind.convert fuel arr = .ok sorted := by
  have fixed : ∀ x ∈ arr, kind.convert x = x := fun x member =>
    kind.convert_of_range (holds x member) (inRange x member).1 (inRange x member).2
  have unique : ∀ one two : List Int, one.Perm arr ∧ Sorted one → two.Perm arr → Sorted two → one = two :=
    fun one two both perm sorted => List.Perm.eq_of_pairwise' both.2 sorted (both.1.trans perm.symm)
  obtain ⟨sorted, _, _, _, isSorted, _⟩ := quickSort_sorts kind arr fixed short (Nat.lt_succ_self (arr.length + 2))
  refine ⟨sorted, isSorted.2, isSorted.1, ?_⟩
  intro fuel enough
  obtain ⟨first, second, ranFirst, ranSecond, firstSorted, secondPerm, secondSorted⟩ :=
    quickSort_sorts kind arr fixed short enough
  rw [unique sorted first isSorted firstSorted.1 firstSorted.2, ranFirst, ranSecond]
  exact ⟨rfl, by rw [unique first second firstSorted secondPerm secondSorted]⟩

/-- Equal elements and the ends of the range of `int`. -/
theorem quickSort_agree_numbers :
    (∀ x ∈ [3, -2147483648, 3, 2147483647, 1], Element.int64.Holds x) ∧
      (∀ x ∈ [3, -2147483648, 3, 2147483647, 1], minInt ≤ x ∧ x ≤ maxInt) ∧
      [3, -2147483648, 3, 2147483647, (1 : Int)].length < 1073741824 ∧
      ∃ sorted, Sorted sorted ∧ sorted.Perm [3, -2147483648, 3, 2147483647, 1] ∧ ∀ fuel, 5 + 2 < fuel →
        V1.quickSort Element.int64.convert fuel [3, -2147483648, 3, 2147483647, 1] = .ok sorted ∧
          V2.quickSort Element.int64.convert fuel [3, -2147483648, 3, 2147483647, 1] = .ok sorted :=
  ⟨by simp [Element.Holds], by simp [minInt, maxInt], by decide,
    quickSort_agree .int64 _ (by simp [Element.Holds]) (by simp [minInt, maxInt]) (by decide)⟩

end Dsac.Sort

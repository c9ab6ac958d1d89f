import Dsac.Library.StableOrder
import Dsac.Algorithm.MergeSort

namespace Dsac.Sort

open Dsac.Library

/-! Each call merges two neighbouring parts of the vector and leaves the rest of it alone. -/

variable {T : Type} (le : T → T → Bool) (front back : List T)

/-- The loop copies the rest of a part of the vector behind what it has copied. -/
theorem copyLoop_append (copied part target : List T) (same : target.length = part.length) {offset i : Int}
    (start : i = copied.length) (here : offset + i = front.length) :
    copyLoop (front ++ (part ++ back)) offset part.length i (copied ++ target) = .ok (copied ++ part) := by
  induction part generalizing copied target front i with
  | nil =>
      obtain rfl := List.eq_nil_of_length_eq_zero same
      rfl
  | cons value part inductionHypothesis =>
      obtain ⟨old, target, rfl⟩ := List.exists_cons_of_length_eq_add_one same
      have read : readAt (front ++ value :: (part ++ back)) (offset + i) = .ok value := readAt_append here
      have next := inductionHypothesis (front ++ [value]) (copied ++ [value]) target (Nat.succ.inj same)
        (by rw [length_snoc, start] : i + 1 = (copied ++ [value]).length) (by rw [length_snoc, ← here, add_assoc])
      simp only [List.append_assoc, List.cons_append, List.nil_append] at next
      simp only [List.length_cons, copyLoop, List.cons_append, read, Outcome.ok_bind, writeAt_append start, next]

/-- The loop writes the rest of a half over as many elements. -/
theorem drain_append (taken left old : List T) (same : old.length = left.length) {i k : Int}
    (start : i = taken.length) (here : k = front.length) {fuel : Nat} (enough : left.length < fuel) :
    drain (taken ++ left) fuel (front ++ (old ++ back)) i k =
      .ok (front ++ (left ++ back), (taken ++ left).length, k + left.length) := by
  induction left generalizing taken old front i k fuel with
  | nil =>
      obtain ⟨fuel, rfl⟩ := Nat.exists_eq_add_of_lt enough
      obtain rfl := List.eq_nil_of_length_eq_zero same
      simp [drain, start]
  | cons value left inductionHypothesis =>
      obtain ⟨first, old, rfl⟩ := List.exists_cons_of_length_eq_add_one same
      rw [List.length_cons] at enough
      obtain ⟨fuel, rfl⟩ : ∃ less, fuel = less + 1 := ⟨fuel - 1, by omega⟩
      have inside : i < (taken ++ value :: left).length := by
        rw [start, List.length_append, List.length_cons]
        omega
      have next := inductionHypothesis (front ++ [value]) (taken ++ [value]) old (Nat.succ.inj same)
        (by rw [length_snoc, start] : i + 1 = (taken ++ [value]).length)
        (by rw [length_snoc, here] : k + 1 = (front ++ [value]).length) (by omega : left.length < fuel)
      simp only [List.append_assoc, List.cons_append, List.nil_append] at next
      simp only [drain, inside, if_true, readAt_append start, Outcome.ok_bind, List.cons_append,
        writeAt_append here, next, List.length_cons]
      congr 3
      push_cast
      omega

/-- The main loop ends when one half is used up, with the merge up to there in front of the rest of
the other half. -/
theorem mergeLoop_append (leftTaken left rightTaken right rest : List T) (same : rest.length = left.length + right.length)
    {i j k high : Int} (leftStart : i = leftTaken.length) (rightStart : j = rightTaken.length)
    (here : k = front.length) (last : high + 1 = front.length + rest.length) {fuel : Nat}
    (enough : left.length + right.length < fuel) :
    ∃ merged leftMore leftRest rightMore rightRest old,
      mergeLoop le (leftTaken ++ left) (rightTaken ++ right) high fuel ⟨front ++ (rest ++ back), i, j, k⟩ =
        .ok ⟨front ++ merged ++ (old ++ back), (leftTaken ++ leftMore).length, (rightTaken ++ rightMore).length,
          (front ++ merged).length⟩ ∧
      left = leftMore ++ leftRest ∧ right = rightMore ++ rightRest ∧ (leftRest = [] ∨ rightRest = []) ∧
      old.length = leftRest.length + rightRest.length ∧ left.merge right le = merged ++ (leftRest ++ rightRest) := by
  induction fuel generalizing leftTaken left rightTaken right rest front i j k with
  | zero => omega
  | succ fuel inductionHypothesis =>
      by_cases ended : left = [] ∨ right = []
      · refine ⟨[], [], left, [], right, rest, ?_, rfl, rfl, ended, same, ?_⟩
        · have stops : i = (leftTaken ++ left).length ∨ j = (rightTaken ++ right).length := by
            rcases ended with rfl | rfl
            · exact Or.inl (by rw [List.append_nil, leftStart])
            · exact Or.inr (by rw [List.append_nil, rightStart])
          rw [mergeLoop, if_pos stops, ite_self, List.append_nil, List.append_nil, List.append_nil, leftStart,
            rightStart, here]
        · rcases ended with rfl | rfl <;> simp
      · rw [not_or] at ended
        obtain ⟨first, left, rfl⟩ := List.exists_cons_of_ne_nil ended.1
        obtain ⟨second, right, rfl⟩ := List.exists_cons_of_ne_nil ended.2
        simp only [List.length_cons] at same enough
        obtain ⟨old, rest, rfl⟩ := List.exists_cons_of_length_eq_add_one (same.trans (by omega :
          left.length + 1 + (right.length + 1) = left.length + 1 + right.length + 1))
        simp only [List.length_cons] at same last
        have more : k ≤ high := by omega
        have goes : ¬ (i = (leftTaken ++ first :: left).length ∨ j = (rightTaken ++ second :: right).length) := by
          simp only [List.length_append, List.length_cons]
          omega
        simp only [mergeLoop, if_pos more, if_neg goes, readAt_append leftStart, readAt_append rightStart,
          Outcome.ok_bind, List.cons_append, writeAt_append here, List.cons_merge_cons]
        cases below : le first second with
        | true =>
            obtain ⟨merged, leftMore, leftRest, rightMore, rightRest, left', ran, rfl, split, ended, length, merges⟩ :=
              inductionHypothesis (front ++ [first]) (leftTaken ++ [first]) left rightTaken (second :: right) rest
                (by rw [List.length_cons]; omega) (by rw [length_snoc, leftStart] : i + 1 = (leftTaken ++ [first]).length)
                rightStart (by rw [length_snoc, here] : k + 1 = (front ++ [first]).length)
                (by rw [length_snoc]; omega) (by rw [List.length_cons]; omega)
            simp only [List.append_assoc, List.cons_append, List.nil_append] at ran
            refine ⟨first :: merged, first :: leftMore, leftRest, rightMore, rightRest, left', ?_, rfl, split, ended,
              length, ?_⟩
            · simp only [if_true, List.append_assoc, List.cons_append]
              exact ran
            · rw [if_pos rfl, merges]
              rfl
        | false =>
            obtain ⟨merged, leftMore, leftRest, rightMore, rightRest, left', ran, split, rfl, ended, length, merges⟩ :=
              inductionHypothesis (front ++ [second]) leftTaken (first :: left) (rightTaken ++ [second]) right rest
                (by rw [List.length_cons]; omega) leftStart
                (by rw [length_snoc, rightStart] : j + 1 = (rightTaken ++ [second]).length)
                (by rw [length_snoc, here] : k + 1 = (front ++ [second]).length)
                (by rw [length_snoc]; omega) (by rw [List.length_cons]; omega)
            simp only [List.append_assoc, List.cons_append, List.nil_append] at ran
            refine ⟨second :: merged, leftMore, leftRest, second :: rightMore, rightRest, left', ?_, split, rfl, ended,
              length, ?_⟩
            · simp only [Bool.false_eq_true, if_false, List.append_assoc, List.cons_append]
              exact ran
            · rw [if_neg (by simp), merges]
              rfl

section

variable [Inhabited T]

/-- `Merge` merges two neighbouring parts. -/
theorem merge_append (left right : List T) {low mid high : Int} (start : low = front.length)
    (middle : mid + 1 = low + left.length) (last : high = mid + right.length) :
    merge le (front ++ (left ++ (right ++ back))) low mid high = .ok (front ++ (left.merge right le ++ back)) := by
  have leftCount : (mid - low + 1).toNat = left.length := by omega
  have rightCount : (high - mid).toNat = right.length := by omega
  have copiedLeft : copyLoop (front ++ (left ++ (right ++ back))) low left.length 0 (List.replicate left.length default) =
      .ok left :=
    copyLoop_append front _ [] left _ List.length_replicate rfl (by rw [start, add_zero])
  have copiedRight : copyLoop (front ++ (left ++ (right ++ back))) (mid + 1) right.length 0
      (List.replicate right.length default) = .ok right := by
    have here : mid + 1 + 0 = (front ++ left).length := by
      rw [List.length_append]
      push_cast
      omega
    have copied := copyLoop_append (front ++ left) back [] right _ (List.length_replicate (a := default))
      (rfl : (0 : Int) = ([] : List T).length) here
    simpa only [List.append_assoc, List.nil_append] using copied
  obtain ⟨merged, leftMore, leftRest, rightMore, rightRest, old, ran, rfl, rfl, ended, length, merges⟩ :=
    mergeLoop_append le front back [] left [] right (left ++ right) List.length_append
      (rfl : (0 : Int) = ([] : List T).length) (rfl : (0 : Int) = ([] : List T).length) start
      (by rw [List.length_append]; push_cast; omega : high + 1 = front.length + (left ++ right).length)
      (Nat.lt_succ_self (left.length + right.length))
  simp only [List.append_assoc, List.nil_append] at ran copiedLeft copiedRight
  simp only [merge, leftCount, rightCount, List.append_assoc, copiedLeft, copiedRight, Outcome.ok_bind, ran, merges]
  have here : ((front ++ merged).length : Int) = (front ++ merged).length := rfl
  by_cases used : leftRest = []
  · -- the rest of the right half is written, and nothing of the left one
    subst used
    simp only [List.append_nil, List.length_nil, Nat.zero_add] at length ⊢
    have second := drain_append (front ++ merged) back rightMore rightRest old length rfl here
      (by rw [List.length_append]; omega : rightRest.length < (rightMore ++ rightRest).length + 1)
    have there : ((front ++ merged).length : Int) + rightRest.length = (front ++ (merged ++ rightRest)).length := by
      simp only [List.length_append]
      push_cast
      omega
    have first := drain_append (front ++ (merged ++ rightRest)) back leftMore [] [] rfl rfl there
      (Nat.succ_pos leftMore.length)
    simp only [List.append_assoc, List.append_nil, List.nil_append] at first second
    simp only [if_true, second, Outcome.ok_bind, first]
    rfl
  · obtain rfl := ended.resolve_left used
    have left : ¬ ((leftMore.length : Int) = (leftMore ++ leftRest).length) := by
      have := List.length_pos_of_ne_nil used
      rw [List.length_append]
      omega
    simp only [List.append_nil, List.length_nil, Nat.add_zero] at length ⊢
    have first := drain_append (front ++ merged) back leftMore leftRest old length rfl here
      (by rw [List.length_append]; omega : leftRest.length < (leftMore ++ leftRest).length + 1)
    simp only [List.append_assoc] at first
    simp only [left, if_false, if_true, pure, Except.pure, Outcome.ok_bind, first, List.nil_append]

variable {le}

/-- The recursion sorts a part of the vector. -/
theorem mergeSortTopDownImpl_append (order : TotalPreorder le) (part : List T) {low high : Int} (start : low = front.length)
    (last : high + 1 = low + part.length) (small : low + part.length ≤ 2 ^ 30) {fuel : Nat} (enough : part.length < fuel) :
    ∃ sorted, mergeSortTopDownImpl le fuel (front ++ (part ++ back)) low high = .ok (front ++ (sorted ++ back)) ∧
      StablySorted (fun first second => !le second first) part sorted := by
  induction fuel generalizing front part back low high with
  | zero => omega
  | succ fuel inductionHypothesis =>
      rw [mergeSortTopDownImpl]
      by_cases several : low < high
      · have within : checked (low + high) = .ok (low + high) := checked_of_range (by omega) (by omega)
        have half : (low + high).tdiv 2 = (low + high) / 2 := Int.tdiv_eq_ediv_of_nonneg (by omega)
        simp only [if_pos several, within, Outcome.ok_bind, half]
        set middle := (low + high) / 2 with middleDef
        obtain ⟨left, right, rfl, leftLength⟩ : ∃ left right, part = left ++ right ∧ middle + 1 = low + left.length := by
          refine ⟨part.take (middle + 1 - low).toNat, part.drop (middle + 1 - low).toNat,
            (List.take_append_drop _ part).symm, ?_⟩
          rw [List.length_take]
          omega
        rw [List.length_append] at last small enough
        obtain ⟨leftSorted, leftRan, leftStable⟩ := inductionHypothesis front (right ++ back) left start leftLength
          (by push_cast at small; omega) (by push_cast at last; omega)
        have sameLength := leftStable.permuted.length_eq
        obtain ⟨rightSorted, rightRan, rightStable⟩ := inductionHypothesis (front ++ leftSorted) back right
          (by rw [List.length_append]; push_cast; omega : middle + 1 = (front ++ leftSorted).length)
          (by push_cast at last; omega : high + 1 = middle + 1 + right.length) (by push_cast at small; omega)
          (by push_cast at last; omega)
        have merged := merge_append le front back leftSorted rightSorted start
          (by omega : middle + 1 = low + leftSorted.length)
          (by rw [rightStable.permuted.length_eq]; push_cast at last; omega : high = middle + rightSorted.length)
        refine ⟨leftSorted.merge rightSorted le, ?_, ?_⟩
        · simp only [List.append_assoc] at leftRan rightRan ⊢
          simp only [leftRan, rightRan, merged, Outcome.ok_bind]
        · have stable := leftStable.merge order.strict rightStable
          simpa only [Bool.not_not] using stable
      · refine ⟨part, by rw [if_neg several], ?_, .refl part, fun _ => rfl⟩
        match part, last with
        | [], _ => exact .nil
        | [only], _ => exact List.pairwise_singleton ..
        | _ :: _ :: rest, last =>
            simp only [List.length_cons] at last
            push_cast at last
            omega

/-- **`MergeSort` sorts stably.** Every access of a vector of fewer than 2^30 elements is in bounds, and
the result is a sorted permutation in which equivalent elements keep their order. -/
theorem mergeSort_stablySorted (order : TotalPreorder le) (arr : List T) (small : arr.length < 2 ^ 30) :
    ∃ sorted, mergeSort le arr = .ok sorted ∧ StablySorted (fun first second => !le second first) arr sorted := by
  have last : checked (toInt arr.length - 1) = .ok (arr.length - 1) := by
    rw [toInt_of_range (by omega) (by omega)]
    exact checked_of_range (by omega) (by omega)
  obtain ⟨sorted, ran, stable⟩ := mergeSortTopDownImpl_append [] [] order arr
    (rfl : (0 : Int) = ([] : List T).length) (by omega : (arr.length : Int) - 1 + 1 = 0 + arr.length) (by omega)
    (Nat.lt_succ_self _)
  refine ⟨sorted, ?_, stable⟩
  simp only [List.nil_append, List.append_nil] at ran
  simp only [mergeSort, last, Outcome.ok_bind, ran]

end

/-- Pairs are compared by their first entries. -/
theorem mergeSort_stablySorted_pairs :
    ∃ sorted, mergeSort (fun first second : Nat × Nat => decide (first.1 ≤ second.1)) [(2, 0), (1, 1), (2, 2)] = .ok sorted ∧
      StablySorted (fun first second : Nat × Nat => !decide (second.1 ≤ first.1)) [(2, 0), (1, 1), (2, 2)] sorted :=
  mergeSort_stablySorted ⟨fun a b => by simpa using le_total a.1 b.1, fun a b c => by simpa using le_trans⟩ _ (by decide)

end Dsac.Sort

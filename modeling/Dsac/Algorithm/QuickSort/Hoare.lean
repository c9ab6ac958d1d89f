import Dsac.Library.SortedRange
import Dsac.Algorithm.QuickSort

namespace Dsac.Sort.V1

open Dsac.Library

/-! The partition by two indices around the middle element. It is right if an element on either side
of the converted pivot stops each of the indices. -/

variable {T : Type} [LinearOrder T] {convert : T → T} (front back : List T) {pivot : T}

omit [LinearOrder T] in
theorem split_first (accepts : T → Prop) [DecidablePred accepts] (list : List T) :
    (∀ x ∈ list, accepts x) ∨ ∃ before x after, list = before ++ x :: after ∧ (∀ y ∈ before, accepts y) ∧ ¬ accepts x := by
  induction list with
  | nil => exact Or.inl nofun
  | cons first list inductionHypothesis =>
      by_cases accepted : accepts first
      · rcases inductionHypothesis with all | ⟨before, x, after, rfl, each, rejected⟩
        · exact Or.inl (List.forall_mem_cons.mpr ⟨accepted, all⟩)
        · exact Or.inr ⟨first :: before, x, after, rfl, List.forall_mem_cons.mpr ⟨accepted, each⟩, rejected⟩
      · exact Or.inr ⟨[], first, list, rfl, nofun, accepted⟩

omit [LinearOrder T] in
theorem split_last (accepts : T → Prop) [DecidablePred accepts] (list : List T) :
    (∀ x ∈ list, accepts x) ∨ ∃ before x after, list = before ++ x :: after ∧ ¬ accepts x ∧ ∀ y ∈ after, accepts y := by
  rcases split_first accepts list.reverse with all | ⟨before, x, after, shape, each, rejected⟩
  · exact Or.inl fun x member => all x (List.mem_reverse.mpr member)
  · refine Or.inr ⟨after.reverse, x, before.reverse, ?_, rejected, fun y member => each y (List.mem_reverse.mp member)⟩
    rw [← List.reverse_reverse list, shape, List.reverse_append, List.reverse_cons, List.append_assoc]
    rfl

theorem scanLeft_append (skipped : List T) {value : T} {left : Int} (start : left = front.length)
    (small : ∀ x ∈ skipped, x < pivot) (stop : pivot ≤ value) (fits : left + skipped.length ≤ 2147483647) {fuel : Nat}
    (enough : skipped.length < fuel) :
    scanLeft (front ++ (skipped ++ value :: back)) pivot fuel left = .ok (left + skipped.length) := by
  induction skipped generalizing front left fuel with
  | nil =>
      obtain ⟨fuel, rfl⟩ := Nat.exists_eq_add_of_lt enough
      simp [scanLeft, readAt_append start, Outcome.ok_bind, not_lt.mpr stop]
      rfl
  | cons first skipped inductionHypothesis =>
      rw [List.length_cons] at enough fits
      push_cast at fits
      obtain ⟨fuel, rfl⟩ : ∃ less, fuel = less + 1 := ⟨fuel - 1, by omega⟩
      obtain ⟨isSmall, small⟩ := List.forall_mem_cons.mp small
      have stepped : checked (left + 1) = .ok (left + 1) := checked_of_range (by omega) (by omega)
      have startNext : left + 1 = (front ++ [first]).length := by rw [length_snoc, start]
      have next := inductionHypothesis (front ++ [first]) startNext small (by omega) (by omega : skipped.length < fuel)
      simp only [List.append_assoc, List.cons_append, List.nil_append] at next
      simp only [scanLeft, List.cons_append, readAt_append start, Outcome.ok_bind, isSmall, if_true, stepped, next,
        List.length_cons]
      congr 1
      push_cast
      omega

theorem scanRight_append (skipped : List T) {value : T} {right : Int} (start : right = front.length + skipped.length)
    (large : ∀ x ∈ skipped, pivot < x) (stop : value ≤ pivot) {fuel : Nat} (enough : skipped.length < fuel) :
    scanRight (front ++ value :: (skipped ++ back)) pivot fuel right = .ok front.length := by
  induction skipped using List.reverseRecOn generalizing back right fuel with
  | nil =>
      obtain ⟨fuel, rfl⟩ := Nat.exists_eq_add_of_lt enough
      obtain rfl : right = front.length := by
        rw [start]
        exact add_zero _
      simp [scanRight, readAt_append, Outcome.ok_bind, not_lt.mpr stop]
      rfl
  | append_singleton skipped last inductionHypothesis =>
      rw [length_snoc] at start
      rw [List.length_append, List.length_singleton] at enough
      obtain ⟨fuel, rfl⟩ : ∃ less, fuel = less + 1 := ⟨fuel - 1, by omega⟩
      have isLarge : last > pivot := large last (List.mem_concat_self ..)
      have here : right = (front ++ value :: skipped).length := by
        rw [List.length_append, List.length_cons]
        push_cast
        omega
      have read : readAt (front ++ value :: skipped ++ last :: back) right = .ok last := readAt_append here
      have startNext : right - 1 = front.length + skipped.length := by omega
      have next : scanRight (front ++ value :: (skipped ++ last :: back)) pivot fuel (right - 1) = .ok front.length :=
        inductionHypothesis (last :: back) startNext (fun x member => large x (List.mem_append_left _ member)) (by omega)
      simp only [List.append_assoc, List.cons_append] at read
      simp only [scanRight, List.append_assoc, List.cons_append, List.nil_append, read, Outcome.ok_bind, isLarge, if_true,
        next]

/-- What a part is divided into: neither half is the whole part. -/
structure Halves (pivot : T) (part lower equal upper : List T) : Prop where
  permuted : (lower ++ (equal ++ upper)).Perm part
  below : ∀ x ∈ lower, x ≤ pivot
  same : ∀ x ∈ equal, x = pivot
  above : ∀ x ∈ upper, pivot ≤ x
  proper : equal ≠ [] ∨ lower ≠ [] ∧ upper ≠ []

theorem Halves.of_perm {part part' lower equal upper : List T} (halves : Halves pivot part lower equal upper)
    (same : part.Perm part') : Halves pivot part' lower equal upper :=
  { halves with permuted := halves.permuted.trans same }

theorem partitionLoop_done {arr : List T} {left right : Int} {fuel : Nat} (enough : 0 < fuel) (passed : right < left) :
    partitionLoop pivot fuel ⟨arr, left, right⟩ = .ok ⟨arr, left, right⟩ := by
  obtain ⟨fuel, rfl⟩ := Nat.exists_eq_add_of_lt enough
  rw [partitionLoop, if_neg (not_le.mpr passed)]

theorem partitionLoop_passed {arr : List T} {left right left' right' : Int} {fuel : Nat} (enough : 0 < fuel)
    (goes : left ≤ right) (toLeft : scanLeft arr pivot fuel left = .ok left')
    (toRight : scanRight arr pivot fuel right = .ok right') (passed : right' < left') :
    partitionLoop pivot (fuel + 1) ⟨arr, left, right⟩ = .ok ⟨arr, left', right'⟩ := by
  simp only [partitionLoop, if_pos goes, toLeft, toRight, Outcome.ok_bind, if_neg (not_le.mpr passed),
    partitionLoop_done enough passed]

theorem partitionLoop_swapped {arr next : List T} {left right left' right' : Int} {fuel : Nat} (goes : left ≤ right)
    (toLeft : scanLeft arr pivot fuel left = .ok left') (toRight : scanRight arr pivot fuel right = .ok right')
    (meet : left' ≤ right') (swapped : swapAt arr left' right' = .ok next) :
    partitionLoop pivot (fuel + 1) ⟨arr, left, right⟩ = partitionLoop pivot fuel ⟨next, left' + 1, right' - 1⟩ := by
  simp only [partitionLoop, if_pos goes, toLeft, toRight, Outcome.ok_bind, if_pos meet, swapped]

/-- Only smaller elements are followed only by larger ones: the indices pass each other. -/
theorem partitionLoop_apart (lower small large upper : List T) {left right : Int}
    (start : left = front.length + lower.length) (last : right + 1 = left + (small ++ large).length)
    (goes : left ≤ right) (fits : right < 2147483647) (below : ∀ x ∈ lower ++ small, x ≤ pivot)
    (above : ∀ x ∈ large ++ upper, pivot ≤ x) (isSmall : ∀ x ∈ small, x < pivot) (isLarge : ∀ x ∈ large, pivot < x)
    (someLower : lower ++ small ≠ []) (someUpper : large ++ upper ≠ []) {fuel : Nat}
    (enough : (small ++ large).length + 1 < fuel + 1) :
    partitionLoop pivot (fuel + 1) ⟨front ++ (lower ++ (small ++ (large ++ (upper ++ back)))), left, right⟩ =
      .ok ⟨front ++ (lower ++ (small ++ (large ++ (upper ++ back)))), front.length + (lower ++ small).length,
        front.length + (lower ++ small).length - 1⟩ := by
  obtain ⟨value, after, upperShape⟩ := List.exists_cons_of_ne_nil someUpper
  obtain ⟨before, stop, lowerShape⟩ : ∃ before stop, lower ++ small = before ++ [stop] :=
    ⟨_, _, (List.dropLast_append_getLast someLower).symm⟩
  simp only [List.length_append, Nat.cast_add] at last enough ⊢
  have toLeft : scanLeft (front ++ lower ++ (small ++ value :: (after ++ back))) pivot fuel left =
      .ok (left + small.length) :=
    scanLeft_append _ _ small (by rw [List.length_append, start]; push_cast; rfl) isSmall
      (above value (upperShape ▸ List.mem_cons_self ..)) (by omega) (by omega)
  have length := congrArg List.length lowerShape
  simp only [List.length_append, List.length_singleton] at length
  have toRight : scanRight (front ++ before ++ stop :: (large ++ (upper ++ back))) pivot fuel right =
      .ok (front ++ before).length :=
    scanRight_append _ _ large (by rw [List.length_append]; push_cast; omega) isLarge
      (below stop (lowerShape ▸ List.mem_concat_self ..)) (by omega)
  have sameLeft : value :: (after ++ back) = large ++ (upper ++ back) := by
    rw [← List.append_assoc, upperShape, List.cons_append]
  have sameRight : front ++ before ++ stop :: (large ++ (upper ++ back)) =
      front ++ (lower ++ (small ++ (large ++ (upper ++ back)))) := by
    rw [← List.append_assoc lower, lowerShape, List.append_assoc, List.append_assoc]
    rfl
  rw [sameLeft, List.append_assoc] at toLeft
  rw [sameRight, List.length_append] at toRight
  rw [partitionLoop_passed (by omega) goes toLeft toRight (by push_cast; omega), start]
  congr 2
  · omega
  · push_cast
    omega

/-- The loop divides what is between its indices; `lower` and `upper` are done already. -/
theorem partitionLoop_append (lower rest upper : List T) {left right : Int} (start : left = front.length + lower.length)
    (last : right + 1 = left + rest.length) (fits : right < 2147483647) (below : ∀ x ∈ lower, x ≤ pivot)
    (above : ∀ x ∈ upper, pivot ≤ x) (stopsLeft : upper ≠ [] ∨ ∃ x ∈ rest, pivot ≤ x)
    (stopsRight : lower ≠ [] ∨ ∃ x ∈ rest, x ≤ pivot) {fuel : Nat} (enough : rest.length + 1 < fuel) :
    ∃ lower' equal upper', partitionLoop pivot fuel ⟨front ++ (lower ++ (rest ++ (upper ++ back))), left, right⟩ =
        .ok ⟨front ++ (lower' ++ (equal ++ (upper' ++ back))), front.length + lower'.length + equal.length,
          front.length + lower'.length - 1⟩ ∧
      Halves pivot (lower ++ (rest ++ upper)) lower' equal upper' := by
  induction fuel generalizing lower rest upper left right with
  | zero => omega
  | succ fuel inductionHypothesis =>
      by_cases empty : rest = []
      · subst empty
        have noMember : ∀ {accepts : T → Prop}, ¬ ∃ x ∈ ([] : List T), accepts x := by simp
        have passed : right < left := by
          rw [List.length_nil] at last
          omega
        refine ⟨lower, [], upper, ?_, .refl _, below, nofun, above,
          Or.inr ⟨stopsRight.resolve_right noMember, stopsLeft.resolve_right noMember⟩⟩
        rw [partitionLoop_done (by omega) passed, start]
        simp only [List.length_nil] at last ⊢
        congr 2
        omega
      · have goes : left ≤ right := by
          have := List.length_pos_of_ne_nil empty
          omega
        rcases split_first (· < pivot) rest with all | ⟨before, first, after, rfl, small, notSmall⟩
        · have someUpper := stopsLeft.resolve_right fun ⟨x, member, large⟩ => absurd (all x member) (not_lt.mpr large)
          have below' : ∀ x ∈ lower ++ rest, x ≤ pivot :=
            List.forall_mem_append.mpr ⟨below, fun x member => (all x member).le⟩
          have ran := partitionLoop_apart front back lower rest [] upper start
            (by rwa [List.append_nil]) goes fits below' above all nofun (by simp [empty]) someUpper
            (by rwa [List.append_nil])
          refine ⟨lower ++ rest, [], upper, ?_, ?_, below', nofun, above, Or.inr ⟨by simp [empty], someUpper⟩⟩
          · simpa using ran
          · simp
        · have reaches := not_lt.mp notSmall
          rcases split_last (pivot < ·) (first :: after) with all | ⟨middle, second, large, shape, notLarge, isLarge⟩
          · have someLower : lower ++ before ≠ [] := by
              rintro none
              obtain ⟨noLower, noBefore⟩ := List.append_eq_nil_iff.mp none
              obtain ⟨x, member, reached⟩ := stopsRight.resolve_left (absurd noLower)
              rw [noBefore] at member
              exact absurd (all x member) (not_lt.mpr reached)
            have below' : ∀ x ∈ lower ++ before, x ≤ pivot :=
              List.forall_mem_append.mpr ⟨below, fun x member => (small x member).le⟩
            have above' : ∀ x ∈ (first :: after) ++ upper, pivot ≤ x :=
              List.forall_mem_append.mpr ⟨fun x member => (all x member).le, above⟩
            have ran := partitionLoop_apart front back lower before (first :: after) upper start
              last goes fits below' above' small all someLower (by simp) enough
            refine ⟨lower ++ before, [], (first :: after) ++ upper, ?_, ?_, below', nofun, above',
              Or.inr ⟨someLower, by simp⟩⟩
            · simpa using ran
            · simp
          · have isSmall := not_lt.mp notLarge
            rw [shape] at last enough ⊢
            simp only [List.length_append, List.length_cons, Nat.cast_add, Nat.cast_one] at last enough
            have startMiddle : left = (front ++ lower).length := by rw [List.length_append, start, Nat.cast_add]
            have reachesAll : ∀ x ∈ large ++ upper, pivot ≤ x :=
              List.forall_mem_append.mpr ⟨fun x member => (isLarge x member).le, above⟩
            have smallAll : ∀ x ∈ lower ++ before, x ≤ pivot :=
              List.forall_mem_append.mpr ⟨below, fun x member => (small x member).le⟩
            cases middle with
            | nil =>
                obtain ⟨rfl, rfl⟩ := List.cons.inj shape
                rw [List.length_nil, Nat.cast_zero] at last
                have startSmall : left + before.length = (front ++ lower ++ before).length := by
                  rw [List.length_append, Nat.cast_add, startMiddle]
                have toLeft := scanLeft_append _ (after ++ (upper ++ back)) before startMiddle small reaches
                  (by omega) (by omega : before.length < fuel)
                have toRight := scanRight_append (front ++ lower ++ before) (upper ++ back) after
                  (by omega : right = (front ++ lower ++ before).length + after.length) isLarge isSmall
                  (by omega : after.length < fuel)
                have swapped : swapAt (front ++ lower ++ before ++ first :: (after ++ (upper ++ back))) (left + before.length)
                    (left + before.length) = .ok (front ++ lower ++ before ++ first :: (after ++ (upper ++ back))) :=
                  swapAt_self startSmall
                rw [← startSmall] at toRight
                simp only [List.append_assoc] at toLeft toRight swapped
                refine ⟨lower ++ before, [first], after ++ upper, ?_, ?_, smallAll, ?_, reachesAll, Or.inl (by simp)⟩
                · simp only [List.append_assoc, List.cons_append, List.nil_append]
                  rw [partitionLoop_swapped goes toLeft toRight le_rfl swapped, partitionLoop_done (by omega) (by omega)]
                  simp only [List.length_append, List.length_singleton, Nat.cast_add, Nat.cast_one]
                  congr 2 <;> omega
                · simp
                · intro x member
                  rw [List.mem_singleton.mp member]
                  exact le_antisymm isSmall reaches
            | cons _ middle =>
                obtain ⟨rfl, rfl⟩ := List.cons.inj shape
                rw [List.length_cons] at last enough
                rw [Nat.cast_add, Nat.cast_one] at last
                have startSmall : left + before.length = (front ++ lower ++ before).length := by
                  rw [List.length_append, Nat.cast_add, startMiddle]
                have toLeft := scanLeft_append _ (middle ++ (second :: (large ++ (upper ++ back)))) before startMiddle
                  small reaches (by omega) (by omega : before.length < fuel)
                have place : (front ++ lower ++ before ++ first :: middle).length =
                    left + before.length + 1 + middle.length := by
                  rw [List.length_append, List.length_cons, Nat.cast_add, ← startSmall, Nat.cast_add]
                  omega
                have toRight := scanRight_append (front ++ lower ++ before ++ first :: middle) (upper ++ back) large
                  (by omega : right = (front ++ lower ++ before ++ first :: middle).length + large.length) isLarge isSmall
                  (by omega : large.length < fuel)
                have swapped : swapAt (front ++ lower ++ before ++ first :: (middle ++ second :: (large ++ (upper ++ back))))
                    (left + before.length) (left + before.length + 1 + middle.length) =
                      .ok (front ++ lower ++ before ++ second :: (middle ++ first :: (large ++ (upper ++ back)))) :=
                  swapAt_append startSmall (by rw [← startSmall])
                rw [place] at toRight
                obtain ⟨lower', equal, upper', ran, halves⟩ := inductionHypothesis (lower ++ (before ++ [second])) middle
                  (first :: (large ++ upper))
                  (by simp only [List.length_append, List.length_singleton]; push_cast; omega :
                    left + before.length + 1 = front.length + (lower ++ (before ++ [second])).length)
                  (by omega : right - large.length - 1 + 1 = left + before.length + 1 + middle.length) (by omega)
                  (by
                    rw [← List.append_assoc]
                    exact List.forall_mem_append.mpr ⟨smallAll, List.forall_mem_singleton.mpr isSmall⟩)
                  (List.forall_mem_cons.mpr ⟨reaches, reachesAll⟩) (Or.inl (by simp)) (Or.inl (by simp)) (by omega)
                have rightNext : left + before.length + 1 + middle.length - 1 = right - large.length - 1 := by omega
                refine ⟨lower', equal, upper', ?_, halves.of_perm ?_⟩
                · simp only [List.append_assoc, List.cons_append, List.nil_append] at toLeft toRight swapped ran ⊢
                  rw [partitionLoop_swapped goes toLeft toRight (by omega) swapped, rightNext]
                  exact ran
                · refine List.perm_iff_count.mpr fun x => ?_
                  simp only [List.count_append, List.count_cons, List.count_nil]
                  omega

end Dsac.Sort.V1

import Dsac.Library.SortedRange
import Dsac.Algorithm.ShakerSort

namespace Dsac.Sort

open Dsac.Library

/-! Both versions shrink a middle part from both ends: what is outside of it is sorted and in its place. -/

variable {T : Type} [LinearOrder T] {low high rest : List T} {value : T} {i latestSwap : Int}

/-- What a pass upwards makes of the middle part: the last exchange was at the end of `low`, and what is
behind it is in its place. -/
structure Risen (front middle : List T) (latestSwap : Int) (low high : List T) (latestSwap' : Int) : Prop where
  perm : (low ++ high).Perm middle
  some : high ≠ []
  sorted : Sorted high
  across : ∀ x ∈ low, ∀ y ∈ high, x ≤ y
  swapped : low ≠ [] → latestSwap' + 1 = front.length + low.length
  kept : low = [] → latestSwap' = latestSwap

/-- What a pass downwards makes of it. -/
structure Sunk (front middle : List T) (latestSwap : Int) (low high : List T) (latestSwap' : Int) : Prop where
  perm : (low ++ high).Perm middle
  some : low ≠ []
  sorted : Sorted low
  across : ∀ x ∈ low, ∀ y ∈ high, x ≤ y
  swapped : high ≠ [] → latestSwap' = front.length + low.length
  kept : high = [] → latestSwap' = latestSwap

theorem V2.riseLoop_append (front low high rest back : List T) (value : T)
    (here : i = front.length + low.length + high.length) (sorted : Sorted (high ++ [value]))
    (across : ∀ x ∈ low, ∀ y ∈ high ++ [value], x ≤ y) (latest : low ≠ [] → latestSwap + 1 = front.length + low.length) :
    ∃ low' high' latestSwap', V2.riseLoop rest.length (front ++ (low ++ (high ++ value :: (rest ++ back)))) i latestSwap =
        .ok (front ++ (low' ++ (high' ++ back)), latestSwap') ∧
      Risen front (low ++ (high ++ value :: rest)) latestSwap low' high' latestSwap' ∧ low.length ≤ low'.length := by
  induction rest generalizing low high value i latestSwap with
  | nil =>
      refine ⟨low, high ++ [value], latestSwap, ?_, ⟨.refl _, by simp, sorted, across, latest, fun _ => rfl⟩, le_refl _⟩
      rw [List.append_assoc]
      rfl
  | cons next rest inductionHypothesis =>
      have place : i = (front ++ (low ++ high)).length := by
        rw [here, List.length_append, List.length_append]
        push_cast
        ring
      have second : i + 1 = (front ++ (low ++ high)).length + 1 + ([] : List T).length := by
        rw [place]
        exact (add_zero _).symm
      have read : readAt (front ++ (low ++ high) ++ value :: (next :: rest ++ back)) i = .ok value := readAt_append place
      have readNext : readAt (front ++ (low ++ high) ++ value :: ([] ++ next :: (rest ++ back))) (i + 1) = .ok next :=
        readAt_second second value next
      have swap : swapAt (front ++ (low ++ high) ++ value :: ([] ++ next :: (rest ++ back))) i (i + 1) =
          .ok (front ++ (low ++ high) ++ next :: ([] ++ value :: (rest ++ back))) := swapAt_append place second
      obtain ⟨_, _, highBelow⟩ := List.pairwise_append.mp sorted
      simp only [List.append_assoc, List.cons_append, List.nil_append] at read readNext swap ⊢
      rw [List.length_cons, V2.riseLoop, read, Outcome.ok_bind, readNext, Outcome.ok_bind]
      by_cases less : value > next
      · have below : ∀ x ∈ low ++ (high ++ [next]), ∀ y ∈ [] ++ [value], x ≤ y := by
          intro x member y same
          rw [List.mem_singleton.mp same]
          rcases List.mem_append.mp member with member | member
          · exact across x member value (List.mem_concat_self ..)
          · rcases List.mem_append.mp member with member | member
            · exact highBelow x member value (List.mem_singleton_self value)
            · rw [List.mem_singleton.mp member]
              exact less.le
        have nextPlace : i + 1 = front.length + (low ++ (high ++ [next])).length + ([] : List T).length := by
          rw [here, List.length_append, List.length_append, List.length_singleton, List.length_nil]
          push_cast
          ring
        have nextLatest : i + 1 = front.length + (low ++ (high ++ [next])).length := by
          rw [nextPlace]
          exact add_zero _
        obtain ⟨low', high', latestSwap', run, risen, longer⟩ := inductionHypothesis (low ++ (high ++ [next])) [] value
          nextPlace (List.pairwise_singleton ..) below fun _ => nextLatest
        simp only [List.append_assoc, List.cons_append, List.nil_append] at run
        simp only [List.length_append, List.length_singleton] at longer
        refine ⟨low', high', latestSwap', ?_, ⟨risen.perm.trans ?_, risen.some, risen.sorted, risen.across, risen.swapped, ?_⟩,
          by omega⟩
        · rw [if_pos less, swap, Outcome.ok_bind, run]
        · refine List.perm_iff_count.mpr fun x => ?_
          simp only [List.count_append, List.count_cons, List.count_nil]
          omega
        · intro empty
          rw [empty, List.length_nil] at longer
          omega
      · have above := not_lt.mp less
        have nextSorted : Sorted (high ++ [value] ++ [next]) := by
          refine List.pairwise_append.mpr ⟨sorted, List.pairwise_singleton .., ?_⟩
          intro x member y same
          rw [List.mem_singleton.mp same]
          rcases List.mem_append.mp member with member | member
          · exact (highBelow x member value (List.mem_singleton_self value)).trans above
          · rwa [List.mem_singleton.mp member]
        have nextAcross : ∀ x ∈ low, ∀ y ∈ high ++ [value] ++ [next], x ≤ y := by
          intro x member y later
          rcases List.mem_append.mp later with later | later
          · exact across x member y later
          · rw [List.mem_singleton.mp later]
            exact (across x member value (List.mem_concat_self ..)).trans above
        obtain ⟨low', high', latestSwap', run, risen, longer⟩ := inductionHypothesis low (high ++ [value]) next
          (by rw [here, length_snoc]; ring : i + 1 = front.length + low.length + (high ++ [value]).length)
          nextSorted nextAcross latest
        simp only [List.append_assoc, List.cons_append, List.nil_append] at run risen
        exact ⟨low', high', latestSwap', by rw [if_neg less, run], risen, longer⟩

theorem V2.sinkLoop_append (front rest low high back : List T) (value : T) (here : i = front.length + rest.length)
    (sorted : Sorted (value :: low)) (across : ∀ x ∈ value :: low, ∀ y ∈ high, x ≤ y)
    (latest : high ≠ [] → latestSwap = front.length + rest.length + (value :: low).length) :
    ∃ low' high' latestSwap', V2.sinkLoop rest.length (front ++ (rest ++ value :: (low ++ (high ++ back)))) i latestSwap =
        .ok (front ++ (low' ++ (high' ++ back)), latestSwap') ∧
      Sunk front (rest ++ value :: (low ++ high)) latestSwap low' high' latestSwap' ∧ high.length ≤ high'.length := by
  induction rest using List.reverseRecOn generalizing low high value i latestSwap with
  | nil =>
      refine ⟨value :: low, high, latestSwap, rfl, ⟨.refl _, by simp, sorted, across, ?_, fun _ => rfl⟩, le_refl _⟩
      intro some
      rw [latest some, List.length_nil, Nat.cast_zero, add_zero]
  | append_singleton rest previous inductionHypothesis =>
      rw [length_snoc] at here
      have place : i - 1 = (front ++ rest).length := by
        rw [here, List.length_append]
        push_cast
        ring
      have second : i = (front ++ rest).length + 1 + ([] : List T).length := by
        rw [← place, List.length_nil, Nat.cast_zero]
        ring
      have read : readAt (front ++ rest ++ previous :: (value :: (low ++ (high ++ back)))) (i - 1) = .ok previous :=
        readAt_append place
      have readNext : readAt (front ++ rest ++ previous :: ([] ++ value :: (low ++ (high ++ back)))) i = .ok value :=
        readAt_second second previous value
      have swap : swapAt (front ++ rest ++ previous :: ([] ++ value :: (low ++ (high ++ back)))) (i - 1) i =
          .ok (front ++ rest ++ value :: ([] ++ previous :: (low ++ (high ++ back)))) := swapAt_append place second
      obtain ⟨lowAbove, _⟩ := List.pairwise_cons.mp sorted
      simp only [List.append_assoc, List.cons_append, List.nil_append] at read readNext swap ⊢
      rw [List.length_append, List.length_singleton, V2.sinkLoop, read, Outcome.ok_bind, readNext, Outcome.ok_bind]
      have nextPlace : i - 1 = front.length + rest.length := by
        rw [here]
        ring
      by_cases less : previous > value
      · have above : ∀ x ∈ value :: [], ∀ y ∈ previous :: (low ++ high), x ≤ y := by
          intro x same y member
          rw [List.mem_singleton.mp same]
          rcases List.mem_cons.mp member with rfl | member
          · exact less.le
          · rcases List.mem_append.mp member with member | member
            · exact lowAbove y member
            · exact across value (List.mem_cons_self ..) y member
        have nextLatest : i = front.length + rest.length + (value :: ([] : List T)).length := by
          rw [here, List.length_singleton, Nat.cast_one]
          ring
        obtain ⟨low', high', latestSwap', run, sunk, longer⟩ := inductionHypothesis [] (previous :: (low ++ high)) value
          nextPlace (List.pairwise_singleton ..) above fun _ => nextLatest
        simp only [List.append_assoc, List.cons_append, List.nil_append] at run
        simp only [List.length_append, List.length_cons] at longer
        refine ⟨low', high', latestSwap', ?_, ⟨sunk.perm.trans ?_, sunk.some, sunk.sorted, sunk.across, sunk.swapped, ?_⟩,
          by omega⟩
        · rw [if_pos less, swap, Outcome.ok_bind, run]
        · refine List.perm_iff_count.mpr fun x => ?_
          simp only [List.count_append, List.count_cons, List.count_nil]
          omega
        · intro empty
          rw [empty, List.length_nil] at longer
          omega
      · have below := not_lt.mp less
        have nextSorted : Sorted (previous :: value :: low) := by
          refine List.pairwise_cons.mpr ⟨?_, sorted⟩
          intro x member
          rcases List.mem_cons.mp member with rfl | member
          · exact below
          · exact below.trans (lowAbove x member)
        have nextAcross : ∀ x ∈ previous :: value :: low, ∀ y ∈ high, x ≤ y := by
          intro x member y later
          rcases List.mem_cons.mp member with rfl | member
          · exact below.trans (across value (List.mem_cons_self ..) y later)
          · exact across x member y later
        have nextLatest : high ≠ [] → latestSwap = front.length + rest.length + (previous :: value :: low).length := by
          intro some
          rw [latest some, length_snoc]
          simp only [List.length_cons]
          push_cast
          ring
        obtain ⟨low', high', latestSwap', run, sunk, longer⟩ := inductionHypothesis (value :: low) high previous
          nextPlace nextSorted nextAcross nextLatest
        simp only [List.cons_append] at run sunk
        exact ⟨low', high', latestSwap', by rw [if_neg less, run], sunk, longer⟩

theorem V2.riseLoop_pass (front middle back : List T) (latestSwap : Int) (some : middle ≠ []) (here : i = front.length) :
    ∃ low high latestSwap', V2.riseLoop (middle.length - 1) (front ++ (middle ++ back)) i latestSwap =
        .ok (front ++ (low ++ (high ++ back)), latestSwap') ∧ Risen front middle latestSwap low high latestSwap' := by
  obtain ⟨value, rest, rfl⟩ := List.exists_cons_of_ne_nil some
  obtain ⟨low, high, latestSwap', run, risen, _⟩ := V2.riseLoop_append front [] [] rest back value
    (by rw [here]; simp : i = _) (List.pairwise_singleton ..) (by simp) (fun impossible => absurd rfl impossible)
  exact ⟨low, high, latestSwap', run, risen⟩

theorem V2.sinkLoop_pass (front middle back : List T) (latestSwap : Int) (some : middle ≠ []) (here : i + 1 = front.length + middle.length) :
    ∃ low high latestSwap', V2.sinkLoop (middle.length - 1) (front ++ (middle ++ back)) i latestSwap =
        .ok (front ++ (low ++ (high ++ back)), latestSwap') ∧ Sunk front middle latestSwap low high latestSwap' := by
  obtain ⟨rest, value, rfl⟩ : ∃ rest value, middle = rest ++ [value] :=
    ⟨_, _, (List.dropLast_append_getLast some).symm⟩
  rw [length_snoc] at here
  obtain ⟨low, high, latestSwap', run, sunk, _⟩ := V2.sinkLoop_append front rest [] [] back value
    (by omega : i = front.length + rest.length) (List.pairwise_singleton ..) (by simp)
    (fun impossible => absurd rfl impossible)
  refine ⟨low, high, latestSwap', ?_, sunk⟩
  rw [List.length_append, List.length_singleton, Nat.add_sub_cancel, List.append_assoc]
  exact run

/-- The loops of the first version make the same exchanges. -/
theorem V1.riseLoop_of_V2 {count : Nat} {arr next : List T} {latestSwap' : Int}
    (run : V2.riseLoop count arr i latestSwap = .ok (next, latestSwap')) : V1.riseLoop count arr i = .ok next := by
  induction count generalizing arr i latestSwap with
  | zero =>
      cases run
      rfl
  | succ count inductionHypothesis =>
      obtain ⟨one, readOne, rest⟩ := Outcome.of_bind run
      obtain ⟨two, readTwo, rest⟩ := Outcome.of_bind rest
      rw [V1.riseLoop, readOne, Outcome.ok_bind, readTwo, Outcome.ok_bind]
      split_ifs at rest ⊢
      · obtain ⟨moved, swapped, rest⟩ := Outcome.of_bind rest
        rw [swapped, Outcome.ok_bind]
        exact inductionHypothesis rest
      · exact inductionHypothesis rest

theorem V1.sinkLoop_of_V2 {count : Nat} {arr next : List T} {latestSwap' : Int}
    (run : V2.sinkLoop count arr i latestSwap = .ok (next, latestSwap')) : V1.sinkLoop count arr i = .ok next := by
  induction count generalizing arr i latestSwap with
  | zero =>
      cases run
      rfl
  | succ count inductionHypothesis =>
      obtain ⟨one, readOne, rest⟩ := Outcome.of_bind run
      obtain ⟨two, readTwo, rest⟩ := Outcome.of_bind rest
      rw [V1.sinkLoop, readOne, Outcome.ok_bind, readTwo, Outcome.ok_bind]
      split_ifs at rest ⊢
      · obtain ⟨moved, swapped, rest⟩ := Outcome.of_bind rest
        rw [swapped, Outcome.ok_bind]
        exact inductionHypothesis rest
      · exact inductionHypothesis rest

/-- What is outside of the middle part is sorted and in its place. -/
structure Framed (front middle back : List T) : Prop where
  frontSorted : Sorted front
  backSorted : Sorted back
  below : ∀ x ∈ front, ∀ y ∈ middle ++ back, x ≤ y
  above : ∀ x ∈ middle, ∀ y ∈ back, x ≤ y

variable {front middle back : List T}

theorem Framed.raise (framed : Framed front middle back) (perm : (low ++ high).Perm middle) (sorted : Sorted high)
    (across : ∀ x ∈ low, ∀ y ∈ high, x ≤ y) : Framed front low (high ++ back) := by
  refine ⟨framed.frontSorted, List.pairwise_append.mpr ⟨sorted, framed.backSorted, ?_⟩, ?_, ?_⟩
  · intro x member y later
    exact framed.above x (perm.subset (List.mem_append_right _ member)) y later
  · intro x member y later
    rw [← List.append_assoc] at later
    exact framed.below x member y ((perm.append_right back).subset later)
  · intro x member y later
    rcases List.mem_append.mp later with later | later
    · exact across x member y later
    · exact framed.above x (perm.subset (List.mem_append_left _ member)) y later

theorem Framed.lower (framed : Framed front middle back) (perm : (low ++ high).Perm middle) (sorted : Sorted low)
    (across : ∀ x ∈ low, ∀ y ∈ high, x ≤ y) : Framed (front ++ low) high back := by
  refine ⟨List.pairwise_append.mpr ⟨framed.frontSorted, sorted, ?_⟩, framed.backSorted, ?_, ?_⟩
  · intro x member y later
    exact framed.below x member y (List.mem_append_left _ (perm.subset (List.mem_append_left _ later)))
  · intro x member y later
    rcases List.mem_append.mp member with member | member
    · refine framed.below x member y ?_
      rcases List.mem_append.mp later with later | later
      · exact List.mem_append_left _ (perm.subset (List.mem_append_right _ later))
      · exact List.mem_append_right _ later
    · rcases List.mem_append.mp later with later | later
      · exact across x member y later
      · exact framed.above x (perm.subset (List.mem_append_left _ member)) y later
  · intro x member y later
    exact framed.above x (perm.subset (List.mem_append_right _ member)) y later

theorem Framed.sorted (framed : Framed front middle back) (sorted : Sorted middle) : Sorted (front ++ (middle ++ back)) :=
  List.pairwise_append.mpr ⟨framed.frontSorted, List.pairwise_append.mpr ⟨sorted, framed.backSorted, framed.above⟩, framed.below⟩

theorem sorted_short (short : middle.length ≤ 1) : Sorted middle := by
  rw [Sorted, List.pairwise_iff_getElem]
  intro first second _ inside before
  omega

theorem Framed.of_perm {other : List T} (framed : Framed front middle back) (perm : other.Perm middle) :
    Framed front other back :=
  { framed with
    below := fun x member y later => framed.below x member y ((perm.append_right back).subset later)
    above := fun x member => framed.above x (perm.subset member) }

theorem V2.shakerLoop_sorts (framed : Framed front middle back) (some : middle ≠ []) {left right : Int} {fuel : Nat}
    (start : left = front.length) (last : right + 1 = left + middle.length)
    (latest : latestSwap = left ∨ latestSwap = right) (enough : middle.length < fuel) :
    ∃ sorted, V2.shakerLoop fuel (front ++ (middle ++ back)) left right latestSwap = .ok sorted ∧ Sorted sorted ∧
      sorted.Perm (front ++ (middle ++ back)) := by
  induction fuel generalizing front middle back left right latestSwap with
  | zero => cases enough
  | succ fuel inductionHypothesis =>
      have positive := List.length_pos_of_ne_nil some
      have count : (right - left).toNat = middle.length - 1 := by omega
      obtain ⟨low, high, right', rose, risen⟩ := V2.riseLoop_pass front middle back latestSwap some start
      have step : ∀ arr left', V2.sinkLoop (right' - left).toNat (front ++ (low ++ (high ++ back))) right' right' =
          .ok (arr, left') → V2.shakerLoop (fuel + 1) (front ++ (middle ++ back)) left right latestSwap =
            if left' < right' then V2.shakerLoop fuel arr left' right' left' else .ok arr := by
        intro arr left' sank
        simp only [V2.shakerLoop, count, rose, Outcome.ok_bind, sank]
        rfl
      -- The pass downwards over what is left of the middle part.
      have descend : ∀ middle' back', Framed front middle' back' → middle' ≠ [] → right' + 1 = left + middle'.length →
          middle'.length ≤ middle.length → front ++ (low ++ (high ++ back)) = front ++ (middle' ++ back') →
          (front ++ (middle' ++ back')).Perm (front ++ (middle ++ back)) →
          ∃ sorted, V2.shakerLoop (fuel + 1) (front ++ (middle ++ back)) left right latestSwap = .ok sorted ∧
            Sorted sorted ∧ sorted.Perm (front ++ (middle ++ back)) := by
        intro middle' back' framed' some' last' shorter same perm
        have positive' := List.length_pos_of_ne_nil some'
        have count' : (right' - left).toNat = middle'.length - 1 := by omega
        obtain ⟨low', high', left', sank, sunk⟩ := V2.sinkLoop_pass front middle' back' right' some'
          (by omega : right' + 1 = front.length + middle'.length)
        have sunkFramed := framed'.lower sunk.perm sunk.sorted sunk.across
        have sunkPerm : (front ++ (low' ++ (high' ++ back'))).Perm (front ++ (middle' ++ back')) := by
          rw [← List.append_assoc low']
          exact (sunk.perm.append_right back').append_left front
        have lengths := sunk.perm.length_eq
        rw [List.length_append] at lengths
        have lowPositive := List.length_pos_of_ne_nil sunk.some
        rw [← same, ← count'] at sank
        rw [step _ _ sank]
        by_cases more : left' < right'
        · have unsettled : high' ≠ [] := by
            intro empty
            rw [sunk.kept empty] at more
            exact lt_irrefl _ more
          have place := sunk.swapped unsettled
          have placeNext : left' = (front ++ low').length := by
            rw [place, List.length_append, Nat.cast_add]
          obtain ⟨sorted, run, isSorted, sortedPerm⟩ := inductionHypothesis sunkFramed unsettled placeNext
            (by omega : right' + 1 = left' + high'.length) (Or.inl rfl) (by omega)
          rw [List.append_assoc] at run sortedPerm
          exact ⟨sorted, by rw [if_pos more, run], isSorted, (sortedPerm.trans sunkPerm).trans perm⟩
        · have short : high'.length ≤ 1 := by
            by_contra long
            have unsettled : high' ≠ [] := List.ne_nil_of_length_pos (by omega)
            have place := sunk.swapped unsettled
            omega
          have isSorted := sunkFramed.sorted (sorted_short short)
          rw [List.append_assoc] at isSorted
          exact ⟨_, by rw [if_neg more], isSorted, sunkPerm.trans perm⟩
      have risenPerm : (front ++ (low ++ (high ++ back))).Perm (front ++ (middle ++ back)) := by
        rw [← List.append_assoc low]
        exact (risen.perm.append_right back).append_left front
      have lengths := risen.perm.length_eq
      rw [List.length_append] at lengths
      by_cases settled : low = []
      · have right'_eq := risen.kept settled
        have sorted' := risen.sorted
        have perm := risen.perm
        subst settled
        rcases latest with atLeft | atRight
        · have done : right' - left = 0 := by omega
          have isSorted := (framed.of_perm (List.nil_append high ▸ perm)).sorted sorted'
          refine ⟨_, ?_, isSorted, risenPerm⟩
          have still : V2.sinkLoop (right' - left).toNat (front ++ ([] ++ (high ++ back))) right' right' =
              .ok (front ++ ([] ++ (high ++ back)), right') := by
            rw [done, Int.toNat_zero, V2.sinkLoop]
          rw [step _ _ still, if_neg (lt_irrefl _), List.nil_append]
        · refine descend high back (framed.of_perm (List.nil_append high ▸ perm)) risen.some ?_ ?_ rfl risenPerm
          · rw [right'_eq, atRight, last, ← lengths, List.length_nil, Nat.zero_add]
          · rw [← lengths]
            exact Nat.le_add_left _ _
      · have place := risen.swapped settled
        exact descend low (high ++ back) (framed.raise risen.perm risen.sorted risen.across) settled (by omega) (by omega) rfl
          risenPerm

theorem V1.shakerLoop_sorts (framed : Framed front middle back) (some : middle ≠ []) {left right : Int} {fuel : Nat}
    (start : left = front.length) (last : right + 1 = left + middle.length) (fits : right < 2147483647)
    (enough : middle.length < fuel) :
    ∃ sorted, V1.shakerLoop fuel (front ++ (middle ++ back)) left right = .ok sorted ∧ Sorted sorted ∧
      sorted.Perm (front ++ (middle ++ back)) := by
  induction fuel generalizing front middle back left right with
  | zero => cases enough
  | succ fuel inductionHypothesis =>
      have positive := List.length_pos_of_ne_nil some
      have count : (right - left).toNat = middle.length - 1 := by omega
      obtain ⟨low, high, _, rose, risen⟩ := V2.riseLoop_pass front middle back 0 some start
      -- Only the last element is taken from the middle part.
      obtain ⟨kept, greatest, rfl⟩ : ∃ kept greatest, high = kept ++ [greatest] :=
        ⟨_, _, (List.dropLast_append_getLast risen.some).symm⟩
      have rest : (low ++ kept ++ [greatest]).Perm middle := by
        rw [List.append_assoc]
        exact risen.perm
      obtain ⟨_, _, keptBelow⟩ := List.pairwise_append.mp risen.sorted
      have across : ∀ x ∈ low ++ kept, ∀ y ∈ [greatest], x ≤ y := by
        intro x member y same
        rcases List.mem_append.mp member with member | member
        · exact risen.across x member y (List.mem_append_right _ same)
        · exact keptBelow x member y same
      have raised := framed.raise rest (List.pairwise_singleton ..) across
      have risenPerm : (front ++ (low ++ kept ++ ([greatest] ++ back))).Perm (front ++ (middle ++ back)) := by
        rw [← List.append_assoc (low ++ kept)]
        exact (rest.append_right back).append_left front
      have same : front ++ (low ++ (kept ++ [greatest] ++ back)) = front ++ (low ++ kept ++ ([greatest] ++ back)) := by
        simp only [List.append_assoc]
      have lengths := rest.length_eq
      rw [List.length_append, List.length_singleton] at lengths
      have rightNext : checked (right - 1) = .ok (right - 1) := checked_of_range (by omega) (by omega)
      have leftNext : checked (left + 1) = .ok (left + 1) := checked_of_range (by omega) (by omega)
      have step : ∀ arr, V1.sinkLoop (right - 1 - left).toNat (front ++ (low ++ kept ++ ([greatest] ++ back))) (right - 1) =
          .ok arr → V1.shakerLoop (fuel + 1) (front ++ (middle ++ back)) left right =
            if left + 1 < right - 1 then V1.shakerLoop fuel arr (left + 1) (right - 1) else .ok arr := by
        intro arr sank
        rw [← same] at sank
        simp only [V1.shakerLoop, count, V1.riseLoop_of_V2 rose, Outcome.ok_bind, rightNext, leftNext, sank]
        rfl
      by_cases settled : low ++ kept = []
      · rw [settled, List.length_nil] at lengths
        rw [settled] at step raised risenPerm
        have none : (right - 1 - left).toNat = 0 := by omega
        refine ⟨_, ?_, raised.sorted List.Pairwise.nil, risenPerm⟩
        rw [step _ (by rw [none, V1.sinkLoop]), if_neg (by omega)]
      · have positive' := List.length_pos_of_ne_nil settled
        have count' : (right - 1 - left).toNat = (low ++ kept).length - 1 := by omega
        obtain ⟨low', high', _, sank, sunk⟩ := V2.sinkLoop_pass front (low ++ kept) ([greatest] ++ back) 0 settled
          (by omega : right - 1 + 1 = front.length + (low ++ kept).length)
        obtain ⟨least, others, rfl⟩ := List.exists_cons_of_ne_nil sunk.some
        obtain ⟨leastBelow, _⟩ := List.pairwise_cons.mp sunk.sorted
        have across' : ∀ x ∈ [least], ∀ y ∈ others ++ high', x ≤ y := by
          intro x member y later
          rw [List.mem_singleton.mp member]
          rcases List.mem_append.mp later with later | later
          · exact leastBelow y later
          · exact sunk.across least (List.mem_cons_self ..) y later
        have lowered : Framed (front ++ [least]) (others ++ high') ([greatest] ++ back) :=
          raised.lower sunk.perm (List.pairwise_singleton ..) across'
        have sunkPerm : (front ++ (least :: others ++ (high' ++ ([greatest] ++ back)))).Perm
            (front ++ (low ++ kept ++ ([greatest] ++ back))) := by
          rw [← List.append_assoc (least :: others)]
          exact (sunk.perm.append_right _).append_left front
        have shape : front ++ (least :: others ++ (high' ++ ([greatest] ++ back))) =
            front ++ [least] ++ (others ++ high' ++ ([greatest] ++ back)) := by
          simp only [List.append_assoc, List.cons_append, List.nil_append]
        have lengths' := sunk.perm.length_eq
        rw [List.length_append, List.length_cons] at lengths'
        have inner : (others ++ high').length + 1 = (low ++ kept).length := by
          rw [List.length_append]
          omega
        have sank' := V1.sinkLoop_of_V2 sank
        rw [shape, ← count'] at sank'
        rw [shape] at sunkPerm
        rw [step _ sank']
        by_cases more : left + 1 < right - 1
        · obtain ⟨sorted, run, isSorted, sortedPerm⟩ := inductionHypothesis lowered
            (List.ne_nil_of_length_pos (by omega)) (by rw [length_snoc, start] : left + 1 = (front ++ [least]).length)
            (by omega : right - 1 + 1 = left + 1 + (others ++ high').length) (by omega) (by omega)
          exact ⟨sorted, by rw [if_pos more, run], isSorted, (sortedPerm.trans sunkPerm).trans risenPerm⟩
        · exact ⟨_, by rw [if_neg more], lowered.sorted (sorted_short (by omega)), sunkPerm.trans risenPerm⟩

/-- Both versions return the sorted permutation. -/
theorem shakerSort_agree (arr : List T) (fits : arr.length ≤ 2147483647) :
    ∃ sorted, V1.shakerSort arr = .ok sorted ∧ V2.shakerSort arr = .ok sorted ∧ Sorted sorted ∧ sorted.Perm arr := by
  have last : checked (toInt arr.length - 1) = .ok ((arr.length : Int) - 1) := by
    rw [toInt_of_range (by omega) (by omega)]
    exact checked_of_range (by omega) (by omega)
  by_cases empty : arr = []
  · subst empty
    refine ⟨[], ?_, ?_, List.Pairwise.nil, .refl _⟩
    · rw [V1.shakerSort, last, Outcome.ok_bind]
      rfl
    · rw [V2.shakerSort, last, Outcome.ok_bind]
      rfl
  · have framed : Framed [] arr [] := by
      refine ⟨List.Pairwise.nil, List.Pairwise.nil, ?_, ?_⟩
      · intro x member
        cases member
      · intro x _ y member
        cases member
    have start : (0 : Int) = ([] : List T).length := rfl
    have whole : (arr.length : Int) - 1 + 1 = 0 + arr.length := by omega
    obtain ⟨first, ranFirst, firstSorted, firstPerm⟩ := V1.shakerLoop_sorts framed empty start whole (by omega)
      (Nat.lt_succ_self arr.length)
    obtain ⟨second, ranSecond, secondSorted, secondPerm⟩ := V2.shakerLoop_sorts framed empty start whole (Or.inr rfl)
      (Nat.lt_succ_self arr.length)
    rw [List.append_nil, List.nil_append] at ranFirst ranSecond firstPerm secondPerm
    have same : second = first := List.Perm.eq_of_pairwise' secondSorted firstSorted (secondPerm.trans firstPerm.symm)
    subst same
    refine ⟨second, ?_, ?_, firstSorted, firstPerm⟩
    · rw [V1.shakerSort, last, Outcome.ok_bind, ranFirst]
    · rw [V2.shakerSort, last, Outcome.ok_bind, ranSecond]

/-- A vector on which a pass has no exchange before the last one. -/
theorem shakerSort_agree_numbers : ([2, 1, 3, 5, 4, 4] : List Nat).length ≤ 2147483647 ∧
    ∃ sorted, V1.shakerSort [2, 1, 3, 5, 4, 4] = .ok sorted ∧ V2.shakerSort [2, 1, 3, 5, 4, 4] = .ok sorted ∧
      Sorted sorted ∧ sorted.Perm [2, 1, 3, 5, 4, 4] :=
  ⟨Nat.le_of_ble_eq_true rfl, shakerSort_agree [2, 1, 3, 5, 4, 4] (Nat.le_of_ble_eq_true rfl)⟩

end Dsac.Sort

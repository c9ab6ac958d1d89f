import Dsac.Library.SortedRange
import Dsac.Algorithm.QuickSort

namespace Dsac.Sort.V2

open Dsac.Library

/-! The partition around the last element. It is right if the converted pivot separates the elements
as the pivot itself does. -/

variable {T : Type} [LinearOrder T] (convert : T → T) (front back : List T)

omit [LinearOrder T] in
/-- The first element of a part changes places with the one behind the part. -/
theorem swapAt_rotate (larger : List T) (value : T) {left i : Int} (start : left = front.length)
    (end_ : i = front.length + larger.length) :
    ∃ rotated, swapAt (front ++ (larger ++ value :: back)) left i = .ok (front ++ value :: (rotated ++ back)) ∧
      rotated.Perm larger := by
  cases larger with
  | nil =>
      obtain rfl : i = left := by
        rw [start, end_]
        exact add_zero _
      exact ⟨[], swapAt_self start, .refl []⟩
  | cons first larger =>
      rw [List.length_cons] at end_
      refine ⟨larger ++ [first], ?_, List.perm_append_singleton first larger⟩
      rw [List.append_assoc]
      exact swapAt_append start (by push_cast at end_; omega)

theorem partitionLoop_append (pivot : T) (smaller larger rest : List T) {left i : Int}
    (start : left = front.length + smaller.length) (here : i = left + larger.length)
    (low : ∀ x ∈ smaller, x < pivot) (high : ∀ x ∈ larger, pivot ≤ x) :
    ∃ smaller' larger', partitionLoop pivot rest.length (front ++ (smaller ++ (larger ++ (rest ++ back)))) left i =
        .ok (front ++ (smaller' ++ (larger' ++ back)), front.length + smaller'.length) ∧
      (smaller' ++ larger').Perm (smaller ++ (larger ++ rest)) ∧ (∀ x ∈ smaller', x < pivot) ∧
      ∀ x ∈ larger', pivot ≤ x := by
  induction rest generalizing smaller larger left i with
  | nil => exact ⟨smaller, larger, by rw [start]; rfl, by rw [List.append_nil], low, high⟩
  | cons value rest inductionHypothesis =>
      have read : readAt (front ++ (smaller ++ (larger ++ value :: (rest ++ back)))) i = .ok value := by
        have read : readAt (front ++ (smaller ++ larger) ++ value :: (rest ++ back)) i = .ok value :=
          readAt_append (by simp only [List.length_append]; push_cast; omega)
        simpa only [List.append_assoc] using read
      simp only [List.cons_append, List.length_cons, partitionLoop, read, Outcome.ok_bind]
      by_cases below : value < pivot
      · obtain ⟨rotated, swapped, permuted⟩ := swapAt_rotate (front ++ smaller) (rest ++ back) larger value
          (by rw [List.length_append]; push_cast; omega : left = (front ++ smaller).length)
          (by rw [List.length_append]; push_cast; omega : i = (front ++ smaller).length + larger.length)
        obtain ⟨smaller', larger', ran, same, bounds⟩ := inductionHypothesis (smaller ++ [value]) rotated
          (by rw [length_snoc]; omega : left + 1 = front.length + (smaller ++ [value]).length)
          (by rw [permuted.length_eq]; omega : i + 1 = left + 1 + rotated.length)
          (fun x member => by
            rcases List.mem_append.mp member with old | new
            · exact low x old
            · rw [List.mem_singleton.mp new]
              exact below)
          fun x member => high x (permuted.mem_iff.mp member)
        refine ⟨smaller', larger', ?_, same.trans ?_, bounds⟩
        · simp only [List.append_assoc, List.cons_append, List.nil_append] at swapped ran
          simp only [below, if_true, swapped, Outcome.ok_bind, ran]
        · rw [List.append_assoc]
          refine List.Perm.append_left smaller ?_
          exact (permuted.append_right rest).cons value |>.trans List.perm_middle.symm
      · obtain ⟨smaller', larger', ran, same, bounds⟩ := inductionHypothesis smaller (larger ++ [value]) start
          (by rw [length_snoc]; omega : i + 1 = left + (larger ++ [value]).length) low fun x member => by
            rcases List.mem_append.mp member with old | new
            · exact high x old
            · rw [List.mem_singleton.mp new]
              exact not_lt.mp below
        simp only [List.append_assoc, List.cons_append, List.nil_append] at ran same
        exact ⟨smaller', larger', by rw [if_neg below, ran], same, bounds⟩

/-- The partition puts the pivot between the smaller elements and the others. -/
theorem partition_append (body : List T) (pivot : T) {low high : Int} (start : low = front.length)
    (last : high = low + body.length) :
    ∃ smaller larger, partition convert (front ++ (body ++ pivot :: back)) low high =
        .ok (front ++ (smaller ++ pivot :: (larger ++ back)), low + smaller.length) ∧
      (smaller ++ larger).Perm body ∧ (∀ x ∈ smaller, x < convert pivot) ∧ ∀ x ∈ larger, convert pivot ≤ x := by
  have read : readAt (front ++ (body ++ pivot :: back)) high = .ok pivot := by
    rw [← List.append_assoc]
    exact readAt_append (by rw [List.length_append]; push_cast; omega)
  have count : (high - low).toNat = body.length := by omega
  obtain ⟨smaller, larger, ran, same, below, above⟩ := partitionLoop_append front (pivot :: back) (convert pivot) [] []
    body (by rw [start]; rfl : low = front.length + ([] : List T).length)
    (by simp : low = low + ([] : List T).length) nofun nofun
  have sum := same.length_eq
  simp only [List.nil_append, List.length_append] at ran same sum
  obtain ⟨rotated, swapped, permuted⟩ := swapAt_rotate (front ++ smaller) back larger pivot
    (by rw [List.length_append]; push_cast; omega : low + smaller.length = (front ++ smaller).length)
    (by rw [List.length_append]; push_cast; omega : high = (front ++ smaller).length + larger.length)
  simp only [List.append_assoc] at swapped
  refine ⟨smaller, rotated, ?_, (permuted.append_left smaller).trans same, below,
    fun x member => above x (permuted.mem_iff.mp member)⟩
  rw [← start] at ran
  simp only [partition, read, Outcome.ok_bind, count, ran, swapped]
  rfl

variable {convert}

/-- The calls that a call makes, itself among them. -/
inductive Makes (convert : T → T) : List T → Int → Int → List T → Int → Int → Prop where
  | self (arr : List T) (low high : Int) : Makes convert arr low high arr low high
  | left {arr next arr' : List T} {low high place low' high' : Int} (several : low < high)
      (parted : partition convert arr low high = .ok (next, place))
      (later : Makes convert next low (place - 1) arr' low' high') : Makes convert arr low high arr' low' high'
  | right {arr next after arr' : List T} {low high place low' high' : Int} {fuel : Nat} (several : low < high)
      (parted : partition convert arr low high = .ok (next, place))
      (sorted : quickSortImpl convert fuel next low (place - 1) = .ok after)
      (later : Makes convert after (place + 1) high arr' low' high') : Makes convert arr low high arr' low' high'

/-- No element of the range lies between the pivot and what it is converted to, so that it is put on
the wrong side. -/
def Separates (convert : T → T) (arr : List T) (low high : Int) : Prop :=
  low < high → ∀ pivot, readAt arr high = .ok pivot →
    ∀ x ∈ range arr low high, (x < convert pivot → x ≤ pivot) ∧ (convert pivot ≤ x → pivot ≤ x)

/-- Every call that the call makes separates its range. -/
def AllSeparate (convert : T → T) (arr : List T) (low high : Int) : Prop :=
  ∀ arr' low' high', Makes convert arr low high arr' low' high' → Separates convert arr' low' high'

theorem quickSortImpl_more {fuel more : Nat} {arr sorted : List T} {low high : Int}
    (ran : quickSortImpl convert fuel arr low high = .ok sorted) (enough : fuel ≤ more) :
    quickSortImpl convert more arr low high = .ok sorted := by
  induction fuel generalizing arr sorted low high more with
  | zero => cases ran
  | succ fuel inductionHypothesis =>
      obtain ⟨more, rfl⟩ : ∃ less, more = less + 1 := ⟨more - 1, by omega⟩
      rw [quickSortImpl] at ran ⊢
      split_ifs at ran ⊢ with several
      · obtain ⟨⟨next, place⟩, parted, rest⟩ := Outcome.of_bind ran
        obtain ⟨after, first, second⟩ := Outcome.of_bind rest
        simp only [parted, Outcome.ok_bind, inductionHypothesis first (by omega : fuel ≤ more),
          inductionHypothesis second (by omega : fuel ≤ more)]
      · exact ran

/-- The calls of a call are those of its two halves and itself. -/
theorem allSeparate_iff {arr next after : List T} {low high place : Int} {fuel : Nat} (several : low < high)
    (parted : partition convert arr low high = .ok (next, place))
    (sorted : quickSortImpl convert fuel next low (place - 1) = .ok after) :
    AllSeparate convert arr low high ↔ Separates convert arr low high ∧
      AllSeparate convert next low (place - 1) ∧ AllSeparate convert after (place + 1) high := by
  constructor
  · intro all
    exact ⟨all _ _ _ (.self arr low high), fun _ _ _ later => all _ _ _ (.left several parted later),
      fun _ _ _ later => all _ _ _ (.right several parted sorted later)⟩
  · rintro ⟨here, left, right⟩ arr' low' high' makes
    cases makes with
    | self => exact here
    | left _ partedToo later =>
        cases parted.symm.trans partedToo
        exact left _ _ _ later
    | @right _ _ afterToo _ _ _ _ _ _ other _ partedToo sortedToo later =>
        cases parted.symm.trans partedToo
        have same := (quickSortImpl_more sorted (Nat.le_max_left fuel other)).symm.trans
          (quickSortImpl_more sortedToo (Nat.le_max_right fuel other))
        cases same
        exact right _ _ _ later

theorem sorted_around {smaller larger : List T} {pivot : T} :
    Sorted (smaller ++ pivot :: larger) ↔
      ((∀ x ∈ smaller, x ≤ pivot) ∧ ∀ x ∈ larger, pivot ≤ x) ∧ Sorted smaller ∧ Sorted larger := by
  rw [Sorted, List.pairwise_append, List.pairwise_cons]
  constructor
  · rintro ⟨left, ⟨above, right⟩, across⟩
    exact ⟨⟨fun x member => across x member pivot (List.mem_cons_self ..), above⟩, left, right⟩
  · rintro ⟨⟨below, above⟩, left, right⟩
    refine ⟨left, ⟨above, right⟩, fun x member y inside => ?_⟩
    rcases List.mem_cons.mp inside with rfl | later
    · exact below x member
    · exact (below x member).trans (above y later)

/-- The call ends with a permutation of its range, which is sorted exactly if all the calls that it
makes separate their ranges. -/
theorem quickSortImpl_append (part : List T) {low high : Int} (start : low = front.length)
    (last : high + 1 = low + part.length) {fuel : Nat} (enough : part.length < fuel) :
    ∃ result, quickSortImpl convert fuel (front ++ (part ++ back)) low high = .ok (front ++ (result ++ back)) ∧
      result.Perm part ∧ (Sorted result ↔ AllSeparate convert (front ++ (part ++ back)) low high) := by
  induction fuel generalizing front part back low high with
  | zero => omega
  | succ fuel inductionHypothesis =>
      rw [quickSortImpl]
      by_cases several : low < high
      · obtain ⟨body, pivot, rfl⟩ : ∃ body pivot, part = body ++ [pivot] :=
          ⟨part.dropLast, part.getLast (by rintro rfl; simp at last; omega), (List.dropLast_append_getLast _).symm⟩
        rw [length_snoc] at last
        rw [List.length_append, List.length_singleton] at enough
        have whole : range (front ++ (body ++ [pivot] ++ back)) low high = body ++ [pivot] :=
          range_append start (by rw [length_snoc, last])
        obtain ⟨smaller, larger, parted, same, below, above⟩ := partition_append convert front back body pivot start
          (by omega : high = low + body.length)
        have sum := same.length_eq
        rw [List.length_append] at sum
        obtain ⟨left, leftRan, leftPerm, leftSorted⟩ := inductionHypothesis front (pivot :: (larger ++ back)) smaller start
          (by omega : low + smaller.length - 1 + 1 = low + smaller.length) (by omega)
        obtain ⟨right, rightRan, rightPerm, rightSorted⟩ := inductionHypothesis (front ++ (left ++ [pivot])) back larger
          (by rw [List.length_append, Int.natCast_add, length_snoc, leftPerm.length_eq]; omega :
            low + smaller.length + 1 = (front ++ (left ++ [pivot])).length)
          (by omega : high + 1 = low + smaller.length + 1 + larger.length) (by omega)
        simp only [List.append_assoc, List.cons_append, List.nil_append] at leftRan rightRan rightSorted leftSorted whole ⊢
        refine ⟨left ++ pivot :: right, ?_, ?_, ?_⟩
        · simp only [if_pos several, parted, leftRan, rightRan, Outcome.ok_bind, List.append_assoc, List.cons_append]
        · exact ((leftPerm.append (rightPerm.cons pivot)).trans List.perm_middle).trans
            ((same.cons pivot).trans (List.perm_append_singleton pivot body).symm)
        · rw [allSeparate_iff several parted leftRan, ← leftSorted, ← rightSorted, sorted_around]
          refine and_congr_left fun _ => ?_
          rw [Separates, whole]
          have read : readAt (front ++ (body ++ pivot :: back)) high = .ok pivot := by
            rw [← List.append_assoc]
            exact readAt_append (by rw [List.length_append]; push_cast; omega)
          constructor
          · rintro ⟨low, high⟩ _ other readToo x member
            cases read.symm.trans readToo
            rcases List.mem_append.mp member with inBody | atEnd
            · rcases List.mem_append.mp (same.mem_iff.mpr inBody) with small | large
              · exact ⟨fun _ => low x (leftPerm.mem_iff.mpr small), fun notBelow => absurd (below x small) (not_lt.mpr notBelow)⟩
              · exact ⟨fun isBelow => absurd isBelow (not_lt.mpr (above x large)), fun _ => high x (rightPerm.mem_iff.mpr large)⟩
            · rw [List.mem_singleton.mp atEnd]
              exact ⟨fun _ => le_rfl, fun _ => le_rfl⟩
          · intro separates
            have each := separates several pivot read
            refine ⟨fun x member => ?_, fun x member => ?_⟩
            · have small := leftPerm.mem_iff.mp member
              exact (each x (List.mem_append_left _ (same.mem_iff.mp (List.mem_append_left _ small)))).1 (below x small)
            · have large := rightPerm.mem_iff.mp member
              exact (each x (List.mem_append_left _ (same.mem_iff.mp (List.mem_append_right _ large)))).2 (above x large)
      · have short : Sorted part := by
          match part, last with
          | [], _ => exact .nil
          | [only], _ => exact List.pairwise_singleton ..
          | _ :: _ :: rest, last =>
              simp only [List.length_cons] at last
              push_cast at last
              omega
        refine ⟨part, by rw [if_neg several], .refl part, ⟨fun _ arr' low' high' makes => ?_, fun _ => short⟩⟩
        cases makes with
        | self => exact fun wide => absurd wide several
        | left wide => exact absurd wide several
        | right wide => exact absurd wide several

theorem partitionLoop_perm {pivot : T} {count : Nat} {arr next : List T} {left i place : Int}
    (ran : partitionLoop pivot count arr left i = .ok (next, place)) : next.Perm arr := by
  induction count generalizing arr left i with
  | zero =>
      cases ran
      exact .refl _
  | succ count inductionHypothesis =>
      obtain ⟨value, _, rest⟩ := Outcome.of_bind ran
      split_ifs at rest with below
      · obtain ⟨swapped, swap, rest⟩ := Outcome.of_bind rest
        exact (inductionHypothesis rest).trans (swapAt_perm swap)
      · exact inductionHypothesis rest

theorem partition_perm {arr next : List T} {low high place : Int}
    (parted : partition convert arr low high = .ok (next, place)) : next.Perm arr := by
  obtain ⟨pivot, _, rest⟩ := Outcome.of_bind parted
  obtain ⟨⟨middle, left⟩, ran, rest⟩ := Outcome.of_bind rest
  obtain ⟨swapped, swap, rest⟩ := Outcome.of_bind rest
  cases rest
  exact (swapAt_perm swap).trans (partitionLoop_perm ran)

theorem quickSortImpl_perm {fuel : Nat} {arr sorted : List T} {low high : Int}
    (ran : quickSortImpl convert fuel arr low high = .ok sorted) : sorted.Perm arr := by
  induction fuel generalizing arr sorted low high with
  | zero => cases ran
  | succ fuel inductionHypothesis =>
      rw [quickSortImpl] at ran
      split_ifs at ran with several
      · obtain ⟨⟨next, place⟩, parted, rest⟩ := Outcome.of_bind ran
        obtain ⟨after, first, second⟩ := Outcome.of_bind rest
        exact (inductionHypothesis second).trans ((inductionHypothesis first).trans (partition_perm parted))
      · cases ran
        exact .refl _

theorem Makes.perm {arr arr' : List T} {low high low' high' : Int} (makes : Makes convert arr low high arr' low' high') :
    arr'.Perm arr := by
  induction makes with
  | self => exact .refl _
  | left _ parted _ inductionHypothesis => exact inductionHypothesis.trans (partition_perm parted)
  | right _ parted sorted _ inductionHypothesis =>
      exact inductionHypothesis.trans ((quickSortImpl_perm sorted).trans (partition_perm parted))

/-- A pivot that the conversion keeps separates every range. -/
theorem allSeparate_of_fixed {arr : List T} (fixed : ∀ x ∈ arr, convert x = x) (low high : Int) :
    AllSeparate convert arr low high := by
  intro arr' low' high' makes _ pivot read x _
  rw [fixed pivot (makes.perm.mem_iff.mp (mem_of_readAt read))]
  exact ⟨le_of_lt, id⟩

end Dsac.Sort.V2

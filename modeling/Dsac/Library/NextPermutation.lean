import Dsac.Library.SortedRange

namespace Dsac.Library

/-! The permutations of a list in lexicographic order. -/

variable {α : Type} [LinearOrder α]

/-- The next permutation, unless the list is the last one. The elements after the place that changes
are not increasing: the last of them that is greater takes that place, and the rest is reversed. -/
def nextPermutation : List α → Option (List α)
  | [] => none
  | first :: rest =>
      match nextPermutation rest with
      | some next => some (first :: next)
      | none =>
          match rest.reverse.dropWhile (· ≤ first) with
          | [] => none
          | greater :: others => some (greater :: (rest.reverse.takeWhile (· ≤ first) ++ first :: others))

/-- No element is greater than an earlier one. -/
abbrev Falling (list : List α) : Prop := list.Pairwise (· ≥ ·)

variable {first : α} {rest list next other : List α}

theorem cons_lt {second : α} : first :: rest < second :: other ↔ first < second ∨ first = second ∧ rest < other :=
  List.cons_lt_cons_iff

theorem falling_of_last (last : nextPermutation list = none) : Falling list := by
  induction list with
  | nil => exact List.Pairwise.nil
  | cons first rest inductionHypothesis =>
      rw [nextPermutation] at last
      cases inner : nextPermutation rest with
      | some next => simp only [inner, reduceCtorEq] at last
      | none =>
          cases dropped : rest.reverse.dropWhile (· ≤ first) with
          | cons greater others => simp only [inner, dropped, reduceCtorEq] at last
          | nil =>
              refine List.pairwise_cons.mpr ⟨?_, inductionHypothesis inner⟩
              intro value member
              have small := List.dropWhile_eq_nil_iff.mp dropped value (List.mem_reverse.mpr member)
              simpa using small

/-- A list that does not rise is the last of its permutations. -/
theorem Falling.greatest (falling : Falling list) (perm : other.Perm list) : other ≤ list := by
  induction list generalizing other with
  | nil => rw [List.perm_nil.mp perm]
  | cons first rest inductionHypothesis =>
      obtain ⟨above, restFalling⟩ := List.pairwise_cons.mp falling
      cases other with
      | nil => exact absurd perm.symm (List.not_perm_cons_nil)
      | cons second others =>
          apply not_lt.mp
          rw [cons_lt]
          rintro (less | ⟨rfl, less⟩)
          · rcases List.mem_cons.mp (perm.subset (List.mem_cons_self ..)) with rfl | later
            · exact lt_irrefl _ less
            · exact not_lt.mpr (above second later) less
          · exact not_lt.mpr (inductionHypothesis restFalling perm.cons_inv) less

/-- A list that does not fall is the first of its permutations. -/
theorem Sorted.least (sorted : Sorted list) (perm : other.Perm list) : list ≤ other := by
  induction list generalizing other with
  | nil => rw [List.perm_nil.mp perm]
  | cons first rest inductionHypothesis =>
      obtain ⟨above, restSorted⟩ := List.pairwise_cons.mp sorted
      cases other with
      | nil => exact absurd perm.symm (List.not_perm_cons_nil)
      | cons second others =>
          apply not_lt.mp
          rw [cons_lt]
          rintro (less | ⟨rfl, less⟩)
          · rcases List.mem_cons.mp (perm.subset (List.mem_cons_self ..)) with rfl | later
            · exact lt_irrefl _ less
            · exact not_lt.mpr (above second later) less
          · exact not_lt.mpr (inductionHypothesis restSorted perm.cons_inv) less

/-- The split of the elements after the place that changes: those that are not greater than the element
there, the one that takes its place, and the rest. -/
theorem falling_split {greater : α} {others : List α} (falling : Falling rest)
    (dropped : rest.reverse.dropWhile (· ≤ first) = greater :: others) :
    let low := rest.reverse.takeWhile (· ≤ first)
    rest.Perm (greater :: (low ++ others)) ∧ Sorted (low ++ first :: others) ∧ first < greater ∧
      ∀ value ∈ rest, first < value → greater ≤ value := by
  intro low
  have split : rest.reverse = low ++ greater :: others := by
    rw [← dropped]
    exact List.takeWhile_append_dropWhile.symm
  have sorted : Sorted (low ++ greater :: others) := by
    rw [← split]
    exact List.pairwise_reverse.mpr falling
  have small : ∀ value ∈ low, value ≤ first := by
    intro value member
    simpa using List.mem_takeWhile_imp member
  have large : first < greater := by
    have head := List.head?_dropWhile_not (fun value => decide (value ≤ first)) rest.reverse
    rw [dropped] at head
    simpa using head
  obtain ⟨lowSorted, highSorted, _⟩ := List.pairwise_append.mp sorted
  obtain ⟨above, othersSorted⟩ := List.pairwise_cons.mp highSorted
  have perm : rest.Perm (low ++ greater :: others) := by
    rw [← split]
    exact (List.reverse_perm rest).symm
  refine ⟨perm.trans List.perm_middle, ?_, large, ?_⟩
  · refine Sorted.insert (List.pairwise_append.mpr ⟨lowSorted, othersSorted, ?_⟩) small ?_
    · intro value member other later
      exact (small value member).trans (large.le.trans (above other later))
    · intro other later
      exact large.le.trans (above other later)
  · intro value member less
    rcases List.mem_append.mp (perm.subset member) with member | member
    · exact absurd less (not_lt.mpr (small value member))
    · rcases List.mem_cons.mp member with rfl | later
      · exact le_refl _
      · exact above value later

/-- The next permutation is the least one that is greater. -/
theorem nextPermutation_least (found : nextPermutation list = some next) :
    next.Perm list ∧ list < next ∧ ∀ other, other.Perm list → list < other → next ≤ other := by
  induction list generalizing next with
  | nil => cases found
  | cons first rest inductionHypothesis =>
      rw [nextPermutation] at found
      cases inner : nextPermutation rest with
      | some restNext =>
          simp only [inner, Option.some.injEq] at found
          subst found
          obtain ⟨perm, less, least⟩ := inductionHypothesis inner
          refine ⟨perm.cons first, cons_lt.mpr (Or.inr ⟨rfl, less⟩), ?_⟩
          intro other otherPerm greater
          cases other with
          | nil => exact absurd otherPerm.symm (List.not_perm_cons_nil)
          | cons second others =>
              rcases cons_lt.mp greater with further | ⟨rfl, further⟩
              · exact (cons_lt.mpr (Or.inl further)).le
              · apply not_lt.mp
                rw [cons_lt]
                rintro (less | ⟨_, less⟩)
                · exact lt_irrefl _ less
                · exact not_lt.mpr (least others otherPerm.cons_inv further) less
      | none =>
          have falling := falling_of_last inner
          cases dropped : rest.reverse.dropWhile (· ≤ first) with
          | nil => simp only [inner, dropped, reduceCtorEq] at found
          | cons greater others =>
              simp only [inner, dropped, Option.some.injEq] at found
              subst found
              obtain ⟨perm, sorted, large, smallest⟩ := falling_split falling dropped
              have whole : (greater :: (rest.reverse.takeWhile (· ≤ first) ++ first :: others)).Perm (first :: rest) := by
                refine (List.perm_middle.cons greater).trans ((List.Perm.swap first greater _).trans ?_)
                exact perm.symm.cons first
              refine ⟨whole, cons_lt.mpr (Or.inl large), ?_⟩
              intro other otherPerm later
              cases other with
              | nil => exact absurd otherPerm.symm (List.not_perm_cons_nil)
              | cons second tail =>
                  apply not_lt.mp
                  rw [cons_lt]
                  rcases cons_lt.mp later with less | ⟨rfl, less⟩
                  · have inRest : second ∈ rest := by
                      rcases List.mem_cons.mp (otherPerm.subset (List.mem_cons_self ..)) with rfl | member
                      · exact absurd less (lt_irrefl _)
                      · exact member
                    rintro (before | ⟨rfl, before⟩)
                    · exact not_lt.mpr (smallest second inRest less) before
                    · exact not_lt.mpr (sorted.least (otherPerm.trans whole.symm).cons_inv) before
                  · exact absurd less (not_lt.mpr (falling.greatest otherPerm.cons_inv))

/-- The number of permutations that come later. -/
def later (list : List α) : Nat := (list.permutations.toFinset.filter (list < ·)).card

theorem later_le (list : List α) : later list ≤ list.length.factorial := by
  refine (Finset.card_filter_le _ _).trans ((List.toFinset_card_le _).trans ?_)
  rw [List.length_permutations]

theorem later_next (found : nextPermutation list = some next) : later next < later list := by
  obtain ⟨perm, less, _⟩ := nextPermutation_least found
  apply Finset.card_lt_card
  rw [Finset.ssubset_iff_of_subset]
  · refine ⟨next, ?_, ?_⟩
    · rw [Finset.mem_filter, List.mem_toFinset, List.mem_permutations]
      exact ⟨perm, less⟩
    · rw [Finset.mem_filter]
      exact fun both => lt_irrefl _ both.2
  · intro other member
    rw [Finset.mem_filter, List.mem_toFinset, List.mem_permutations] at member ⊢
    exact ⟨member.1.trans perm, less.trans member.2⟩

end Dsac.Library

import Mathlib

namespace Dsac.Library

/-! Binary search in a sorted range and what may be inserted or erased there. A
search is stated by its result: the index of the first element that is not less
than, or that is greater than, the given one. -/

variable {α : Type u} [LinearOrder α]

/-- The elements are in non-decreasing order. -/
abbrev Sorted (range : List α) : Prop := range.Pairwise (· ≤ ·)

def lowerBound (range : List α) (value : α) : Nat := (range.takeWhile (· < value)).length

def upperBound (range : List α) (value : α) : Nat := (range.takeWhile (· ≤ value)).length

/-- A sorted range is partitioned by any predicate that is closed downwards. -/
theorem sorted_dropWhile {range : List α} {p : α → Bool} (sorted : Sorted range)
    (down : ∀ a b, a ≤ b → p b = true → p a = true) :
    ∀ value ∈ range.dropWhile p, p value = false := by
  induction range with
  | nil => simp
  | cons first rest ih =>
      obtain ⟨smallest, restSorted⟩ := List.pairwise_cons.mp sorted
      rw [List.dropWhile_cons]
      split
      · exact ih restSorted
      · rename_i rejected
        intro value member
        rcases List.mem_cons.mp member with rfl | later
        · simpa using rejected
        · by_contra accepted
          exact rejected (down first value (smallest value later) (by simpa using accepted))

theorem upperBound_splits {range : List α} (sorted : Sorted range) (value : α) :
    ∃ below above, range = below ++ above ∧ upperBound range value = below.length ∧
      (∀ b ∈ below, b ≤ value) ∧ ∀ a ∈ above, value < a := by
  refine ⟨range.takeWhile (· ≤ value), range.dropWhile (· ≤ value),
    List.takeWhile_append_dropWhile.symm, rfl, ?_, ?_⟩
  · intro b member
    simpa using List.mem_takeWhile_imp member
  · intro a member
    have rejected := sorted_dropWhile sorted (p := (decide <| · ≤ value))
      (fun a b order accepted => by simpa using order.trans (by simpa using accepted)) a member
    simpa using rejected

theorem lowerBound_splits {range : List α} (sorted : Sorted range) (value : α) :
    ∃ below above, range = below ++ above ∧ lowerBound range value = below.length ∧
      (∀ b ∈ below, b < value) ∧ ∀ a ∈ above, value ≤ a := by
  refine ⟨range.takeWhile (· < value), range.dropWhile (· < value),
    List.takeWhile_append_dropWhile.symm, rfl, ?_, ?_⟩
  · intro b member
    simpa using List.mem_takeWhile_imp member
  · intro a member
    have rejected := sorted_dropWhile sorted (p := (decide <| · < value))
      (fun a b order accepted => by simpa using lt_of_le_of_lt order (by simpa using accepted)) a member
    simpa using rejected

theorem upperBound_eq_length {range : List α} {value : α} (all : ∀ b ∈ range, b ≤ value) :
    upperBound range value = range.length := by
  rw [upperBound, List.takeWhile_eq_self_iff.mpr (fun b member => by simpa using all b member)]

theorem insertIdx_length_append {β : Type v} (below above : List β) (value : β) :
    (below ++ above).insertIdx below.length value = below ++ value :: above := by
  induction below with
  | nil => rfl
  | cons first rest ih => simp [ih]

theorem Sorted.insert {below above : List α} {value : α} (sorted : Sorted (below ++ above))
    (low : ∀ b ∈ below, b ≤ value) (high : ∀ a ∈ above, value ≤ a) :
    Sorted (below ++ value :: above) := by
  obtain ⟨belowSorted, aboveSorted, across⟩ := List.pairwise_append.mp sorted
  refine List.pairwise_append.mpr ⟨belowSorted, List.pairwise_cons.mpr ⟨high, aboveSorted⟩, ?_⟩
  intro b member a otherMember
  rcases List.mem_cons.mp otherMember with rfl | otherMember
  · exact low b member
  · exact across b member a otherMember

/-- Erasing the first copy of the last element of a sorted range leaves the range
without its last element: the copies stand together. -/
theorem Sorted.erase_last {range : List α} {last : α} (sorted : Sorted (range ++ [last])) :
    (range ++ [last]).erase last = range := by
  induction range with
  | nil => simp
  | cons first rest ih =>
      obtain ⟨smallest, restSorted⟩ := List.pairwise_cons.mp sorted
      rcases eq_or_ne first last with rfl | different
      · rw [List.cons_append, List.erase_cons_head]
        -- Everything between two copies of the element is a copy of it.
        have copies : ∀ value ∈ rest, value = first := fun value member =>
          le_antisymm ((List.pairwise_append.mp restSorted).2.2 value member first (by simp))
            (smallest value (by simp [member]))
        rw [List.eq_replicate_of_mem copies, ← List.replicate_succ', List.replicate_succ]
      · rw [List.cons_append, List.erase_cons_tail (by simpa using different), ih restSorted]

end Dsac.Library

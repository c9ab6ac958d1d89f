import Mathlib

namespace Dsac.Library

/-! Finite maps as association lists in the order of their keys. -/

structure OrderedMap (κ : Type u) (ν : Type v) [LinearOrder κ] where
  entries : List (κ × ν) := []
  sorted : (entries.map Prod.fst).Pairwise (· < ·) := by exact .nil
deriving DecidableEq

namespace OrderedMap

variable {κ : Type u} {ν : Type v} [LinearOrder κ]

def assign (key : κ) (value : ν) : List (κ × ν) → List (κ × ν)
  | [] => [(key, value)]
  | (first, old) :: rest =>
      if key < first then (key, value) :: (first, old) :: rest
      else if key = first then (key, value) :: rest
      else (first, old) :: assign key value rest

theorem mem_assign {key other : κ} {value : ν} {entries : List (κ × ν)} :
    other ∈ (assign key value entries).map Prod.fst ↔ other = key ∨ other ∈ entries.map Prod.fst := by
  induction entries with
  | nil => simp [assign]
  | cons entry rest ih =>
      obtain ⟨first, old⟩ := entry
      simp only [assign]
      split_ifs with before same
      · simp
      · subst same
        simp
      · rw [List.map_cons, List.mem_cons, ih, List.map_cons, List.mem_cons]
        tauto

theorem assign_sorted {key : κ} {value : ν} {entries : List (κ × ν)}
    (sorted : (entries.map Prod.fst).Pairwise (· < ·)) :
    ((assign key value entries).map Prod.fst).Pairwise (· < ·) := by
  induction entries with
  | nil => simp [assign]
  | cons entry rest ih =>
      obtain ⟨first, old⟩ := entry
      obtain ⟨smallest, restSorted⟩ := List.pairwise_cons.mp sorted
      simp only [assign]
      split_ifs with before same
      · refine List.pairwise_cons.mpr ⟨?_, sorted⟩
        intro other member
        rcases List.mem_cons.mp member with rfl | later
        · exact before
        · exact before.trans (smallest other later)
      · subst same
        exact sorted
      · refine List.pairwise_cons.mpr ⟨?_, ih restSorted⟩
        intro other member
        rcases mem_assign.mp member with rfl | later
        · exact lt_of_le_of_ne (not_lt.mp before) (Ne.symm same)
        · exact smallest other later

theorem length_assign_le (key : κ) (value : ν) (entries : List (κ × ν)) :
    (assign key value entries).length ≤ entries.length + 1 := by
  induction entries with
  | nil => simp [assign]
  | cons entry rest ih =>
      simp only [assign]
      split_ifs
      · simp
      · simp
      · simpa using ih

def insertOrAssign (map : OrderedMap κ ν) (key : κ) (value : ν) : OrderedMap κ ν where
  entries := assign key value map.entries
  sorted := assign_sorted map.sorted

def size (map : OrderedMap κ ν) : Nat := map.entries.length

def contains (map : OrderedMap κ ν) (key : κ) : Bool := key ∈ map.entries.map Prod.fst

@[simp] theorem contains_insertOrAssign (map : OrderedMap κ ν) (key other : κ) (value : ν) :
    (map.insertOrAssign key value).contains other = true ↔ other = key ∨ map.contains other = true := by
  rw [contains, contains, decide_eq_true_iff, decide_eq_true_iff]
  exact mem_assign

theorem size_insertOrAssign_le (map : OrderedMap κ ν) (key : κ) (value : ν) :
    (map.insertOrAssign key value).size ≤ map.size + 1 :=
  length_assign_le key value map.entries

theorem nodup_keys (map : OrderedMap κ ν) : (map.entries.map Prod.fst).Nodup :=
  map.sorted.imp ne_of_lt

theorem contains_iff (map : OrderedMap κ ν) (key : κ) :
    map.contains key = true ↔ key ∈ (map.entries.map Prod.fst).toFinset := by
  rw [contains, decide_eq_true_iff, List.mem_toFinset]

theorem size_eq_card (map : OrderedMap κ ν) :
    map.size = (map.entries.map Prod.fst).toFinset.card := by
  rw [List.toFinset_card_of_nodup map.nodup_keys, List.length_map, size]

theorem size_le_of_contains {first second : OrderedMap κ ν}
    (subset : ∀ key, first.contains key = true → second.contains key = true) :
    first.size ≤ second.size := by
  rw [size_eq_card, size_eq_card]
  apply Finset.card_le_card
  intro key member
  exact (contains_iff ..).mp (subset key ((contains_iff ..).mpr member))

theorem size_lt_of_contains {first second : OrderedMap κ ν} {extra : κ}
    (subset : ∀ key, first.contains key = true → second.contains key = true)
    (held : second.contains extra = true) (absent : ¬ first.contains extra = true) :
    first.size < second.size := by
  rw [size_eq_card, size_eq_card]
  apply Finset.card_lt_card
  refine Finset.ssubset_iff_of_subset ?_ |>.mpr ⟨extra, (contains_iff ..).mp held, ?_⟩
  · intro key member
    exact (contains_iff ..).mp (subset key ((contains_iff ..).mpr member))
  · exact fun member => absent ((contains_iff ..).mpr member)

end OrderedMap

end Dsac.Library

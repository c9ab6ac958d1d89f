import Mathlib

namespace Dsac.Library.Greatest

/-! The item of greatest rank among those that have arrived. An item replaces the one kept
only if its rank is greater, so that of several greatest items the first one stays. -/

variable {α : Type u} {κ : Type v} [LinearOrder κ] (rank : α → κ)

def keep (kept : Option α) (item : α) : Option α :=
  match kept with
  | none => some item
  | some old => if rank old < rank item then some item else some old

/-- No item in the list has a greater rank. -/
def Tops (items : List α) (item : α) : Prop := ∀ other ∈ items, rank other ≤ rank item

variable {rank} {items : List α} {kept : Option α} {item old : α}

theorem keep_some : keep rank (some old) item = if rank old < rank item then some item else some old := rfl

variable (rank) in
/-- What is kept is the new item or the old one, and neither has a greater rank. -/
theorem keep_spec (kept : Option α) (item : α) :
    ∃ next, keep rank kept item = some next ∧ (next = item ∨ kept = some next) ∧ rank item ≤ rank next ∧
      ∀ old, kept = some old → rank old ≤ rank next := by
  cases kept with
  | none => exact ⟨item, rfl, .inl rfl, le_rfl, nofun⟩
  | some old =>
      by_cases greater : rank old < rank item
      · refine ⟨item, if_pos greater, .inl rfl, le_rfl, ?_⟩
        rintro other ⟨⟩
        exact greater.le
      · refine ⟨old, if_neg greater, .inr rfl, not_lt.mp greater, ?_⟩
        rintro other ⟨⟩
        exact le_rfl

/-- The rank of the item that is kept does not decrease. -/
theorem keep_mono (here : kept = some old) :
    ∃ next, keep rank kept item = some next ∧ rank old ≤ rank next := by
  obtain ⟨next, keeps, _, _, older⟩ := keep_spec rank kept item
  exact ⟨next, keeps, older old here⟩

variable (rank) in
theorem foldl_keep_some (items : List α) (old : α) :
    ∃ next, items.foldl (keep rank) (some old) = some next ∧ (next = old ∨ next ∈ items) ∧
      rank old ≤ rank next ∧ Tops rank items next := by
  induction items generalizing old with
  | nil => exact ⟨old, rfl, .inl rfl, le_rfl, nofun⟩
  | cons item rest ih =>
      obtain ⟨first, keeps, source, newer, older⟩ := keep_spec rank (some old) item
      obtain ⟨last, folds, from_, later, tops⟩ := ih first
      refine ⟨last, ?_, ?_, (older old rfl).trans later, ?_⟩
      · rw [List.foldl_cons, keeps, folds]
      · rcases from_ with rfl | inRest
        · rcases source with rfl | same
          · exact .inr List.mem_cons_self
          · exact .inl (Option.some.inj same).symm
        · exact .inr (List.mem_cons_of_mem _ inRest)
      · intro other member
        rcases List.mem_cons.mp member with rfl | inRest
        · exact newer.trans later
        · exact tops other inRest

variable (rank) in
theorem foldl_keep_none (items : List α) :
    items = [] ∧ items.foldl (keep rank) none = none ∨
      ∃ next, items.foldl (keep rank) none = some next ∧ next ∈ items ∧ Tops rank items next := by
  cases items with
  | nil => exact .inl ⟨rfl, rfl⟩
  | cons item rest =>
      obtain ⟨next, folds, source, older, tops⟩ := foldl_keep_some rank rest item
      refine .inr ⟨next, folds, ?_, ?_⟩
      · rcases source with rfl | inRest
        · exact List.mem_cons_self
        · exact List.mem_cons_of_mem _ inRest
      · intro other member
        rcases List.mem_cons.mp member with rfl | inRest
        · exact older
        · exact tops other inRest

/-- The first of the items of greatest rank. -/
def first (rank : α → κ) (items : List α) : Option α :=
  items.find? fun item => items.all fun other => decide (rank other ≤ rank item)

theorem foldl_keep_split {next : α} (folds : items.foldl (keep rank) none = some next) :
    ∃ before after, items = before ++ next :: after ∧ Tops rank items next ∧
      ∀ other ∈ before, rank other < rank next := by
  induction items using List.reverseRecOn generalizing next with
  | nil => cases folds
  | append_singleton items last ih =>
      rw [List.foldl_append] at folds
      rcases foldl_keep_none rank items with ⟨rfl, _⟩ | ⟨old, kept, member, tops⟩
      · cases folds
        exact ⟨[], [], rfl, by simp [Tops], nofun⟩
      · rw [kept, List.foldl_cons, List.foldl_nil, keep_some] at folds
        by_cases greater : rank old < rank last
        · rw [if_pos greater] at folds
          cases folds
          have before : ∀ other ∈ items, rank other < rank last := fun other inside =>
            (tops other inside).trans_lt greater
          refine ⟨items, [], rfl, ?_, before⟩
          intro other inside
          rcases List.mem_append.mp inside with inItems | isLast
          · exact (before other inItems).le
          · rw [List.mem_singleton.mp isLast]
        · rw [if_neg greater] at folds
          cases folds
          obtain ⟨before, after, split, _, less⟩ := ih kept
          refine ⟨before, after ++ [last], by rw [split, List.append_assoc, List.cons_append], ?_, less⟩
          intro other inside
          rcases List.mem_append.mp inside with inItems | isLast
          · exact tops other inItems
          · rw [List.mem_singleton.mp isLast]
            exact not_lt.mp greater

theorem foldl_keep_eq_first {next : α} (folds : items.foldl (keep rank) none = some next) :
    first rank items = some next := by
  obtain ⟨before, after, split, tops, less⟩ := foldl_keep_split folds
  refine List.find?_eq_some_iff_append.mpr ⟨?_, before, after, split, ?_⟩
  · exact List.all_eq_true.mpr fun other inside => decide_eq_true (tops other inside)
  · intro other inside
    rw [Bool.not_eq_true', ← Bool.not_eq_true, List.all_eq_true]
    intro all
    have member : next ∈ items := by simp [split]
    exact absurd (of_decide_eq_true (all next member)) (not_le.mpr (less other inside))

/-- An item of greatest rank stays. -/
theorem foldl_keep_of_tops (tops : Tops rank items old) : items.foldl (keep rank) (some old) = some old := by
  induction items with
  | nil => rfl
  | cons item rest ih =>
      rw [List.foldl_cons, keep_some, if_neg (not_lt.mpr (tops item List.mem_cons_self))]
      apply ih
      intro other member
      exact tops other (List.mem_cons_of_mem _ member)

/-- Where items of equal rank are equal, the order in which they arrive and the number of times
that each of them arrives do not matter. -/
theorem foldl_keep_eq_some_iff (apart : ∀ one ∈ items, ∀ two ∈ items, rank one = rank two → one = two) :
    items.foldl (keep rank) none = some item ↔ item ∈ items ∧ Tops rank items item := by
  rcases foldl_keep_none rank items with ⟨rfl, folds⟩ | ⟨next, folds, member, tops⟩
  · simp
  · rw [folds, Option.some.injEq]
    constructor
    · rintro rfl
      exact ⟨member, tops⟩
    · rintro ⟨inside, greatest⟩
      exact apart next member item inside (le_antisymm (greatest next member) (tops item inside))

end Dsac.Library.Greatest

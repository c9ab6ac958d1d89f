import Mathlib

namespace Dsac.Library

/-! Keys in the order of their latest use. -/

variable {Key : Type} [BEq Key]

/-- The keys of a sequence of uses without repetition; the latest use is the first. -/
def recent : List Key → List Key
  | [] => []
  | key :: earlier => key :: (recent earlier).filter fun other => !(other == key)

/-- The same keys in the same order. -/
def SameKeys : List Key → List Key → Prop := List.Forall₂ fun first second => (first == second) = true

variable {first second before after keys uses : List Key} {key hit : Key} {capacity : Nat}

theorem SameKeys.length_eq (same : SameKeys first second) : first.length = second.length :=
  List.Forall₂.length_eq same

theorem SameKeys.take (same : SameKeys first second) (count : Nat) :
    SameKeys (first.take count) (second.take count) :=
  List.forall₂_take count same

/-- What splits one of two sequences splits the other. -/
theorem SameKeys.split (same : SameKeys (before ++ hit :: after) second) :
    ∃ otherBefore other otherAfter, second = otherBefore ++ other :: otherAfter ∧
      SameKeys before otherBefore ∧ (hit == other) = true ∧ SameKeys after otherAfter := by
  induction before generalizing second with
  | nil =>
      cases same with
      | cons equal rest => exact ⟨[], _, _, rfl, .nil, equal, rest⟩
  | cons first before ih =>
      cases same with
      | cons equal rest =>
          obtain ⟨otherBefore, other, otherAfter, rfl, sameBefore, equalHit, sameAfter⟩ := ih rest
          exact ⟨_ :: otherBefore, other, otherAfter, rfl, .cons equal sameBefore, equalHit, sameAfter⟩

theorem recent_distinct (uses : List Key) :
    (recent uses).Pairwise fun first second => (second == first) = false := by
  induction uses with
  | nil => exact .nil
  | cons key earlier ih =>
      apply List.pairwise_cons.mpr
      refine ⟨?_, ih.filter _⟩
      intro other member
      simpa using (List.mem_filter.mp member).2

theorem filter_absent (absent : ∀ other ∈ keys, (other == key) = false) :
    keys.filter (fun other => !(other == key)) = keys := by
  apply List.filter_eq_self.mpr
  intro other member
  simp [absent other member]

variable [EquivBEq Key]

/-- A use of a key outside the most recent ones makes it the first and pushes the last out. -/
theorem recent_miss (positive : 1 ≤ capacity) (same : SameKeys keys ((recent uses).take capacity))
    (absent : ∀ other ∈ keys, (other == key) = false) :
    SameKeys (key :: keys.take (capacity - 1)) ((recent (key :: uses)).take capacity) := by
  obtain ⟨capacity, rfl⟩ := Nat.exists_eq_succ_of_ne_zero (Nat.ne_of_gt positive)
  have absentRecent : ∀ other ∈ (recent uses).take (capacity + 1), (other == key) = false := by
    intro other member
    obtain ⟨before, after, split⟩ := List.append_of_mem member
    have flipped : SameKeys ((recent uses).take (capacity + 1)) keys := by
      apply List.Forall₂.flip
      exact same.imp fun _ _ equal => BEq.symm equal
    rw [split] at flipped
    obtain ⟨_, twin, _, rfl, _, equal, _⟩ := flipped.split
    rw [BEq.congr_left equal]
    exact absent twin (by simp)
  have kept : ((recent uses).filter fun other => !(other == key)).take capacity =
      ((recent uses).take (capacity + 1)).take capacity := by
    conv_lhs => rw [← List.take_append_drop (capacity + 1) (recent uses), List.filter_append,
      filter_absent absentRecent]
    rcases Nat.le_total (recent uses).length (capacity + 1) with short | long
    · rw [List.drop_eq_nil_of_le short, List.filter_nil, List.append_nil]
    · rw [List.take_append_of_le_length (by rw [List.length_take]; omega)]
  rw [recent, List.take_succ_cons, kept]
  exact .cons BEq.rfl (same.take capacity)

/-- A use of one of the most recent keys makes it the first. -/
theorem recent_hit (same : SameKeys (before ++ hit :: after) ((recent uses).take capacity))
    (equal : (hit == key) = true) :
    SameKeys (hit :: (before ++ after)) ((recent (key :: uses)).take capacity) := by
  obtain ⟨otherBefore, other, otherAfter, split, sameBefore, equalOther, sameAfter⟩ := same.split
  have length := congrArg List.length split
  rw [List.length_take, List.length_append, List.length_cons] at length
  obtain ⟨capacity, rfl⟩ := Nat.exists_eq_succ_of_ne_zero (show capacity ≠ 0 by omega)
  have distinct := (recent_distinct uses).sublist (List.take_sublist (capacity + 1) (recent uses))
  rw [split, List.pairwise_append, List.pairwise_cons] at distinct
  have isKey : (other == key) = true := BEq.trans (BEq.symm equalOther) equal
  have absentBefore : ∀ element ∈ otherBefore, (element == key) = false := by
    intro element member
    have apart := distinct.2.2 element member other List.mem_cons_self
    rw [← BEq.congr_right isKey, BEq.comm]
    exact apart
  have absentAfter : ∀ element ∈ otherAfter, (element == key) = false := by
    intro element member
    have apart := distinct.2.1.1 element member
    rwa [BEq.congr_right isKey] at apart
  have kept : ((recent uses).filter fun other => !(other == key)).take capacity = otherBefore ++ otherAfter := by
    conv_lhs => rw [← List.take_append_drop (capacity + 1) (recent uses), List.filter_append, split,
      List.filter_append, filter_absent absentBefore, List.filter_cons_of_neg (by simp [isKey]),
      filter_absent absentAfter]
    rcases Nat.le_total (recent uses).length (capacity + 1) with short | long
    · rw [List.drop_eq_nil_of_le short, List.filter_nil, List.append_nil, List.take_of_length_le]
      rw [List.length_append]
      omega
    · rw [List.take_append_of_le_length, List.take_of_length_le]
      · rw [List.length_append]
        omega
      · rw [List.length_append]
        omega
  rw [recent, List.take_succ_cons, kept]
  exact .cons equal (List.rel_append sameBefore sameAfter)

end Dsac.Library

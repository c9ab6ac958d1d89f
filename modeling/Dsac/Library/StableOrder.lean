import Dsac.Library.StrictWeakOrder

namespace Dsac.Library

/-! Lists that are sorted by a strict weak ordering, with equivalent values in the order in
which they were given. -/

variable {α : Type} (compare : α → α → Bool)

def equivalent (first second : α) : Bool := !compare first second && !compare second first

structure StablySorted (given sorted : List α) : Prop where
  ordered : sorted.Pairwise fun first second => compare second first = false
  permuted : sorted.Perm given
  stable : ∀ value, sorted.filter (equivalent compare value) = given.filter (equivalent compare value)

variable {compare} {given below above : List α} {value : α}

/-- What precedes is not above, and what follows is below: nothing later in the order is equivalent. -/
theorem filter_equivalent_nil (order : StrictWeakOrder compare) {other : α}
    (same : equivalent compare other value = true) (high : ∀ later ∈ above, compare value later = true) :
    above.filter (equivalent compare other) = [] := by
  simp only [equivalent, Bool.and_eq_true, Bool.not_eq_true'] at same
  refine List.filter_eq_nil_iff.mpr fun later member => ?_
  have less := order.lt_of_equiv_of_lt (high later member) same.1 same.2
  simp only [equivalent, less, Bool.not_true, Bool.false_and, Bool.false_eq_true, not_false_eq_true]

namespace StablySorted

theorem nil : StablySorted compare [] [] := ⟨List.Pairwise.nil, List.Perm.nil, fun _ => rfl⟩

/-- A value goes right after all the values that are not greater. -/
theorem insert (order : StrictWeakOrder compare) (sorted : StablySorted compare given (below ++ above))
    (low : ∀ other ∈ below, compare value other = false) (high : ∀ other ∈ above, compare value other = true) :
    StablySorted compare (given ++ [value]) (below ++ value :: above) where
  ordered := by
    obtain ⟨inBelow, inAbove, across⟩ := List.pairwise_append.mp sorted.ordered
    refine List.pairwise_append.mpr ⟨inBelow, List.pairwise_cons.mpr ⟨?_, inAbove⟩, ?_⟩
    · exact fun other member => order.asymm (high other member)
    · intro first member second inside
      rcases List.mem_cons.mp inside with rfl | later
      · exact low first member
      · exact across first member second later
  permuted := List.perm_middle.trans
    ((sorted.permuted.cons value).trans (List.perm_append_singleton value given).symm)
  stable other := by
    have stable := sorted.stable other
    rw [List.filter_append] at stable
    rw [List.filter_append, List.filter_append, ← stable, List.filter_cons]
    by_cases same : equivalent compare other value = true
    · rw [if_pos same, filter_equivalent_nil order same high, List.append_nil, List.filter_cons, if_pos same,
        List.filter_nil]
    · rw [if_neg same, List.filter_cons, if_neg same, List.filter_nil, List.append_nil]

/-- Every value that is equivalent to what precedes a sorted list comes from before it. -/
theorem filter_merge (order : StrictWeakOrder compare) (other : α) {left right : List α}
    (leftSorted : left.Pairwise fun first second => compare second first = false) :
    (left.merge right fun first second => !compare second first).filter (equivalent compare other) =
      left.filter (equivalent compare other) ++ right.filter (equivalent compare other) := by
  induction left generalizing right with
  | nil => simp
  | cons first left ihLeft =>
      obtain ⟨least, restSorted⟩ := List.pairwise_cons.mp leftSorted
      induction right with
      | nil => simp
      | cons second right ihRight =>
          rw [List.cons_merge_cons]
          cases less : compare second first with
          | false =>
              simp only [Bool.not_false, if_true]
              by_cases same : equivalent compare other first = true
              · rw [List.filter_cons_of_pos same, List.filter_cons_of_pos same, ihLeft restSorted, List.cons_append]
              · rw [List.filter_cons_of_neg same, List.filter_cons_of_neg same, ihLeft restSorted]
          | true =>
              simp only [Bool.not_true, Bool.false_eq_true, if_false]
              by_cases same : equivalent compare other second = true
              · -- nothing in the first list is equivalent to what is below all of it
                have above : ∀ later ∈ first :: left, compare second later = true := by
                  intro later member
                  rcases List.mem_cons.mp member with rfl | inside
                  · exact less
                  · by_contra notLess
                    have := order.not_trans (by simpa using notLess) (least later inside)
                    rw [less] at this
                    cases this
                have none := filter_equivalent_nil order same above
                rw [List.filter_cons_of_pos same, ihRight, none, List.filter_cons_of_pos same]
                rfl
              · rw [List.filter_cons_of_neg same, ihRight, List.filter_cons_of_neg same]

/-- Two sorted lists are merged, the first one before the second one where they are equivalent. -/
theorem merge (order : StrictWeakOrder compare) {others left right : List α}
    (first : StablySorted compare given left) (second : StablySorted compare others right) :
    StablySorted compare (given ++ others) (left.merge right fun first second => !compare second first) where
  ordered := by
    have convert : ∀ {list : List α}, list.Pairwise (fun first second => compare second first = false) ↔
        list.Pairwise fun first second => (!compare second first) = true := by
      intro list
      simp only [Bool.not_eq_true']
    refine convert.mpr (List.pairwise_merge ?_ ?_ left right (convert.mp first.ordered) (convert.mp second.ordered))
    · intro a b c below above
      simp only [Bool.not_eq_true'] at below above ⊢
      exact order.not_trans above below
    · intro a b
      cases less : compare b a with
      | false => rfl
      | true => simp only [order.asymm less, Bool.not_true, Bool.not_false, Bool.or_true]
  permuted := (List.merge_perm_append _).trans (first.permuted.append second.permuted)
  stable other := by
    rw [filter_merge order other first.ordered, first.stable, second.stable, List.filter_append]

end StablySorted

end Dsac.Library

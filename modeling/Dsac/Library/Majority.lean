import Mathlib

namespace Dsac.Library

/-! What holds at a quorum of the members of a finite family. -/

variable {α : Type u} {quorum : Nat} {one two : α → Prop}

/-- It holds at that many members at least. -/
def Held (quorum : Nat) (holds : α → Prop) : Prop :=
  ∃ holders : Finset α, quorum ≤ holders.card ∧ ∀ member ∈ holders, holds member

theorem Held.mono (held : Held quorum one) (weaker : ∀ member, one member → two member) : Held quorum two := by
  obtain ⟨holders, enough, all⟩ := held
  exact ⟨holders, enough, fun member inside => weaker member (all member inside)⟩

theorem Held.of_list {members : List α} (distinct : members.Nodup) (enough : members.length = quorum)
    (all : ∀ member ∈ members, one member) : Held quorum one := by
  classical
  refine ⟨members.toFinset, ?_, ?_⟩
  · rw [List.toFinset_card_of_nodup distinct, enough]
  · intro member inside
    exact all member (List.mem_toFinset.mp inside)

/-- Two majorities have a member in common. -/
theorem Held.meet [Fintype α] (majority : Fintype.card α < quorum + quorum) (first : Held quorum one)
    (second : Held quorum two) : ∃ member, one member ∧ two member := by
  classical
  obtain ⟨ones, enough, all⟩ := first
  obtain ⟨twos, others, every⟩ := second
  have crowded : (Finset.univ : Finset α).card < ones.card + twos.card := by
    rw [Finset.card_univ]
    omega
  obtain ⟨member, common⟩ := Finset.inter_nonempty_of_card_lt_card_add_card (Finset.subset_univ ones)
    (Finset.subset_univ twos) crowded
  obtain ⟨inOnes, inTwos⟩ := Finset.mem_inter.mp common
  exact ⟨member, all member inOnes, every member inTwos⟩

end Dsac.Library

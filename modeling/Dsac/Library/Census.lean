import Mathlib

namespace Dsac.Library

/-! A counter of the threads that are inside. -/

variable {ι : Type u} {α : Type v} {inside : α → Prop} {places : ι → α} {thread other : ι} {place : α} {count : Nat}

/-- That many threads are inside. -/
def Census (inside : α → Prop) (places : ι → α) (count : Nat) : Prop :=
  ∃ threads : Finset ι, (∀ thread, thread ∈ threads ↔ inside (places thread)) ∧ threads.card = count

namespace Census

theorem pos (census : Census inside places count) (within : inside (places thread)) : 0 < count := by
  obtain ⟨threads, exact_, rfl⟩ := census
  exact Finset.card_pos.mpr ⟨thread, (exact_ thread).mpr within⟩

/-- A thread that is the only one inside. -/
theorem alone (census : Census inside places 1) (within : inside (places thread))
    (also_ : inside (places other)) : other = thread := by
  obtain ⟨threads, exact_, single⟩ := census
  exact Finset.card_le_one.mp single.le other ((exact_ other).mpr also_) thread ((exact_ thread).mpr within)

theorem nobody (census : Census inside places 0) (thread : ι) : ¬ inside (places thread) := by
  intro within
  exact absurd (census.pos within) (lt_irrefl _)

theorem start (outside : ∀ thread, ¬ inside (places thread)) : Census inside places 0 :=
  ⟨∅, fun thread => ⟨nofun, fun within => absurd within (outside thread)⟩, rfl⟩

variable [DecidableEq ι]

theorem keep (census : Census inside places count) (same : inside place ↔ inside (places thread)) :
    Census inside (Function.update places thread place) count := by
  obtain ⟨threads, exact_, counted⟩ := census
  refine ⟨threads, ?_, counted⟩
  intro other
  by_cases here : other = thread
  · subst other
    rw [Function.update_self, exact_, same]
  · rw [Function.update_of_ne here, exact_]

theorem enter (census : Census inside places count) (outside : ¬ inside (places thread)) (enters : inside place) :
    Census inside (Function.update places thread place) (count + 1) := by
  obtain ⟨threads, exact_, counted⟩ := census
  refine ⟨insert thread threads, ?_, ?_⟩
  · intro other
    by_cases here : other = thread
    · subst other
      rw [Function.update_self]
      exact iff_of_true (Finset.mem_insert_self _ _) enters
    · rw [Function.update_of_ne here, Finset.mem_insert, exact_]
      exact or_iff_right here
  · rw [Finset.card_insert_of_notMem fun member => outside ((exact_ thread).mp member), counted]

theorem leave (census : Census inside places count) (within : inside (places thread)) (leaves : ¬ inside place) :
    Census inside (Function.update places thread place) (count - 1) := by
  obtain ⟨threads, exact_, counted⟩ := census
  refine ⟨threads.erase thread, ?_, ?_⟩
  · intro other
    by_cases here : other = thread
    · subst other
      rw [Function.update_self]
      exact iff_of_false (Finset.notMem_erase _ _) leaves
    · rw [Function.update_of_ne here, Finset.mem_erase, exact_]
      exact and_iff_right here
  · rw [Finset.card_erase_of_mem ((exact_ thread).mpr within), counted]

end Census

end Dsac.Library

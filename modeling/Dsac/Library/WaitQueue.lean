import Mathlib

namespace Dsac.Library.WaitQueue

/-! The threads that sleep on a futex or on a condition variable. Which of them a
wake-up picks is left open, except that it picks one if there is one. -/

variable {ι : Type u} {α : Type v} [DecidableEq ι]

/-- The sleepers that a wake-up of the chosen threads wakes. -/
def woken (sleepers chosen : List ι) : List ι := sleepers.filter (· ∈ chosen)

/-- The sleepers that it leaves asleep. -/
def asleep (sleepers chosen : List ι) : List ι := sleepers.filter (· ∉ chosen)

/-- Somebody is woken if anybody sleeps. -/
def Wakes (sleepers chosen : List ι) : Prop := sleepers ≠ [] → woken sleepers chosen ≠ []

instance (sleepers chosen : List ι) : Decidable (Wakes sleepers chosen) :=
  inferInstanceAs (Decidable (_ → _))

/-- All the given threads go to one place. -/
def moved (places : ι → α) (threads : List ι) (place : α) (thread : ι) : α :=
  if thread ∈ threads then place else places thread

variable {sleepers chosen threads : List ι} {places : ι → α} {place : α} {thread : ι}

@[simp] theorem mem_woken : thread ∈ woken sleepers chosen ↔ thread ∈ sleepers ∧ thread ∈ chosen := by
  simp [woken]

@[simp] theorem mem_asleep : thread ∈ asleep sleepers chosen ↔ thread ∈ sleepers ∧ thread ∉ chosen := by
  simp [asleep]

theorem moved_of_mem (member : thread ∈ threads) : moved places threads place thread = place :=
  if_pos member

theorem moved_of_not_mem (outside : thread ∉ threads) :
    moved places threads place thread = places thread := if_neg outside

theorem Wakes.exists_woken (wakes : Wakes sleepers chosen) (sleeping : sleepers ≠ []) :
    ∃ thread, thread ∈ woken sleepers chosen :=
  List.exists_mem_of_ne_nil _ (wakes sleeping)

/-! A count over all the threads, each weighed by its place. -/

section

variable [Fintype ι] (weight : α → Nat)

def total (places : ι → α) : Nat := ∑ thread, weight (places thread)

omit [DecidableEq ι] in
theorem le_total (places : ι → α) (thread : ι) : weight (places thread) ≤ total weight places :=
  Finset.single_le_sum (f := fun other => weight (places other)) (fun _ _ => Nat.zero_le _)
    (Finset.mem_univ thread)

theorem add_le_total (places : ι → α) {first second : ι} (different : second ≠ first) :
    weight (places first) + weight (places second) ≤ total weight places := by
  rw [total, ← Finset.add_sum_erase _ _ (Finset.mem_univ first)]
  apply Nat.add_le_add_left
  exact Finset.single_le_sum (f := fun other => weight (places other)) (fun _ _ => Nat.zero_le _)
    (Finset.mem_erase.mpr ⟨different, Finset.mem_univ second⟩)

theorem total_update (places : ι → α) (thread : ι) (place : α) :
    total weight (Function.update places thread place) + weight (places thread) =
      total weight places + weight place := by
  have others : ∑ other ∈ Finset.univ.erase thread, weight (Function.update places thread place other) =
      ∑ other ∈ Finset.univ.erase thread, weight (places other) :=
    Finset.sum_congr rfl fun other member => by
      rw [Function.update_of_ne (Finset.ne_of_mem_erase member)]
  rw [total, total, ← Finset.add_sum_erase _ _ (Finset.mem_univ thread),
    ← Finset.add_sum_erase _ (fun other => weight (places other)) (Finset.mem_univ thread), others,
    Function.update_self]
  omega

theorem total_moved_lt (light : ∀ thread ∈ threads, weight (places thread) < weight place)
    (member : thread ∈ threads) : total weight places < total weight (moved places threads place) := by
  refine Finset.sum_lt_sum (fun other _ => ?_) ⟨thread, Finset.mem_univ thread, ?_⟩
  · by_cases inside : other ∈ threads
    · rw [moved_of_mem inside]
      exact Nat.le_of_lt (light other inside)
    · rw [moved_of_not_mem inside]
  · rw [moved_of_mem member]
    exact light thread member

end

end Dsac.Library.WaitQueue

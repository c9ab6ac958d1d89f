import Dsac.Concurrency.Synchronization.Mutex.Exclusion

namespace Dsac.Mutex.System

open Dsac.Library

/-! What a step of the mutex does to the places of the threads. -/

/-- The thread is inside `lock`, or has just returned from it. -/
def Locks : Place → Prop
  | .trying | .looping _ | .waiting | .asleep | .taking | .holding => True
  | _ => False

/-- The thread is about to call `unlock`, inside it, or has just returned from it. -/
def Unlocks : Place → Prop
  | .holding | .clearing | .waking | .idle => True
  | _ => False

variable {ι : Type} [DecidableEq ι] {mutex_ : System ι} {thread other : ι}

theorem wake_places (safe : mutex_.Safe) (chosen : List ι) (other : ι) :
    (mutex_.wake chosen).places other = mutex_.places other ∨
      mutex_.places other = .asleep ∧ (mutex_.wake chosen).places other = .taking := by
  by_cases woken : other ∈ WaitQueue.woken mutex_.sleepers chosen
  · exact Or.inr ⟨(safe.queued other).mpr (WaitQueue.mem_woken.mp woken).1, wake_places_of_mem woken⟩
  · exact Or.inl (wake_places_of_not_mem woken)

theorem spurious_places (safe : mutex_.Safe) (thread other : ι) :
    (mutex_.step (.spurious thread)).places other = mutex_.places other ∨
      mutex_.places other = .asleep ∧ (mutex_.step (.spurious thread)).places other = .taking := by
  rw [step]
  split
  next => exact wake_places safe [thread] other
  next => exact Or.inl rfl

/-- A step of one thread moves no other, unless it wakes it. -/
theorem act_places_of_ne (safe : mutex_.Safe) (different : other ≠ thread) (chosen : List ι) :
    (mutex_.act thread chosen).places other = mutex_.places other ∨
      mutex_.places other = .asleep ∧ (mutex_.act thread chosen).places other = .taking := by
  cases at_ : mutex_.places thread with
  | waking =>
      simp only [act, at_]
      split
      next =>
          rw [goto_places_of_ne different]
          exact wake_places safe chosen other
      next => exact Or.inl rfl
  | looping c =>
      left
      simp only [act, at_]
      split
      next => exact goto_places_of_ne different
      next => exact goto_places_of_ne different
  | waiting =>
      left
      simp only [act, at_]
      split
      next => exact goto_places_of_ne different
      next => exact goto_places_of_ne different
  | idle | finished | asleep => exact Or.inl (by simp only [act, at_])
  | trying | taking | holding | clearing =>
      left
      simp only [act, at_]
      exact goto_places_of_ne different

theorem act_locks (locks : Locks (mutex_.places thread)) (outside : mutex_.places thread ≠ .holding)
    (chosen : List ι) :
    Locks ((mutex_.act thread chosen).places thread) := by
  cases at_ : mutex_.places thread with
  | trying | taking =>
      simp only [act, at_, goto_places_self]
      split <;> trivial
  | looping c =>
      simp only [act, at_]
      split
      next =>
          rw [goto_places_self]
          trivial
      next =>
          simp only [goto_places_self]
          split <;> trivial
  | waiting =>
      simp only [act, at_]
      split
      next =>
          rw [goto_places_self]
          trivial
      next =>
          rw [goto_places_self]
          trivial
  | asleep =>
      simp only [act, at_]
      trivial
  | holding => exact absurd at_ outside
  | idle | finished | clearing | waking =>
      rw [at_] at locks
      exact locks.elim

theorem act_unlocks (unlocks : Unlocks (mutex_.places thread)) (chosen : List ι) :
    Unlocks ((mutex_.act thread chosen).places thread) := by
  cases at_ : mutex_.places thread with
  | holding =>
      simp only [act, at_, goto_places_self]
      split <;> trivial
  | clearing =>
      simp only [act, at_, goto_places_self]
      trivial
  | waking =>
      simp only [act, at_]
      split
      next =>
          rw [goto_places_self]
          trivial
      next =>
          rw [at_]
          trivial
  | idle =>
      simp only [act, at_]
      trivial
  | finished | trying | looping _ | waiting | asleep | taking =>
      rw [at_] at unlocks
      exact unlocks.elim

end Dsac.Mutex.System

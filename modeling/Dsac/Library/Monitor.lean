import Mathlib

namespace Dsac.Library.Monitor

/-! A mutex, the threads that stand at places of the code, and the places that only the
owner of the mutex can stand at. -/

variable {ι : Type u} {α : Type v} {locks : α → Prop} {places : ι → α} {owner : Option ι}
  {thread : ι} {place : α}

/-- The threads at a locked place are the owner of the mutex and nobody else. -/
def Owned (locks : α → Prop) (places : ι → α) (owner : Option ι) : Prop :=
  ∀ thread, locks (places thread) ↔ owner = some thread

namespace Owned

theorem unique (owned : Owned locks places owner) {first second : ι} (one : locks (places first))
    (two : locks (places second)) : first = second :=
  Option.some.inj (((owned first).mp one).symm.trans ((owned second).mp two))

theorem nobody (owned : Owned locks places none) (thread : ι) : ¬ locks (places thread) := by
  intro locked
  cases (owned thread).mp locked

/-- All threads move, each from a place to one that is locked if that place was. -/
theorem map (owned : Owned locks places owner) {moved : ι → α}
    (same : ∀ thread, locks (moved thread) ↔ locks (places thread)) : Owned locks moved owner :=
  fun thread => (same thread).trans (owned thread)

variable [DecidableEq ι]

/-- A thread moves on and keeps the mutex, or goes on without it. -/
theorem keep (owned : Owned locks places owner) (same : locks place ↔ locks (places thread)) :
    Owned locks (Function.update places thread place) owner := by
  apply owned.map
  intro other
  by_cases here : other = thread
  · subst here
    rw [Function.update_self]
    exact same
  · rw [Function.update_of_ne here]

theorem take (owned : Owned locks places none) (locked : locks place) :
    Owned locks (Function.update places thread place) (some thread) := by
  intro other
  by_cases here : other = thread
  · subst here
    rw [Function.update_self]
    exact iff_of_true locked rfl
  · rw [Function.update_of_ne here]
    apply iff_of_false (owned.nobody other)
    intro same
    exact here (Option.some.inj same).symm

theorem leave (owned : Owned locks places owner) (locked : locks (places thread)) (left : ¬ locks place) :
    Owned locks (Function.update places thread place) none := by
  intro other
  by_cases here : other = thread
  · subst here
    rw [Function.update_self]
    exact iff_of_false left nofun
  · rw [Function.update_of_ne here]
    apply iff_of_false
    · intro otherLocked
      exact here (owned.unique otherLocked locked)
    · nofun

end Owned

end Dsac.Library.Monitor

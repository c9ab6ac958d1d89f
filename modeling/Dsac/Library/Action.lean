import Mathlib

namespace Dsac.Library

/-! Calls on a state that return, throw an exception and keep the state, or fault; and how
they end. -/

variable {φ σ ε α β : Type}

def Action (φ σ ε α : Type) := σ → Except φ (Except ε α × σ)

namespace Action

instance : Monad (Action φ σ ε) where
  pure value state := .ok (.ok value, state)
  bind first next state :=
    match first state with
    | .error fault => .error fault
    | .ok (.error exception, state) => .ok (.error exception, state)
    | .ok (.ok value, state) => next value state

def throw (exception : ε) : Action φ σ ε α := fun state => .ok (.error exception, state)

def fault (reason : φ) : Action φ σ ε α := fun _ => .error reason

def modify (change : σ → σ) : Action φ σ ε Unit := fun state => .ok (.ok (), change state)

/-- `try { body } catch (...) { handler }` -/
def catching (body : Action φ σ ε α) (handler : ε → Action φ σ ε α) : Action φ σ ε α := fun state =>
  match body state with
  | .ok (.error exception, state) => handler exception state
  | result => result

/-- The call returns or throws as told, unless it faults where that is allowed. -/
def EndsOr (faulted : Prop) (action : Action φ σ ε α) (state : σ) (returned : α → σ → Prop) (thrown : ε → σ → Prop) :
    Prop :=
  match action state with
  | .error _ => faulted
  | .ok (.ok value, next) => returned value next
  | .ok (.error exception, next) => thrown exception next

/-- The call does not fault; it returns or throws as told. -/
abbrev Ends (action : Action φ σ ε α) (state : σ) (returned : α → σ → Prop) (thrown : ε → σ → Prop) : Prop :=
  EndsOr False action state returned thrown

namespace EndsOr

variable {faulted : Prop} {action : Action φ σ ε α} {state : σ} {returned : α → σ → Prop} {thrown : ε → σ → Prop}

theorem imp {returned' : α → σ → Prop} {thrown' : ε → σ → Prop} (ends : EndsOr faulted action state returned thrown)
    (returns : ∀ value next, returned value next → returned' value next)
    (throws : ∀ exception next, thrown exception next → thrown' exception next) :
    EndsOr faulted action state returned' thrown' := by
  revert ends
  unfold EndsOr
  split
  · exact id
  · exact returns _ _
  · exact throws _ _

theorem of_returned {value : α} {next : σ} (result : action state = .ok (.ok value, next))
    (holds : returned value next) : EndsOr faulted action state returned thrown := by
  rw [EndsOr, result]
  exact holds

theorem of_fault {reason : φ} (result : action state = .error reason) (allowed : faulted) :
    EndsOr faulted action state returned thrown := by
  rw [EndsOr, result]
  exact allowed

theorem weaken {wider : Prop} (ends : EndsOr faulted action state returned thrown) (allowed : faulted → wider) :
    EndsOr wider action state returned thrown := by
  revert ends
  unfold EndsOr
  split
  · exact allowed
  · exact id
  · exact id

theorem bind {next : α → Action φ σ ε β} {returned : β → σ → Prop}
    (ends : EndsOr faulted action state (fun value middle => EndsOr faulted (next value) middle returned thrown) thrown) :
    EndsOr faulted (action >>= next) state returned thrown := by
  revert ends
  unfold EndsOr
  simp only [Bind.bind]
  cases action state with
  | error reason => exact id
  | ok result =>
      obtain ⟨_ | _, middle⟩ := result
      · exact id
      · exact id

theorem pure {value : α} (holds : returned value state) :
    EndsOr faulted (pure value : Action φ σ ε α) state returned thrown := holds

theorem throw {exception : ε} (holds : thrown exception state) :
    EndsOr faulted (throw exception : Action φ σ ε α) state returned thrown := holds

theorem fault {reason : φ} (allowed : faulted) :
    EndsOr faulted (fault reason : Action φ σ ε α) state returned thrown := allowed

theorem modify {change : σ → σ} {returned : Unit → σ → Prop} (holds : returned () (change state)) :
    EndsOr faulted (modify change : Action φ σ ε Unit) state returned thrown := holds

theorem catching {handler : ε → Action φ σ ε α}
    (ends : EndsOr faulted action state returned fun exception middle =>
      EndsOr faulted (handler exception) middle returned thrown) :
    EndsOr faulted (action.catching handler) state returned thrown := by
  revert ends
  unfold EndsOr Action.catching
  cases action state with
  | error reason => exact id
  | ok result =>
      obtain ⟨_ | _, middle⟩ := result
      · exact id
      · exact id

end EndsOr

/-- How the call ended, and in which state. -/
theorem Ends.result {action : Action φ σ ε α} {state : σ} {returned : α → σ → Prop} {thrown : ε → σ → Prop}
    (ends : Ends action state returned thrown) :
    (∃ value next, action state = .ok (.ok value, next) ∧ returned value next) ∨
      ∃ exception next, action state = .ok (.error exception, next) ∧ thrown exception next := by
  revert ends
  unfold Ends EndsOr
  split
  · exact False.elim
  · exact fun holds => .inl ⟨_, _, ‹_›, holds⟩
  · exact fun holds => .inr ⟨_, _, ‹_›, holds⟩

/-- A call that neither returns nor throws faults. -/
theorem EndsOr.faults {action : Action φ σ ε α} {state : σ}
    (ends : EndsOr True action state (fun _ _ => False) fun _ _ => False) : ∃ reason, action state = .error reason := by
  revert ends
  unfold EndsOr
  split
  · exact fun _ => ⟨_, ‹_›⟩
  · exact False.elim
  · exact False.elim

end Action

end Dsac.Library

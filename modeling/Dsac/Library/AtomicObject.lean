import Mathlib

namespace Dsac.Library.AtomicObject

/-! An object whose operations take effect in one step each, somewhere between their
invocation and their response. -/

variable {ι : Type u} {σ : Type v} {Ω : Type w} {ρ : Type x} [DecidableEq ι]

/-- Where a thread stands towards the object. -/
inductive Status (Ω : Type w) (ρ : Type x) where
  | idle
  | invoked (operation : Ω)
  | decided (result : ρ)
deriving DecidableEq, Repr

/-- What an observer sees of a thread. -/
inductive Observed (ι : Type u) (Ω : Type w) (ρ : Type x) where
  | invoke (thread : ι) (operation : Ω)
  | respond (thread : ι) (result : ρ)
deriving DecidableEq, Repr

/-- The object can show this history: it has performed the operations in this order, with these
results, and stands in this state. -/
inductive Reaches (apply : σ → Ω → σ × ρ) (start : σ) :
    List (Observed ι Ω ρ) → List (ι × Ω × ρ) → σ → (ι → Status Ω ρ) → Prop
  | start : Reaches apply start [] [] start (fun _ => .idle)
  | invoke {history order state statuses} (thread : ι) (operation : Ω)
      (reached : Reaches apply start history order state statuses) (idle : statuses thread = .idle) :
      Reaches apply start (history ++ [.invoke thread operation]) order state
        (Function.update statuses thread (.invoked operation))
  | perform {history order state statuses} (thread : ι) (operation : Ω)
      (reached : Reaches apply start history order state statuses)
      (invoked : statuses thread = .invoked operation) :
      Reaches apply start history (order ++ [(thread, operation, (apply state operation).2)])
        (apply state operation).1 (Function.update statuses thread (.decided (apply state operation).2))
  | respond {history order state statuses} (thread : ι) (result : ρ)
      (reached : Reaches apply start history order state statuses)
      (decided : statuses thread = .decided result) :
      Reaches apply start (history ++ [.respond thread result]) order state
        (Function.update statuses thread .idle)

/-- The operations of the history can be put in an order, each between its invocation and its
response, in which the object gives the results that were returned. -/
def Linearizable (apply : σ → Ω → σ × ρ) (start : σ) (history : List (Observed ι Ω ρ)) : Prop :=
  ∃ order state statuses, Reaches apply start history order state statuses

def Observed.invocation : Observed ι Ω ρ → Option (ι × Ω)
  | .invoke thread operation => some (thread, operation)
  | .respond _ _ => none

def Observed.response : Observed ι Ω ρ → Option (ι × ρ)
  | .invoke _ _ => none
  | .respond thread result => some (thread, result)

/-- The operation that the object has still to perform. -/
def Status.operation : Status Ω ρ → Option Ω
  | .invoked operation => some operation
  | .idle | .decided _ => none

/-- The result that the thread has still to return. -/
def Status.result : Status Ω ρ → Option ρ
  | .decided result => some result
  | .idle | .invoked _ => none

section

variable {β : Type y} {item : Status Ω ρ → Option β} {statuses : ι → Status Ω ρ} {status : Status Ω ρ}
  {open_ : Multiset (ι × β)} {thread : ι} {value : β}

/-- The items of the threads are all in the multiset. -/
def Covers (item : Status Ω ρ → Option β) (statuses : ι → Status Ω ρ) (open_ : Multiset (ι × β)) : Prop :=
  ∀ thread value, item (statuses thread) = some value → (thread, value) ∈ open_

theorem Covers.put (covers : Covers item statuses open_) (has : item status = some value) :
    Covers item (Function.update statuses thread status) ((thread, value) ::ₘ open_) := by
  intro other another found
  by_cases here : other = thread
  · subst other
    rw [Function.update_self, has] at found
    cases found
    exact Multiset.mem_cons_self _ _
  · rw [Function.update_of_ne here] at found
    exact Multiset.mem_cons_of_mem (covers other another found)

theorem Covers.keep (covers : Covers item statuses open_) (lacks : item status = none) :
    Covers item (Function.update statuses thread status) open_ := by
  intro other another found
  by_cases here : other = thread
  · subst other
    rw [Function.update_self, lacks] at found
    cases found
  · rw [Function.update_of_ne here] at found
    exact covers other another found

theorem Covers.take [DecidableEq β] (covers : Covers item statuses open_) (lacks : item status = none) :
    Covers item (Function.update statuses thread status) (open_.erase (thread, value)) := by
  intro other another found
  have apart : other ≠ thread := fun here => by
    subst here
    rw [Function.update_self, lacks] at found
    cases found
  rw [Function.update_of_ne apart] at found
  refine (Multiset.mem_erase_of_ne ?_).mpr (covers other another found)
  intro same
  exact apart (congrArg Prod.fst same)

omit [DecidableEq ι] in
theorem coe_append_singleton (items : List β) (last : β) :
    ((items ++ [last] : List β) : Multiset β) = last ::ₘ (items : Multiset β) := by
  rw [← Multiset.coe_add, add_comm]
  rfl

end

namespace Reaches

variable {apply : σ → Ω → σ × ρ} {start state : σ} {history : List (Observed ι Ω ρ)}
  {order : List (ι × Ω × ρ)} {statuses : ι → Status Ω ρ}

/-- Every operation that was performed was invoked, and each invocation is performed once. -/
theorem performed_le (reached : Reaches apply start history order state statuses) :
    ∃ waiting : Multiset (ι × Ω),
      (history.filterMap Observed.invocation : Multiset (ι × Ω)) =
        (order.map fun step => (step.1, step.2.1) : List (ι × Ω)) + waiting ∧
      Covers Status.operation statuses waiting := by
  classical
  induction reached with
  | start => exact ⟨0, rfl, nofun⟩
  | invoke thread operation _ _ ih =>
      obtain ⟨waiting, same, covers⟩ := ih
      refine ⟨(thread, operation) ::ₘ waiting, ?_, covers.put rfl⟩
      rw [List.filterMap_append, Multiset.add_cons, ← same]
      exact coe_append_singleton _ _
  | perform thread operation _ invoked ih =>
      obtain ⟨waiting, same, covers⟩ := ih
      refine ⟨waiting.erase (thread, operation), ?_, covers.take rfl⟩
      have inside : (thread, operation) ∈ waiting := covers thread operation (by rw [invoked, Status.operation])
      rw [same, List.map_append, List.map_singleton, coe_append_singleton, Multiset.cons_add, ← Multiset.add_cons,
        Multiset.cons_erase inside]
  | respond thread result _ _ ih =>
      obtain ⟨waiting, same, covers⟩ := ih
      refine ⟨waiting, ?_, covers.keep rfl⟩
      rw [List.filterMap_append, ← same]
      show ((_ ++ [] : List (ι × Ω)) : Multiset (ι × Ω)) = _
      rw [List.append_nil]

/-- Every result that was returned is that of an operation performed, which returns it once. -/
theorem responded_le (reached : Reaches apply start history order state statuses) :
    ∃ pending : Multiset (ι × ρ),
      ((order.map fun step => (step.1, step.2.2) : List (ι × ρ)) : Multiset (ι × ρ)) =
        (history.filterMap Observed.response : Multiset (ι × ρ)) + pending ∧
      Covers Status.result statuses pending := by
  classical
  induction reached with
  | start => exact ⟨0, rfl, nofun⟩
  | invoke thread operation _ _ ih =>
      obtain ⟨pending, same, covers⟩ := ih
      refine ⟨pending, ?_, covers.keep rfl⟩
      rw [List.filterMap_append, same]
      show _ = ((_ ++ [] : List (ι × ρ)) : Multiset (ι × ρ)) + pending
      rw [List.append_nil]
  | perform thread operation _ _ ih =>
      obtain ⟨pending, same, covers⟩ := ih
      refine ⟨(thread, _) ::ₘ pending, ?_, covers.put rfl⟩
      rw [List.map_append, Multiset.add_cons, ← same]
      exact coe_append_singleton _ _
  | respond thread result _ decided ih =>
      obtain ⟨pending, same, covers⟩ := ih
      refine ⟨pending.erase (thread, result), ?_, covers.take rfl⟩
      have inside : (thread, result) ∈ pending := covers thread result (by rw [decided, Status.result])
      rw [same, List.filterMap_append]
      show _ = ((_ ++ [(thread, result)] : List (ι × ρ)) : Multiset (ι × ρ)) + _
      rw [coe_append_singleton, Multiset.cons_add, ← Multiset.add_cons, Multiset.cons_erase inside]

end Reaches

end Dsac.Library.AtomicObject

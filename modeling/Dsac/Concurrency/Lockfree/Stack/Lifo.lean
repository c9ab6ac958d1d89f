import Dsac.Concurrency.Lockfree.Stack

namespace Dsac.LockFreeStack

open Dsac.Library Dsac.Library.AtomicObject

/-! The stack as an atomic object. -/

variable {ι T : Type}

/-- What the operations do to the values on the stack. -/
def lifo (stack : List T) : Operation T → List T × Reply T
  | .push value => (value :: stack, .pushed)
  | .pop =>
      match stack with
      | [] => ([], .popped none)
      | value :: rest => (rest, .popped (some value))

def Operation.value : Operation T → Option T
  | .push value => some value
  | .pop => none

def Reply.value : Reply T → Option T
  | .pushed => none
  | .popped value => value

/-- The values of the pushes that were called. -/
def pushedValues (history : List (Observed ι (Operation T) (Reply T))) : Multiset T :=
  Multiset.filterMap (fun call => call.2.value) (history.filterMap Observed.invocation : Multiset (ι × Operation T))

/-- The values of the pops that have returned. -/
def poppedValues (history : List (Observed ι (Operation T) (Reply T))) : Multiset T :=
  Multiset.filterMap (fun reply => reply.2.value) (history.filterMap Observed.response : Multiset (ι × Reply T))

section

variable [DecidableEq ι] {history : List (Observed ι (Operation T) (Reply T))}
  {order : List (ι × Operation T × Reply T)} {values : List T} {statuses : ι → Status (Operation T) (Reply T)}

/-- The stack has what was pushed and not popped. -/
theorem lifo_balance (reached : Reaches lifo [] history order values statuses) :
    Multiset.filterMap (fun step => step.2.1.value) (order : Multiset (ι × Operation T × Reply T)) =
      Multiset.filterMap (fun step => step.2.2.value) (order : Multiset (ι × Operation T × Reply T)) + values := by
  induction reached with
  | start => rfl
  | invoke _ _ _ _ ih => exact ih
  | respond _ _ _ _ ih => exact ih
  | @perform history order state statuses thread operation _ _ ih =>
      rw [coe_append_singleton, Multiset.filterMap_cons, Multiset.filterMap_cons, ih]
      cases operation with
      | push value =>
          simp only [lifo, Operation.value, Reply.value, Option.map_some, Option.map_none, Option.getD_some, Option.getD_none, zero_add,
            Multiset.singleton_add, ← Multiset.cons_coe, Multiset.add_cons]
      | pop =>
          cases state with
          | nil => simp only [lifo, Operation.value, Reply.value, Option.map_none, Option.getD_none, zero_add]
          | cons value rest =>
              simp only [lifo, Operation.value, Reply.value, Option.map_some, Option.map_none, Option.getD_some, Option.getD_none, zero_add,
                Multiset.singleton_add, ← Multiset.cons_coe, Multiset.add_cons, Multiset.cons_add]

/-- Every value that a pop has returned was pushed, and no other pop has returned it. -/
theorem poppedValues_le (reached : Reaches lifo [] history order values statuses) :
    poppedValues history ≤ pushedValues history := by
  obtain ⟨waiting, invoked, _⟩ := reached.performed_le
  obtain ⟨pending, responded, _⟩ := reached.responded_le
  have pops := congrArg (Multiset.filterMap fun reply : ι × Reply T => reply.2.value) responded
  rw [← Multiset.map_coe, Multiset.filterMap_map, Multiset.filterMap_add] at pops
  calc poppedValues history
    _ ≤ poppedValues history + Multiset.filterMap (fun reply => reply.2.value) pending := Multiset.le_add_right _ _
    _ = Multiset.filterMap (fun step => step.2.2.value) (order : Multiset (ι × Operation T × Reply T)) := pops.symm
    _ ≤ Multiset.filterMap (fun step => step.2.1.value) (order : Multiset (ι × Operation T × Reply T)) := by
      rw [lifo_balance reached]
      exact Multiset.le_add_right _ _
    _ ≤ pushedValues history := by
      rw [pushedValues, invoked, ← Multiset.map_coe, Multiset.filterMap_add, Multiset.filterMap_map]
      exact Multiset.le_add_right _ _

end

end Dsac.LockFreeStack

import Dsac.Fault
import Dsac.Library.SearchTree

namespace Dsac.Graph

open Dsac.Library

/-! `possible_actions`, the node from which a search discovered each node. -/

variable {A : Type} [DecidableEq A]

abbrev PossibleActions (A : Type) := AList (fun _ : A => A)

/-- The loop that follows the recorded nodes back from the front of the path; the fuel bounds the
length of the path. -/
def followBack (possibleActions : PossibleActions A) (start : A) : Nat → List A → Outcome (List A)
  | 0, _ => .error .fuel
  | _, [] => .error .outOfRange
  | fuel + 1, latest :: path =>
      if latest = start then .ok (latest :: path)
      else match possibleActions.lookup latest with
        | none => .ok (latest :: path)
        | some previous => followBack possibleActions start fuel (previous :: latest :: path)

variable {possibleActions : PossibleActions A} {start node : A}

theorem followBack_of_tracked {path : List A}
    (tracked : Tracked (fun node => possibleActions.lookup node) start node path) (rest : List A) {fuel : Nat}
    (enough : path.length ≤ fuel) : followBack possibleActions start fuel (node :: rest) = .ok (path ++ rest) := by
  induction tracked generalizing rest fuel with
  | start =>
      obtain ⟨fuel, rfl⟩ := Nat.exists_eq_add_of_le' enough
      exact if_pos rfl
  | @step node previous path other parent before inductionHypothesis =>
      rw [List.length_append, List.length_singleton] at enough
      obtain ⟨fuel, rfl⟩ : ∃ less, fuel = less + 1 := ⟨fuel - 1, by omega⟩
      rw [followBack, if_neg other]
      simp only [parent]
      rw [inductionHypothesis (node :: rest) (by omega), List.append_assoc]
      rfl

/-- A node that was not discovered is where the walk back ends. -/
theorem followBack_of_unknown (other : node ≠ start) (unknown : possibleActions.lookup node = none)
    (rest : List A) (fuel : Nat) : followBack possibleActions start (fuel + 1) (node :: rest) = .ok (node :: rest) := by
  rw [followBack, if_neg other]
  simp only [unknown]

/-- A bound that suffices for the walk back may be any larger one. -/
theorem followBack_more {fuel : Nat} {path result : List A} (ran : followBack possibleActions start fuel path = .ok result) {more : Nat}
    (enough : fuel ≤ more) : followBack possibleActions start more path = .ok result := by
  induction fuel generalizing path more with
  | zero => cases ran
  | succ fuel inductionHypothesis =>
      obtain ⟨more, rfl⟩ := Nat.exists_eq_add_of_le' (Nat.le_trans (Nat.succ_le_succ (Nat.zero_le fuel)) enough)
      cases path with
      | nil => cases ran
      | cons latest path =>
          rw [followBack] at ran ⊢
          split_ifs at ran ⊢ with arrived
          · exact ran
          · cases previous : possibleActions.lookup latest with
            | none => simpa only [previous] using ran
            | some node =>
                simp only [previous] at ran ⊢
                exact inductionHypothesis ran (by omega)

/-- The new successors of a node are recorded with it. -/
theorem foldl_insert_lookup (list : List A) (considered node : A) (possibleActions : PossibleActions A) :
    (list.foldl (fun actions successor => actions.insert successor considered) possibleActions).lookup node =
      if node ∈ list then some considered else possibleActions.lookup node := by
  induction list generalizing possibleActions with
  | nil => rfl
  | cons first rest inductionHypothesis =>
      rw [List.foldl_cons, inductionHypothesis]
      by_cases same : node = first
      · subst same
        simp [AList.lookup_insert]
      · simp [same, AList.lookup_insert_ne same]

theorem singleton_lookup (other : node ≠ start) :
    (AList.singleton start start : PossibleActions A).lookup node = none := by
  rw [← AList.insert_empty, AList.lookup_insert_ne other, AList.lookup_empty]

end Dsac.Graph

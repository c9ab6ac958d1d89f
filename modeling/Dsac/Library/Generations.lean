import Mathlib

namespace Dsac.Library

/-! The nodes of finite trees in the order in which a queue serves them, when each node that is served
puts its children at the end. -/

variable {N : Type u} (children : N → List N)

/-- The nodes, then their children, and so on for a number of generations. -/
def generations : Nat → List N → List N
  | 0, _ => []
  | depth + 1, nodes => nodes ++ generations depth (nodes.flatMap children)

/-- The first nodes that the queue serves. -/
def serve : Nat → List N → List N
  | 0, _ => []
  | _ + 1, [] => []
  | fuel + 1, node :: queue => node :: serve fuel (queue ++ children node)

variable {children} {queue later : List N} {fuel depth more : Nat}

theorem serve_nil : serve children fuel [] = [] := by
  cases fuel with
  | zero => rfl
  | succ fuel => rfl

theorem generations_nil : generations children depth [] = [] := by
  induction depth with
  | zero => rfl
  | succ depth inductionHypothesis => exact inductionHypothesis

/-- The queue serves all that wait before the children of the first of them. -/
theorem serve_append : serve children (queue.length + fuel) (queue ++ later) =
    queue ++ serve children fuel (later ++ queue.flatMap children) := by
  induction queue generalizing later with
  | nil => simp
  | cons node queue inductionHypothesis =>
      have step : (node :: queue).length + fuel = (queue.length + fuel) + 1 := by
        rw [List.length_cons]
        omega
      rw [step, List.cons_append, serve, List.append_assoc, inductionHypothesis, List.flatMap_cons, List.append_assoc,
        List.cons_append]

section

variable {nodes : N → List N} (unfold : ∀ node, nodes node = node :: (children node).flatMap nodes)
include unfold

theorem length_flatMap_nodes : (queue.flatMap nodes).length = queue.length + ((queue.flatMap children).flatMap nodes).length := by
  induction queue with
  | nil => rfl
  | cons node queue inductionHypothesis =>
      rw [List.flatMap_cons, List.length_append, inductionHypothesis, unfold, List.flatMap_cons, List.flatMap_append,
        List.length_append, List.length_cons, List.length_cons]
      omega

/-- The queue serves each node of the trees once. -/
theorem serve_perm (enough : (queue.flatMap nodes).length ≤ fuel) :
    (serve children fuel queue).Perm (queue.flatMap nodes) := by
  induction fuel generalizing queue with
  | zero =>
      have empty := List.eq_nil_of_length_eq_zero (Nat.le_zero.mp enough)
      rw [empty, serve]
  | succ fuel inductionHypothesis =>
      cases queue with
      | nil => exact List.Perm.refl []
      | cons node queue =>
          rw [List.flatMap_cons, unfold, List.cons_append] at enough ⊢
          refine List.Perm.cons node ((inductionHypothesis ?_).trans ?_)
          · rw [List.flatMap_append, List.length_append]
            rw [List.length_cons, List.length_append] at enough
            omega
          · rw [List.flatMap_append]
            exact List.perm_append_comm

/-- The nodes that are served are those that wait and the children of those that are served. -/
theorem serve_perm_children (enough : (queue.flatMap nodes).length ≤ fuel) :
    (serve children fuel queue).Perm (queue ++ (serve children fuel queue).flatMap children) := by
  induction fuel generalizing queue with
  | zero =>
      have empty : queue = [] := by
        rw [length_flatMap_nodes unfold] at enough
        exact List.eq_nil_of_length_eq_zero (by omega)
      subst empty
      exact List.Perm.refl []
  | succ fuel inductionHypothesis =>
      cases queue with
      | nil => exact List.Perm.refl []
      | cons node queue =>
          have fewer : ((queue ++ children node).flatMap nodes).length ≤ fuel := by
            rw [List.flatMap_cons, unfold, List.cons_append, List.length_cons, List.length_append] at enough
            rw [List.flatMap_append, List.length_append]
            omega
          rw [serve, List.cons_append, List.flatMap_cons, ← List.append_assoc]
          exact (inductionHypothesis fewer).cons node

/-- All that wait are served first. -/
theorem serve_split (enough : (queue.flatMap nodes).length ≤ fuel) :
    ∃ less, fuel = queue.length + less ∧ ((queue.flatMap children).flatMap nodes).length ≤ less ∧
      serve children fuel queue = queue ++ serve children less (queue.flatMap children) := by
  rw [length_flatMap_nodes unfold] at enough
  obtain ⟨less, rfl⟩ := Nat.exists_eq_add_of_le (by omega : queue.length ≤ fuel)
  refine ⟨less, rfl, by omega, ?_⟩
  have step : serve children (queue.length + less) (queue ++ []) = _ := serve_append
  rwa [List.append_nil, List.nil_append] at step

/-- A queue serves generation after generation. -/
theorem serve_eq_generations (enough : (queue.flatMap nodes).length ≤ fuel) (deep : (queue.flatMap nodes).length ≤ depth) :
    serve children fuel queue = generations children depth queue := by
  induction depth generalizing fuel queue with
  | zero =>
      rw [length_flatMap_nodes unfold] at deep
      have empty : queue = [] := List.eq_nil_of_length_eq_zero (by omega)
      rw [empty, serve_nil, generations_nil]
  | succ depth inductionHypothesis =>
      by_cases empty : queue = []
      · rw [empty, serve_nil, generations_nil]
      · obtain ⟨less, rfl, lessEnough, split⟩ := serve_split unfold enough
        have waiting := List.length_pos_of_ne_nil empty
        rw [length_flatMap_nodes unfold] at deep
        rw [split, generations, inductionHypothesis lessEnough (by omega)]

end

end Dsac.Library

import Dsac.Container.Graph.DepthFirstSearch.ShortestPath

namespace Dsac.Graph.Dfs

open Dsac.Library Dsac.Graph.Digraph

/-! What the depth-first searches leave of the graph, and that they depend on its edges only. -/

variable {target : Node}

theorem foldl_considerSuccessor_graph (list : List Node) (state : State) :
    (list.foldl considerSuccessor state).graph = state.graph := by
  rw [foldl_considerSuccessor]

theorem search_extends {fuel : Nat} {state last : State} {found : Bool}
    (ran : search target fuel state = .ok (found, last)) : state.graph.Extends last.graph := by
  induction fuel generalizing state with
  | zero => cases ran
  | succ fuel inductionHypothesis =>
      rw [search] at ran
      cases shape : state.processing with
      | nil =>
          simp only [shape, Except.ok.injEq, Prod.mk.injEq] at ran
          exact ran.2 ▸ .refl _
      | cons considered processing =>
          simp only [shape] at ran
          split_ifs at ran with reached
          · cases ran
            exact .refl _
          · have later := inductionHypothesis ran
            rw [foldl_considerSuccessor_graph] at later
            exact (extends_getSuccessors _ considered).trans later

theorem trace_extends {fuel : Nat} {state last : TracedState} (ran : trace target fuel state = .ok last) :
    state.graph.Extends last.graph := by
  induction fuel generalizing state with
  | zero => cases ran
  | succ fuel inductionHypothesis =>
      rw [trace] at ran
      cases shape : state.processing with
      | nil =>
          simp only [shape, Except.ok.injEq] at ran
          exact ran ▸ .refl _
      | cons considered processing =>
          simp only [shape] at ran
          split_ifs at ran with reached
          · cases ran
            exact .refl _
          · have later := inductionHypothesis ran
            rw [foldl_recordSuccessor] at later
            exact (extends_getSuccessors _ considered).trans later

theorem isPathExist_extends {graph : Digraph} {start : Node} {result : Bool × Digraph}
    (ran : isPathExist graph start target = .ok result) : graph.Extends result.2 := by
  obtain ⟨⟨found, last⟩, searched, returned⟩ := Outcome.of_bind ran
  cases returned
  exact search_extends searched

theorem shortestPath_extends {graph : Digraph} {start : Node} {result : List Node × Digraph}
    (ran : shortestPath graph start target = .ok result) : graph.Extends result.2 := by
  obtain ⟨last, searched, walked⟩ := Outcome.of_bind ran
  obtain ⟨path, _, returned⟩ := Outcome.of_bind walked
  cases returned
  exact trace_extends searched

theorem trace_more {fuel more : Nat} {state last : TracedState} (ran : trace target fuel state = .ok last)
    (enough : fuel ≤ more) : trace target more state = .ok last := by
  induction fuel generalizing state more with
  | zero => cases ran
  | succ fuel inductionHypothesis =>
      obtain ⟨more, rfl⟩ := Nat.exists_eq_add_of_le' (Nat.le_trans (Nat.succ_le_succ (Nat.zero_le fuel)) enough)
      rw [trace] at ran ⊢
      cases shape : state.processing with
      | nil => simpa only [shape] using ran
      | cons considered processing =>
          simp only [shape] at ran ⊢
          split_ifs at ran ⊢ with reached
          · exact ran
          · exact inductionHypothesis ran (by omega)

/-- The trace depends on the edges only. -/
theorem trace_congr {fuel : Nat} {state last : TracedState} {other : Digraph}
    (same : ∀ node, other.successors node = state.graph.successors node) (ran : trace target fuel state = .ok last) :
    ∃ graph, trace target fuel { state with graph := other } = .ok { last with graph } := by
  induction fuel generalizing state other with
  | zero => cases ran
  | succ fuel inductionHypothesis =>
      rw [trace] at ran ⊢
      cases shape : state.processing with
      | nil =>
          simp only [shape, Except.ok.injEq] at ran ⊢
          exact ⟨other, by rw [← ran, shape]⟩
      | cons considered processing =>
          simp only [shape] at ran ⊢
          split_ifs at ran ⊢ with reached
          · cases ran
            exact ⟨other, by rw [shape]⟩
          · have list : (other.getSuccessors considered).1 = (state.graph.getSuccessors considered).1 := by
              rw [getSuccessors_fst, getSuccessors_fst, same]
            rw [foldl_recordSuccessor] at ran
            have edges : ∀ node, (other.getSuccessors considered).2.successors node =
                (state.graph.getSuccessors considered).2.successors node := fun node => by
              rw [successors_getSuccessors, same, successors_getSuccessors]
            obtain ⟨graph, ran⟩ := inductionHypothesis edges ran
            refine ⟨graph, ?_⟩
            rw [list, foldl_recordSuccessor]
            exact ran

theorem answer_isPathExist {graph larger : Digraph} (extended : graph.Extends larger) (start : Node) :
    (isPathExist larger start target).map Prod.fst = (isPathExist graph start target).map Prod.fst := by
  obtain ⟨found, after, ran, _, exact⟩ := isPathExist_iff graph start target
  obtain ⟨foundLater, afterLater, ranLater, _, exactLater⟩ := isPathExist_iff larger start target
  have edges : larger.successors = graph.successors := funext extended.successors
  have same : foundLater = found := Bool.eq_iff_iff.mpr (exactLater.trans (edges ▸ exact.symm))
  rw [ran, ranLater, same]
  rfl

theorem answer_shortestPath {graph larger : Digraph} (extended : graph.Extends larger) (start : Node) :
    (shortestPath larger start target).map Prod.fst = (shortestPath graph start target).map Prod.fst := by
  obtain ⟨path, after, ran, _⟩ := shortestPath_spec graph start target
  obtain ⟨pathLater, afterLater, ranLater, _⟩ := shortestPath_spec larger start target
  rw [ran, ranLater]
  obtain ⟨last, searched, walked⟩ := Outcome.of_bind ran
  obtain ⟨lastLater, searchedLater, walkedLater⟩ := Outcome.of_bind ranLater
  obtain ⟨walk, followed, returned⟩ := Outcome.of_bind walked
  obtain ⟨walkLater, followedLater, returnedLater⟩ := Outcome.of_bind walkedLater
  -- both loops end within the larger of their bounds
  obtain ⟨other, congruent⟩ := trace_congr (extended.successors : ∀ node, larger.successors node = (traced graph start).graph.successors node)
    (trace_more searched (Nat.le_max_left _ larger.searchBound))
  have sameLast : lastLater = { last with graph := other } := Except.ok.inj
    ((trace_more searchedLater (Nat.le_max_right graph.searchBound _)).symm.trans congruent)
  subst sameLast
  have sameWalk : walkLater = walk := Except.ok.inj
    ((followBack_more followedLater (Nat.le_max_right graph.searchBound _)).symm.trans
      (followBack_more followed (Nat.le_max_left _ larger.searchBound)))
  subst sameWalk
  cases returned
  cases returnedLater
  rfl

end Dsac.Graph.Dfs

import Dsac.Container.Graph.DirectedGraph

namespace Dsac.Graph

open Dsac.Library Dsac.Graph.Digraph

/-! `dsac::legacy_graph::dfs::IsPathExist`. -/

namespace Dfs

structure State where
  graph : Digraph
  processing : List Node
  visited : Finset Node

/-- The body of the loop over the successors. -/
def considerSuccessor (state : State) (successor : Node) : State :=
  if successor ∈ state.visited then state
  else { state with
    processing := successor :: state.processing
    visited := insert successor state.visited }

/-- The loop of `IsPathExist`; the fuel bounds the number of its iterations. -/
def search (target : Node) : Nat → State → Outcome (Bool × State)
  | 0, _ => .error .fuel
  | fuel + 1, state =>
      match state.processing with
      | [] => .ok (false, state)
      | considered :: processing =>
          if considered = target then .ok (true, state)
          else
            let (successors, graph) := state.graph.getSuccessors considered
            search target fuel (successors.foldl considerSuccessor { state with graph, processing })

def isPathExist (graph : Digraph) (start target : Node) : Outcome (Bool × Digraph) := do
  let (found, state) ← search target graph.searchBound
    { graph, processing := [start], visited := {start} }
  return (found, state.graph)

/-- The loop keeps the graph and is a search with every node admitted. -/
structure Searching (graph : Digraph) (start target : Node) (state : State) : Prop where
  sameGraph : ∀ node, state.graph.successors node = graph.successors node
  frontier : Frontier graph.successors (fun _ => True) start target state.visited state.processing

theorem foldl_considerSuccessor (list : List Node) (state : State) :
    list.foldl considerSuccessor state =
      { state with
        processing := (discovered state.visited list).reverse ++ state.processing
        visited := state.visited ∪ list.toFinset } := by
  induction list generalizing state with
  | nil => simp [discovered]
  | cons successor rest ih =>
      rw [List.foldl_cons, ih, considerSuccessor, discovered]
      split_ifs with old
      · have absorbed : state.visited ∪ (successor :: rest).toFinset = state.visited ∪ rest.toFinset := by
          rw [List.toFinset_cons, Finset.union_insert, Finset.insert_eq_of_mem (Finset.mem_union_left _ old)]
        rw [absorbed]
      · simp [Finset.insert_union, Finset.union_insert]

theorem Searching.search_found {graph : Digraph} {start target : Node} {state : State}
    (searching : Searching graph start target state) {fuel : Nat}
    (enough : Frontier.remaining (graph.nodesFrom start) state.visited state.processing < fuel) :
    ∃ found last, search target fuel state = .ok (found, last) ∧
      (∀ node, last.graph.successors node = graph.successors node) ∧
      (found = true ↔ Reachable graph.successors start target) := by
  induction fuel generalizing state with
  | zero => omega
  | succ fuel ih =>
      rw [search]
      cases shape : state.processing with
      | nil =>
          have frontier := searching.frontier
          rw [shape] at frontier
          refine ⟨false, state, rfl, searching.sameGraph, ⟨nofun, fun reachable => ?_⟩⟩
          exact absurd trivial (frontier.not_admitted_of_exhausted (fun _ no => absurd trivial no) reachable)
      | cons considered processing =>
          have frontier := searching.frontier
          rw [shape, ← Multiset.cons_coe] at frontier
          by_cases reached : considered = target
          · subst reached
            refine ⟨true, state, if_pos rfl, searching.sameGraph, ⟨fun _ => ?_, fun _ => rfl⟩⟩
            exact frontier.sound considered
              (frontier.pendingVisited considered (Multiset.mem_cons_self ..))
          · have sameSuccessors : (state.graph.getSuccessors considered).1 = graph.successors considered := by
              rw [getSuccessors_fst, searching.sameGraph]
            have pending : (processing : Multiset Node) +
                ((discovered state.visited (graph.successors considered)).filter (fun _ => True) : List Node) =
                ((discovered state.visited (graph.successors considered)).reverse ++ processing : List Node) := by
              rw [List.filter_eq_self.mpr (fun _ _ => decide_eq_true trivial), Multiset.coe_add]
              exact Multiset.coe_eq_coe.mpr
                (List.perm_append_comm.trans ((List.reverse_perm _).symm.append_right _))
            have expanded := frontier.expand reached
            have fewer := frontier.remaining_expand (graph.nodesFrom_universe start)
            rw [pending] at expanded fewer
            simp only [if_neg reached, foldl_considerSuccessor, sameSuccessors]
            rw [shape, ← Multiset.cons_coe] at enough
            refine ih ⟨?_, expanded⟩ (by simp only; omega)
            intro node
            rw [successors_getSuccessors, searching.sameGraph]

/-- The search returns whether the target can be reached. -/
theorem isPathExist_iff (graph : Digraph) (start target : Node) :
    ∃ found after, isPathExist graph start target = .ok (found, after) ∧
      (∀ node, after.successors node = graph.successors node) ∧
      (found = true ↔ Reachable graph.successors start target) := by
  have initial : Searching graph start target { graph, processing := [start], visited := {start} } :=
    ⟨fun _ => rfl, .initial trivial⟩
  obtain ⟨found, last, ran, sameGraph, exact⟩ := initial.search_found (graph.remaining_lt_searchBound start)
  exact ⟨found, last.graph, by simp only [isPathExist, ran, bind, Except.bind, pure, Except.pure], sameGraph,
    exact⟩

end Dfs

end Dsac.Graph

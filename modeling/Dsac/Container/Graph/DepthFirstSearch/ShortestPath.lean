import Dsac.Container.Graph.DepthFirstSearch
import Dsac.Container.Graph.PossibleActions

namespace Dsac.Graph.Dfs

open Dsac.Library Dsac.Graph.Digraph

/-! `dsac::legacy_graph::dfs::ShortestPath`. -/

structure TracedState extends State where
  possibleActions : PossibleActions Node

/-- The body of the loop over the successors. -/
def recordSuccessor (considered : Node) (state : TracedState) (successor : Node) : TracedState :=
  if successor ∈ state.visited then state else
    { state with
      visited := insert successor state.visited
      possibleActions := state.possibleActions.insert successor considered
      processing := successor :: state.processing }

/-- The loop of `ShortestPath`; the fuel bounds the number of its iterations. -/
def trace (target : Node) : Nat → TracedState → Outcome TracedState
  | 0, _ => .error .fuel
  | fuel + 1, state =>
      match state.processing with
      | [] => .ok state
      | considered :: processing =>
          if considered = target then .ok state
          else
            let (successors, graph) := state.graph.getSuccessors considered
            trace target fuel (successors.foldl (recordSuccessor considered) { state with graph, processing })

def traced (graph : Digraph) (start : Node) : TracedState where
  graph := graph
  processing := [start]
  visited := {start}
  possibleActions := AList.singleton start start

def shortestPath (graph : Digraph) (start target : Node) : Outcome (List Node × Digraph) := do
  let state ← trace target graph.searchBound (traced graph start)
  let path ← followBack state.possibleActions start graph.searchBound [target]
  return (if path.head? = some start then path else [], state.graph)

theorem foldl_recordSuccessor (considered : Node) (list : List Node) (state : TracedState) :
    list.foldl (recordSuccessor considered) state =
      { state with
        processing := (discovered state.visited list).reverse ++ state.processing
        visited := state.visited ∪ list.toFinset
        possibleActions := (discovered state.visited list).foldl
          (fun actions successor => actions.insert successor considered) state.possibleActions } := by
  induction list generalizing state with
  | nil => simp [discovered]
  | cons successor rest inductionHypothesis =>
      rw [List.foldl_cons, inductionHypothesis, recordSuccessor, discovered]
      split_ifs with old
      · have absorbed : state.visited ∪ (successor :: rest).toFinset = state.visited ∪ rest.toFinset := by
          rw [List.toFinset_cons, Finset.union_insert, Finset.insert_eq_of_mem (Finset.mem_union_left _ old)]
        rw [absorbed]
      · simp [Finset.insert_union, Finset.union_insert]

/-- A search that has recorded how it discovered the visited nodes. -/
structure Tracing (graph : Digraph) (start target : Node) (state : TracedState) (depth : Node → Nat) : Prop where
  searching : Searching graph start target state.toState
  tree : SearchTree graph.successors start state.visited (fun node => state.possibleActions.lookup node) depth

variable {graph : Digraph} {start target : Node} {state : TracedState} {depth : Node → Nat}

theorem initial_tracing (graph : Digraph) (start target : Node) :
    Tracing graph start target (traced graph start) fun _ => 0 where
  searching := ⟨fun _ => rfl, .initial trivial⟩
  tree := .single fun _ other => singleton_lookup other

/-- The loop ends on the target, or with nothing pending. -/
theorem Tracing.trace_ends (tracing : Tracing graph start target state depth) {fuel : Nat}
    (enough : Frontier.remaining (graph.nodesFrom start) state.visited state.processing < fuel) :
    ∃ last depth, trace target fuel state = .ok last ∧ Tracing graph start target last depth ∧
      ((∃ rest, last.processing = target :: rest) ∨ last.processing = []) := by
  induction fuel generalizing state depth with
  | zero => omega
  | succ fuel inductionHypothesis =>
      obtain ⟨⟨sameGraph, frontier⟩, tree⟩ := tracing
      rw [trace]
      cases shape : state.processing with
      | nil => exact ⟨state, depth, rfl, ⟨⟨sameGraph, frontier⟩, tree⟩, Or.inr shape⟩
      | cons considered processing =>
          by_cases reached : considered = target
          · subst reached
            exact ⟨state, depth, if_pos rfl, ⟨⟨sameGraph, frontier⟩, tree⟩, Or.inl ⟨processing, shape⟩⟩
          · rw [shape, ← Multiset.cons_coe] at frontier enough
            have known := frontier.pendingVisited considered (Multiset.mem_cons_self ..)
            have successors : (state.graph.getSuccessors considered).1 = graph.successors considered := by
              rw [getSuccessors_fst, sameGraph]
            have pending : (processing : Multiset Node) +
                ((discovered state.visited (graph.successors considered)).filter (fun _ => True) : List Node) =
                ((discovered state.visited (graph.successors considered)).reverse ++ processing : List Node) := by
              rw [List.filter_eq_self.mpr (fun _ _ => decide_eq_true trivial), Multiset.coe_add]
              exact Multiset.coe_eq_coe.mpr
                (List.perm_append_comm.trans ((List.reverse_perm _).symm.append_right _))
            have expanded := frontier.expand reached
            have fewer := frontier.remaining_expand (graph.nodesFrom_universe start)
            rw [pending] at expanded fewer
            simp only [if_neg reached, foldl_recordSuccessor, successors]
            refine inductionHypothesis
              ⟨⟨?_, expanded⟩, tree.expand known fun node => foldl_insert_lookup _ considered node _⟩
              (by simp only; omega)
            intro node
            rw [successors_getSuccessors, sameGraph]

theorem length_le_searchBound (tracing : Tracing graph start target state depth) {path : List Node}
    (nodup : path.Nodup) (visited : ∀ node ∈ path, node ∈ state.visited) : path.length ≤ graph.searchBound := by
  have inside : path.toFinset ⊆ graph.nodesFrom start := fun node member =>
    tracing.searching.frontier.subset_universe (graph.nodesFrom_universe start)
      (visited node (List.mem_toFinset.mp member))
  have few := Finset.card_le_card inside
  rw [List.toFinset_card_of_nodup nodup] at few
  have bound : (graph.nodesFrom start).card ≤ (graph.graph.keys.flatMap graph.successors).length + 1 :=
    (Finset.card_insert_le _ _).trans (Nat.succ_le_succ (List.toFinset_card_le _))
  rw [searchBound]
  omega

/-- The walk back from the target gives a path that repeats no node, or none if the target cannot be
reached. -/
theorem shortestPath_spec (graph : Digraph) (start target : Node) :
    ∃ path after, shortestPath graph start target = .ok (path, after) ∧
      (path = [] ↔ ¬ Reachable graph.successors start target) ∧
      (path ≠ [] → IsPath graph.successors start target path ∧ path.Nodup) := by
  obtain ⟨last, depth, ran, tracing, ⟨rest, shape⟩ | nothing⟩ :=
    (initial_tracing graph start target).trace_ends (graph.remaining_lt_searchBound start)
  · have frontier := tracing.searching.frontier
    rw [shape, ← Multiset.cons_coe] at frontier
    obtain ⟨path, tracked, isPath, nodup, length, members⟩ :=
      tracing.tree.path (frontier.pendingVisited target (Multiset.mem_cons_self ..))
    have followed := followBack_of_tracked tracked []
      (length_le_searchBound tracing nodup fun node member => (members node member).1)
    rw [List.append_nil] at followed
    have present : path ≠ [] := fun empty => by
      rw [empty] at length
      cases length
    refine ⟨path, last.graph, ?_, ⟨fun empty => absurd empty present,
      fun unreachable => absurd isPath.reachable unreachable⟩, fun _ => ⟨isPath, nodup⟩⟩
    simp only [shortestPath, ran, Outcome.ok_bind, followed, isPath.first, if_true]
    rfl
  · have frontier := tracing.searching.frontier
    rw [nothing] at frontier
    have unreachable : ¬ Reachable graph.successors start target := fun reachable =>
      frontier.not_admitted_of_exhausted (fun _ rejected => absurd trivial rejected) reachable trivial
    have other : target ≠ start := fun same => unreachable (same ▸ .refl)
    have unknown := tracing.tree.unvisited target fun visited => unreachable (frontier.sound target visited)
    have followed : followBack last.possibleActions start graph.searchBound [target] = .ok [target] :=
      followBack_of_unknown other unknown [] _
    refine ⟨[], last.graph, ?_, ⟨fun _ => unreachable, fun _ => rfl⟩, fun present => absurd rfl present⟩
    simp only [shortestPath, ran, Outcome.ok_bind, followed, List.head?_cons, Option.some.injEq, other, if_false]
    rfl

/-- **The depth-first searches are exact.** In any graph `IsPathExist` tells whether the target can be
reached, and `ShortestPath` returns the empty path if not and else a path that repeats no node. -/
theorem searches_exact (graph : Digraph) (start target : Node) :
    (∃ found after, isPathExist graph start target = .ok (found, after) ∧
      (found = true ↔ Reachable graph.successors start target)) ∧
    ∃ path after, shortestPath graph start target = .ok (path, after) ∧
      (path = [] ↔ ¬ Reachable graph.successors start target) ∧
      (path ≠ [] → IsPath graph.successors start target path ∧ path.Nodup) := by
  obtain ⟨found, after, ran, _, exact⟩ := isPathExist_iff graph start target
  exact ⟨⟨found, after, ran, exact⟩, shortestPath_spec graph start target⟩

end Dsac.Graph.Dfs

import Dsac.Container.Graph.DepthFirstSearch
import Dsac.Container.Graph.DijkstraSearch.Searching

namespace Dsac.Graph.Dijkstra

open Dsac.Library Dsac.Graph.Digraph

/-! `dijkstra::IsPathExist` never enqueues a node without an entry in the adjacency map. -/

variable {queue : Processing} {graph : Digraph} {start target : Node}

/-- The search finds the reachable nodes that have an entry. -/
theorem isPathExist_iff (queue : Processing) (small : (graph.graph.keys.length : Int) < maxDistance)
    (start target : Node) :
    ∃ found after, isPathExist queue graph start target = .ok (found, after) ∧
      (∀ node, after.successors node = graph.successors node) ∧
      (found = true ↔ Reachable graph.successors start target ∧ Admitted graph start target) := by
  obtain ⟨found, last, ran, searching, _, ends⟩ :=
    (initial_searching queue graph start target ()).search_ends small (fun _ => True) trivial
      (fun _ _ _ _ _ _ _ (_ : Considered (fun _ _ _ => ()) _ _ _ _ _ _) => trivial)
      (initial_remaining queue graph start ())
  refine ⟨found, last.graph, ?_, searching.sameGraph, ?_⟩
  · simp only [isPathExist, ran, bind, Except.bind, pure, Except.pure]
  · rcases ends with ⟨rfl, top, isTop, rfl⟩ | ⟨rfl, nothing⟩
    · have member := Multiset.mem_map_of_mem ComparedNode.node (queue.top_mem _ _ isTop)
      exact ⟨fun _ => ⟨searching.frontier.sound _ (searching.frontier.pendingVisited _ member),
        searching.frontier.pendingAdmitted _ member⟩, fun _ => rfl⟩
    · have frontier := searching.frontier
      rw [nothing, Multiset.map_zero] at frontier
      refine ⟨nofun, fun both => ?_⟩
      exact absurd both.2 (frontier.not_admitted_of_exhausted (not_admitted_deadEnd graph start) both.1)

/-- `IsPathExist` answers reachability, as the depth-first search does, exactly if the
target is the first node, has an entry of its own or cannot be reached. -/
theorem isPathExist_agrees_iff (queue : Processing) (edges : List (Node × Node))
    (small : ((ofEdges edges).graph.keys.length : Int) < maxDistance) (start target : Node) :
    (∃ found after afterDfs, isPathExist queue (ofEdges edges) start target = .ok (found, after) ∧
      (found = true ↔ Reachable (ofEdges edges).successors start target) ∧
      Dfs.isPathExist (ofEdges edges) start target = .ok (found, afterDfs)) ↔
    target = start ∨ (ofEdges edges).HasEntry target ∨
      ¬ Reachable (ofEdges edges).successors start target := by
  obtain ⟨found, after, ran, _, exact⟩ := isPathExist_iff queue small start target
  obtain ⟨foundDfs, afterDfs, ranDfs, _, exactDfs⟩ := Dfs.isPathExist_iff (ofEdges edges) start target
  constructor
  · rintro ⟨other, otherAfter, _, otherRan, correct, _⟩
    obtain ⟨rfl, rfl⟩ := Prod.mk.inj (Except.ok.inj (ran.symm.trans otherRan))
    by_cases reachable : Reachable (ofEdges edges).successors start target
    · exact (exact.mp (correct.mpr reachable)).2.imp_right Or.inl
    · exact Or.inr (Or.inr reachable)
  · intro condition
    have correct : found = true ↔ Reachable (ofEdges edges).successors start target := by
      rw [exact, and_iff_left_iff_imp]
      intro reachable
      exact condition.imp_right fun rest => rest.resolve_right fun unreachable => unreachable reachable
    have same : found = foundDfs := Bool.eq_iff_iff.mpr (correct.trans exactDfs.symm)
    exact ⟨found, after, afterDfs, ran, correct, same ▸ ranDfs⟩

/-- A cycle through both nodes, which gives the target an entry. -/
theorem isPathExist_agrees_cycle :
    ∃ found after afterDfs,
      isPathExist firstGreatest (ofEdges [(⟨0⟩, ⟨1⟩), (⟨1⟩, ⟨0⟩)]) ⟨0⟩ ⟨1⟩ = .ok (found, after) ∧
      (found = true ↔ Reachable (ofEdges [(⟨0⟩, ⟨1⟩), (⟨1⟩, ⟨0⟩)]).successors ⟨0⟩ ⟨1⟩) ∧
      Dfs.isPathExist (ofEdges [(⟨0⟩, ⟨1⟩), (⟨1⟩, ⟨0⟩)]) ⟨0⟩ ⟨1⟩ = .ok (found, afterDfs) :=
  (isPathExist_agrees_iff firstGreatest [(⟨0⟩, ⟨1⟩), (⟨1⟩, ⟨0⟩)] (by decide +kernel) ⟨0⟩ ⟨1⟩).mpr
    (Or.inr (Or.inl (by decide +kernel)))

/-- The end of a single edge has no entry, so its distance is taken to be zero and it is
never enqueued. -/
theorem isPathExist_misses_end :
    (isPathExist firstGreatest (ofEdges [(⟨0⟩, ⟨1⟩)]) ⟨0⟩ ⟨1⟩).map Prod.fst = .ok false ∧
      (Dfs.isPathExist (ofEdges [(⟨0⟩, ⟨1⟩)]) ⟨0⟩ ⟨1⟩).map Prod.fst = .ok true ∧
      Reachable (ofEdges [(⟨0⟩, ⟨1⟩)]).successors ⟨0⟩ ⟨1⟩ := by
  refine ⟨by decide +kernel, by decide +kernel, .single ?_⟩
  show (⟨1⟩ : Node) ∈ (ofEdges [(⟨0⟩, ⟨1⟩)]).successors ⟨0⟩
  decide +kernel

end Dsac.Graph.Dijkstra

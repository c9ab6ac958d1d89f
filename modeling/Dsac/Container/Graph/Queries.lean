import Dsac.Library.Run
import Dsac.Container.Graph.DepthFirstSearch.Congruence
import Dsac.Container.Graph.DijkstraSearch.Congruence
import Dsac.Container.Graph.DijkstraSearch.PathExist

namespace Dsac.Graph

open Dsac.Library Dsac.Graph.Digraph

/-! Queries of a `Digraph`. Each may add empty entries to the adjacency map that it reads. -/

inductive Query where
  | getSuccessors (node : Node)
  | dfsIsPathExist (start target : Node)
  | dfsShortestPath (start target : Node)
  | dijkstraIsPathExist (start target : Node)
  | dijkstraShortestPath (start target : Node)
deriving DecidableEq, Repr

inductive Answer where
  | successors (list : List Node)
  | isPathExist (found : Bool)
  | shortestPath (path : List Node)
deriving DecidableEq, Repr

namespace Query

variable (queue : Dijkstra.Processing)

/-- The answer, and the graph that the query leaves. -/
def ask (graph : Digraph) : Query → Outcome (Answer × Digraph)
  | .getSuccessors node => .ok ((graph.getSuccessors node).map Answer.successors id)
  | .dfsIsPathExist start target => return (← Dfs.isPathExist graph start target).map .isPathExist id
  | .dfsShortestPath start target => return (← Dfs.shortestPath graph start target).map .shortestPath id
  | .dijkstraIsPathExist start target =>
      return (← Dijkstra.isPathExist queue graph start target).map .isPathExist id
  | .dijkstraShortestPath start target =>
      return (← Dijkstra.shortestPath queue graph start target).map .shortestPath id

def answer (graph : Digraph) (query : Query) : Outcome Answer := (query.ask queue graph).map Prod.fst

def step (graph : Digraph) (query : Query) : Outcome Digraph := (query.ask queue graph).map Prod.snd

/-- No query is answered otherwise after other queries. -/
def HistoryIndependent (graph : Digraph) : Prop :=
  ∀ queries query after, run (step queue) graph queries = .ok after →
    answer queue after query = answer queue graph query

end Query

namespace Query

open Dijkstra (Complete maxDistance)

variable {queue : Dijkstra.Processing} {graph larger next : Digraph}

theorem map_ask {β : Type} (call : Outcome (β × Digraph)) (wrap : β → Answer) :
    ((do return (← call).map wrap id : Outcome (Answer × Digraph)).map Prod.fst) = (call.map Prod.fst).map wrap := by
  cases call <;> rfl

/-- A query adds entries only. -/
theorem step_extends {query : Query} (stepped : step queue graph query = .ok next) : graph.Extends next := by
  obtain ⟨⟨result, left⟩, asked, rfl⟩ : ∃ asked, query.ask queue graph = .ok asked ∧ asked.2 = next := by
    rw [step] at stepped
    cases asked : query.ask queue graph with
    | error fault =>
        rw [asked] at stepped
        cases stepped
    | ok result =>
        rw [asked] at stepped
        exact ⟨result, rfl, Except.ok.inj stepped⟩
  cases query with
  | getSuccessors node =>
      cases asked
      exact extends_getSuccessors graph node
  | dfsIsPathExist start target =>
      obtain ⟨answered, ran, returned⟩ := Outcome.of_bind asked
      cases returned
      exact Dfs.isPathExist_extends ran
  | dfsShortestPath start target =>
      obtain ⟨answered, ran, returned⟩ := Outcome.of_bind asked
      cases returned
      exact Dfs.shortestPath_extends ran
  | dijkstraIsPathExist start target =>
      obtain ⟨answered, ran, returned⟩ := Outcome.of_bind asked
      cases returned
      exact Dijkstra.isPathExist_extends ran
  | dijkstraShortestPath start target =>
      obtain ⟨answered, ran, returned⟩ := Outcome.of_bind asked
      cases returned
      exact Dijkstra.shortestPath_extends ran

theorem run_extends {queries : List Query} (ran : run (step queue) graph queries = .ok next) : graph.Extends next :=
  run_keeps (step queue) graph.Extends (fun _ _ _ extended stepped => extended.trans (step_extends stepped)) ran
    (.refl graph)

/-- Where every edge leads to a node with an entry, the answers depend on the edges only. -/
theorem answer_extends (complete : Complete graph) (extended : graph.Extends larger) (query : Query) :
    query.answer queue larger = query.answer queue graph := by
  cases query with
  | getSuccessors node =>
      show Except.ok (Answer.successors (larger.getSuccessors node).1) = _
      rw [getSuccessors_fst, extended.successors, ← getSuccessors_fst]
      rfl
  | dfsIsPathExist start target =>
      exact (map_ask _ _).trans ((congrArg _ (Dfs.answer_isPathExist extended start)).trans (map_ask _ _).symm)
  | dfsShortestPath start target =>
      exact (map_ask _ _).trans ((congrArg _ (Dfs.answer_shortestPath extended start)).trans (map_ask _ _).symm)
  | dijkstraIsPathExist start target =>
      exact (map_ask _ _).trans ((congrArg _ (Dijkstra.answer_isPathExist complete extended)).trans (map_ask _ _).symm)
  | dijkstraShortestPath start target =>
      exact (map_ask _ _).trans
        ((congrArg _ (Dijkstra.answer_shortestPath complete extended)).trans (map_ask _ _).symm)

/-- Asked for the successors of a node without an entry, the graph answers another search differently. -/
theorem complete_of_historyIndependent (small : (graph.graph.keys.length : Int) + 1 < maxDistance)
    (independent : HistoryIndependent queue graph) : Complete graph := by
  intro source target edge
  by_contra missing
  have present : graph.HasEntry source := by
    by_contra absent
    rw [successors_of_no_entry absent] at edge
    cases edge
  have other : target ≠ source := fun same => missing (same ▸ present)
  have lookup : graph.graph.lookup target = none := AList.lookup_eq_none.mpr missing
  have asked : (graph.getSuccessors target).2.graph = graph.graph.insert target [] := by
    rw [Digraph.getSuccessors, subscript_of_missing lookup]
  have entry : (graph.getSuccessors target).2.HasEntry target := by
    rw [HasEntry, asked]
    exact (AList.mem_insert _).mpr (Or.inl rfl)
  have size : (graph.getSuccessors target).2.graph.keys.length = graph.graph.keys.length + 1 := by
    rw [asked, AList.keys_insert, List.erase_of_not_mem (fun listed => missing (AList.mem_keys.mpr listed)),
      List.length_cons]
  obtain ⟨found, last, ran, _, exact⟩ :=
    Dijkstra.isPathExist_iff queue (by omega : (graph.graph.keys.length : Int) < maxDistance) source target
  obtain ⟨foundLater, lastLater, ranLater, _, exactLater⟩ :=
    Dijkstra.isPathExist_iff queue
      (by omega : ((graph.getSuccessors target).2.graph.keys.length : Int) < maxDistance) source target
  have lost : found = false := by
    rw [← Bool.not_eq_true, exact]
    exact fun both => both.2.elim other missing
  have gained : foundLater = true := by
    refine exactLater.mpr ⟨.single ?_, Or.inr entry⟩
    show target ∈ _
    rw [successors_getSuccessors]
    exact edge
  have same : answer queue (graph.getSuccessors target).2 (.dijkstraIsPathExist source target) = _ :=
    independent [.getSuccessors target] (.dijkstraIsPathExist source target) _ rfl
  rw [answer, answer, ask, ask, ran, ranLater, lost, gained] at same
  cases same

/-- **Queries may change later answers.** If every node that an edge leads to has an adjacency entry,
no answer depends on the queries before it; in a graph whose entries an `int` can count, with one to
spare, only then. -/
theorem historyIndependent_iff (queue : Dijkstra.Processing) (graph : Digraph) :
    (Complete graph → HistoryIndependent queue graph) ∧
      ((graph.graph.keys.length : Int) + 1 < maxDistance → HistoryIndependent queue graph → Complete graph) :=
  ⟨fun complete _ query _ ran => answer_extends complete (run_extends ran) query,
    fun small => complete_of_historyIndependent small⟩

/-- In a cycle both nodes have entries. -/
theorem historyIndependent_cycle :
    HistoryIndependent Dijkstra.firstGreatest (ofEdges [(⟨0⟩, ⟨1⟩), (⟨1⟩, ⟨0⟩)]) :=
  (historyIndependent_iff Dijkstra.firstGreatest _).1 (by decide +kernel)

/-- The end of an edge is found once its successors were asked for. -/
theorem history_changes_answer : ¬ HistoryIndependent Dijkstra.firstGreatest (ofEdges [(⟨0⟩, ⟨1⟩)]) := by
  intro independent
  have same := independent [.getSuccessors ⟨1⟩] (.dijkstraIsPathExist ⟨0⟩ ⟨1⟩) _ rfl
  revert same
  decide +kernel

end Query

end Dsac.Graph

import Dsac.Fault
import Dsac.Library.Search

namespace Dsac.Graph

open Dsac.Library

/-! `dsac::legacy_graph::Digraph`. The order in which an unordered map is traversed is
not relied on anywhere, so maps are association lists. -/

structure Node where
  id : Int
deriving DecidableEq, Repr

/-- `map[key]`, which inserts the default value if the key is missing. -/
def subscript {κ ν : Type} [DecidableEq κ] (map : AList (fun _ : κ => ν)) (key : κ) (default : ν) :
    ν × AList (fun _ : κ => ν) :=
  match map.lookup key with
  | some value => (value, map)
  | none => (default, map.insert key default)

theorem subscript_of_lookup {κ ν : Type} [DecidableEq κ] {map : AList (fun _ : κ => ν)} {key : κ} {value : ν}
    (present : map.lookup key = some value) (default : ν) : subscript map key default = (value, map) := by
  rw [subscript, present]

theorem subscript_of_missing {κ ν : Type} [DecidableEq κ] {map : AList (fun _ : κ => ν)} {key : κ}
    (missing : map.lookup key = none) (default : ν) :
    subscript map key default = (default, map.insert key default) := by
  rw [subscript, missing]

structure Digraph where
  graph : AList (fun _ : Node => List Node) := ∅

namespace Digraph

def addEdge (graph : Digraph) (source target : Node) : Digraph :=
  let (successors, adjacency) := subscript graph.graph source []
  { graph := adjacency.insert source (successors ++ [target]) }

def getSuccessors (graph : Digraph) (node : Node) : List Node × Digraph :=
  let (successors, adjacency) := subscript graph.graph node []
  (successors, { graph := adjacency })

def visit {α : Type} (graph : Digraph) (visitor : α → Node → α) (initial : α) : α :=
  graph.graph.keys.foldl visitor initial

/-- The graph that `AddEdge` calls build. -/
def ofEdges (edges : List (Node × Node)) : Digraph :=
  edges.foldl (fun graph edge => graph.addEdge edge.1 edge.2) {}

/-- The node has an entry in the adjacency map. -/
def HasEntry (graph : Digraph) (node : Node) : Prop := node ∈ graph.graph

instance (graph : Digraph) : DecidablePred graph.HasEntry := fun node =>
  inferInstanceAs (Decidable (node ∈ graph.graph))

/-- The targets of the edges from a node. -/
def successors (graph : Digraph) (node : Node) : List Node := (graph.graph.lookup node).getD []

theorem getSuccessors_fst (graph : Digraph) (node : Node) :
    (graph.getSuccessors node).1 = graph.successors node := by
  rw [getSuccessors, subscript, successors]
  cases graph.graph.lookup node <;> rfl

/-- Reading the successors of a node may add an entry for it but no edge. -/
theorem successors_getSuccessors (graph : Digraph) (node other : Node) :
    (graph.getSuccessors node).2.successors other = graph.successors other := by
  cases found : graph.graph.lookup node with
  | some list => simp only [getSuccessors, subscript_of_lookup found]
  | none =>
      simp only [getSuccessors, subscript_of_missing found, successors]
      by_cases same : other = node
      · subst same
        rw [AList.lookup_insert, found]
        rfl
      · rw [AList.lookup_insert_ne same]

theorem successors_of_no_entry {graph : Digraph} {node : Node} (missing : ¬ graph.HasEntry node) :
    graph.successors node = [] := by
  rw [successors, AList.lookup_eq_none.mpr missing]
  rfl

/-- The nodes that occur in the graph, and the node where a search starts. -/
def nodesFrom (graph : Digraph) (start : Node) : Finset Node :=
  insert start (graph.graph.keys.flatMap graph.successors).toFinset

theorem nodesFrom_universe (graph : Digraph) (start : Node) :
    Universe graph.successors start (graph.nodesFrom start) where
  startInside := Finset.mem_insert_self ..
  closed node _ successor edge := by
    refine Finset.mem_insert_of_mem (List.mem_toFinset.mpr (List.mem_flatMap.mpr ⟨node, ?_, edge⟩))
    by_contra missing
    rw [successors_of_no_entry missing] at edge
    cases edge

/-- More than the number of steps of any search or walk through the graph. -/
def searchBound (graph : Digraph) : Nat :=
  graph.graph.keys.length + (graph.graph.keys.flatMap graph.successors).length + 2

theorem remaining_lt_searchBound (graph : Digraph) (start : Node) :
    Frontier.remaining (graph.nodesFrom start) {start} {start} < graph.searchBound := by
  have others : graph.nodesFrom start \ {start} ⊆ (graph.graph.keys.flatMap graph.successors).toFinset := by
    intro node member
    obtain ⟨inside, notStart⟩ := Finset.mem_sdiff.mp member
    exact (Finset.mem_insert.mp inside).resolve_left fun same => notStart (Finset.mem_singleton.mpr same)
  have fewer := (Finset.card_le_card others).trans (List.toFinset_card_le _)
  rw [Frontier.remaining, Multiset.card_singleton, searchBound]
  omega

/-- The second graph has the edges of the first, and its entries and maybe some empty ones. -/
structure Extends (graph larger : Digraph) : Prop where
  successors : ∀ node, larger.successors node = graph.successors node
  entries : ∀ node, graph.HasEntry node → larger.HasEntry node

variable {graph larger : Digraph}

theorem Extends.refl (graph : Digraph) : graph.Extends graph := ⟨fun _ => rfl, fun _ => id⟩

theorem Extends.trans {third : Digraph} (first : graph.Extends larger) (second : larger.Extends third) :
    graph.Extends third :=
  ⟨fun node => (second.successors node).trans (first.successors node),
    fun node present => second.entries node (first.entries node present)⟩

theorem extends_getSuccessors (graph : Digraph) (node : Node) : graph.Extends (graph.getSuccessors node).2 := by
  refine ⟨successors_getSuccessors graph node, fun other present => ?_⟩
  cases found : graph.graph.lookup node with
  | some list =>
      rw [getSuccessors, subscript_of_lookup found]
      exact present
  | none =>
      rw [getSuccessors, subscript_of_missing found]
      exact (AList.mem_insert _).mpr (Or.inr present)

end Digraph

end Dsac.Graph

import Dsac.Container.Graph.BreadthFirstSearch

namespace Dsac.Graph

open Dsac.Library

/-! The path that `bfs` returns is a shortest one. -/

variable {N E NodeKey EdgeKey : Type} [DecidableEq NodeKey] [DecidableEq EdgeKey] [Semantic N NodeKey]
  [Semantic E EdgeKey] {graph : DirectedGraph N E NodeKey EdgeKey} {keys : List NodeKey}
  {arcs : List (DirectedGraph.Arc NodeKey EdgeKey)}

namespace DirectedGraph

/-- What the calls store: the graph has its nodes and edges at live addresses. -/
theorem step_stores {next : DirectedGraph N E NodeKey EdgeKey} {call : Call N E NodeKey}
    (stored : ∃ keys arcs, Stores graph keys arcs) (stepped : graph.step call = .ok next) :
    ∃ keys arcs, Stores next keys arcs := by
  obtain ⟨keys, arcs, stores⟩ := stored
  cases call with
  | insertNode node =>
      obtain ⟨address, inserted, after, called, stores, _⟩ := stores.insertNode node
      simp only [step, called, Except.ok.injEq] at stepped
      exact ⟨_, _, stepped ▸ stores⟩
  | insertDirectEdge source target edge =>
      cases starts : graph.getNode source with
      | none =>
          cases ends : graph.getNode target with
          | none =>
              simp only [step, starts, ends, Except.ok.injEq] at stepped
              exact ⟨keys, arcs, stepped ▸ stores⟩
          | some last => simp only [step, starts, ends, reduceCtorEq] at stepped
      | some first =>
          cases ends : graph.getNode target with
          | none => simp only [step, starts, ends, reduceCtorEq] at stepped
          | some last =>
              by_cases same : source = target
              · obtain rfl : first = last := Option.some.inj (starts.symm.trans (same ▸ ends))
                simp only [step, starts, ends, DirectedGraph.insertDirectEdge, if_true, Except.ok.injEq] at stepped
                exact ⟨keys, arcs, stepped ▸ stores⟩
              · obtain ⟨result, after, called, stores⟩ := stores.insertDirectEdge
                  ((stores.nodes _ _).mp starts) ((stores.nodes _ _).mp ends) same edge
                simp only [step, starts, ends, called, Except.ok.injEq] at stepped
                exact ⟨_, _, stepped ▸ stores⟩

theorem run_stores {calls : List (Call N E NodeKey)} (built : run step {} calls = .ok graph) :
    ∃ keys arcs, Stores graph keys arcs :=
  run_keeps step _ (fun _ _ _ => step_stores) built ⟨[], [], .empty⟩

/-- The edges of a node are live, and lead to nodes of the graph. -/
theorem Stores.read (stores : Stores graph keys arcs) {address : Addr} (inside : address < keys.length) :
    ∃ node, graph.nodeHeap.get address = some node ∧ ∀ pointer ∈ node.edges,
      ∃ edge, graph.edgeHeap.get pointer = some edge ∧ edge.target < keys.length := by
  obtain ⟨node, _, live⟩ := stores.proxyNode address _ (List.getElem?_eq_getElem inside)
  refine ⟨_, live, fun pointer member => ?_⟩
  obtain ⟨entry, listed, rfl⟩ := List.mem_map.mp member
  obtain ⟨edge, source, target, _, _, found, there⟩ :=
    stores.proxyEdge entry.2 entry.1 (List.mem_zipIdx_iff_getElem?.mp (List.mem_of_mem_filter listed))
  exact ⟨_, there, (List.getElem?_eq_some_iff.mp found).1⟩

theorem Stores.universe (stores : Stores graph keys arcs) {start : Addr} (inside : start < keys.length) :
    Universe graph.neighbours start (Finset.range keys.length) where
  startInside := Finset.mem_range.mpr inside
  closed node member successor edge := by
    obtain ⟨stored, live, edges⟩ := stores.read (Finset.mem_range.mp member)
    rw [neighbours, live] at edge
    obtain ⟨pointer, listed, leads⟩ := List.mem_filterMap.mp edge
    obtain ⟨there, found, within⟩ := edges pointer listed
    rw [found] at leads
    cases leads
    exact Finset.mem_range.mpr within

theorem Stores.length_keys (stores : Stores graph keys arcs) : graph.nodes.keys.length = keys.length := by
  refine List.Perm.length_eq ((List.perm_ext_iff_of_nodup graph.nodes.keys_nodup stores.nodup).mpr fun key => ?_)
  rw [AList.mem_keys.symm, ← AList.lookup_isSome, Option.isSome_iff_exists, List.mem_iff_getElem?]
  exact exists_congr fun address => stores.nodes key address

end DirectedGraph

namespace Bfs

open DirectedGraph

variable {start : Addr} {target : Option Addr} {state : State}

theorem foldl_considerNode (considered : Addr) (list : List Addr) (state : State) :
    list.foldl (considerNode considered) state =
      { processing := state.processing ++ discovered state.visited list
        possibleActions := (discovered state.visited list).foldl
          (fun actions successor => actions.insert successor considered) state.possibleActions
        visited := state.visited ∪ list.toFinset } := by
  induction list generalizing state with
  | nil => simp [discovered]
  | cons successor rest inductionHypothesis =>
      rw [List.foldl_cons, inductionHypothesis, considerNode, discovered]
      split_ifs with old
      · have absorbed : state.visited ∪ (successor :: rest).toFinset = state.visited ∪ rest.toFinset := by
          rw [List.toFinset_cons, Finset.union_insert, Finset.insert_eq_of_mem (Finset.mem_union_left _ old)]
        rw [absorbed]
      · simp [Finset.insert_union, Finset.union_insert]

/-- The loop over the edges considers the nodes that they lead to. -/
theorem foldlM_considerEdge (stores : Stores graph keys arcs) (considered : Addr) {pointers : List Addr}
    (live : ∀ pointer ∈ pointers, ∃ edge, graph.edgeHeap.get pointer = some edge ∧ edge.target < keys.length)
    (state : State) :
    pointers.foldlM (considerEdge graph considered) state =
      .ok ((pointers.filterMap fun pointer => (graph.edgeHeap.get pointer).map ProxyEdge.target).foldl
        (considerNode considered) state) := by
  induction pointers generalizing state with
  | nil => rfl
  | cons pointer pointers inductionHypothesis =>
      have live := List.forall_mem_cons.mp live
      obtain ⟨edge, found, inside⟩ := live.1
      obtain ⟨node, read, _⟩ := stores.read inside
      have first : considerEdge graph considered state pointer = .ok (considerNode considered state edge.target) := by
        simp only [considerEdge, load_of_get found, load_of_get read, Outcome.ok_bind]
        rfl
      rw [List.foldlM_cons, first, Outcome.ok_bind, inductionHypothesis live.2, List.filterMap_cons, found]
      rfl

/-- A breadth-first search that has recorded how it discovered the visited nodes. -/
structure Searching (graph : DirectedGraph N E NodeKey EdgeKey) (start : Addr) (target : Addr)
    (state : State) (depth : Addr → Nat) : Prop where
  frontier : Frontier graph.neighbours (fun _ => True) start target state.visited state.processing
  tree : SearchTree graph.neighbours start state.visited (fun node => state.possibleActions.lookup node) depth
  levels : Levels graph.neighbours state.visited state.processing depth

omit [DecidableEq NodeKey] [DecidableEq EdgeKey] [Semantic N NodeKey] [Semantic E EdgeKey] in
theorem initial_searching (graph : DirectedGraph N E NodeKey EdgeKey) (start target : Addr) :
    Searching graph start target ⟨[start], AList.singleton start start, {start}⟩ fun _ => 0 where
  frontier := .initial trivial
  tree := .single fun _ other => singleton_lookup other
  levels := .single

omit [DecidableEq NodeKey] [DecidableEq EdgeKey] [Semantic N NodeKey] [Semantic E EdgeKey] in
/-- An expansion of the first pending node, unless it is the destination. -/
theorem Searching.expand {target considered : Addr} {processing : List Addr} {depth : Addr → Nat}
    (searching : Searching graph start target state depth) (shape : state.processing = considered :: processing)
    (other : considered ≠ target) {nodes : Finset Addr} (whole : Universe graph.neighbours start nodes) :
    ∃ depth, Searching graph start target
        ((graph.neighbours considered).foldl (considerNode considered) { state with processing }) depth ∧
      Frontier.remaining nodes
        ((graph.neighbours considered).foldl (considerNode considered) { state with processing }).visited
        ((graph.neighbours considered).foldl (considerNode considered) { state with processing }).processing <
      Frontier.remaining nodes state.visited state.processing := by
  obtain ⟨frontier, tree, levels⟩ := searching
  rw [shape] at frontier levels ⊢
  rw [← Multiset.cons_coe] at frontier ⊢
  have known : considered ∈ state.visited := levels.pendingVisited considered (List.mem_cons_self ..)
  have pending : (processing : Multiset Addr) +
      ((discovered state.visited (graph.neighbours considered)).filter (fun _ => True) : List Addr) =
      (processing ++ discovered state.visited (graph.neighbours considered) : List Addr) := by
    rw [List.filter_eq_self.mpr (fun _ _ => decide_eq_true trivial), Multiset.coe_add]
  have expanded := frontier.expand other
  have fewer := frontier.remaining_expand whole
  rw [pending] at expanded fewer
  simp only [foldl_considerNode]
  exact ⟨_, ⟨expanded, tree.expand known fun node => foldl_insert_lookup _ considered node _, levels.expand⟩, fewer⟩

/-- The search ends at the destination, or with nothing pending. -/
theorem Searching.search_ends (stores : Stores graph keys arcs) {target : Addr} {depth : Addr → Nat}
    (inside : start < keys.length) (searching : Searching graph start target state depth) {fuel : Nat}
    (enough : Frontier.remaining (Finset.range keys.length) state.visited state.processing < fuel) :
    ∃ found last depth, search graph (some target) fuel state = .ok (found, last) ∧
      Searching graph start target last depth ∧
      ((found = true ∧ ∃ rest, last.processing = target :: rest) ∨ (found = false ∧ last.processing = [])) := by
  induction fuel generalizing state depth with
  | zero => omega
  | succ fuel inductionHypothesis =>
      rw [search]
      cases shape : state.processing with
      | nil => exact ⟨false, state, depth, rfl, searching, Or.inr ⟨rfl, shape⟩⟩
      | cons considered processing =>
          by_cases reached : considered = target
          · subst reached
            exact ⟨true, state, depth, if_pos rfl, searching, Or.inl ⟨rfl, processing, shape⟩⟩
          · have notReached : some considered ≠ some target := fun same => reached (Option.some.inj same)
            have whole := stores.universe inside
            have known := searching.levels.pendingVisited considered (shape ▸ List.mem_cons_self ..)
            obtain ⟨node, live, edges⟩ := stores.read
              (Finset.mem_range.mp (searching.frontier.subset_universe whole known))
            have leads : graph.neighbours considered =
                node.edges.filterMap fun pointer => (graph.edgeHeap.get pointer).map ProxyEdge.target := by
              rw [neighbours, live]
              rfl
            obtain ⟨depth, expanded, fewer⟩ := searching.expand shape reached whole
            simp only [if_neg notReached, load_of_get live, Outcome.ok_bind,
              foldlM_considerEdge stores considered edges, ← leads]
            exact inductionHypothesis expanded (by omega)

end Bfs

/-- A node or an edge that is its own key. -/
structure Labelled where
  label : Nat
deriving DecidableEq, Repr

instance : Semantic Labelled Nat := ⟨Labelled.label⟩

/-- Two routes from 0 to 3 in a graph with a cycle; the second one is shorter. -/
def routes : List (DirectedGraph.Call Labelled Labelled Nat) :=
  (List.range 4).map (.insertNode ⟨·⟩) ++
    [.insertDirectEdge 0 1 ⟨0⟩, .insertDirectEdge 1 2 ⟨1⟩, .insertDirectEdge 2 3 ⟨2⟩, .insertDirectEdge 0 2 ⟨3⟩,
      .insertDirectEdge 3 0 ⟨4⟩]

def routesGraph : DirectedGraph Labelled Labelled Nat Nat :=
  (run DirectedGraph.step {} routes).toOption.getD {}

example : Bfs.bfs routesGraph 0 3 = .ok [0, 2, 3] := by rfl

end Dsac.Graph

import Dsac.Container.Graph.DijkstraSearch

namespace Dsac.Graph.Dijkstra

open Dsac.Library Dsac.Graph.Digraph

/-! The loop of both searches as a search in which only nodes with an entry in the
adjacency map, and the first one, become pending. -/

variable {queue : Processing} {α : Type} {record : α → Node → Node → α} {graph : Digraph}
  {start target : Node}

def Admitted (graph : Digraph) (start node : Node) : Prop := node = start ∨ graph.HasEntry node

instance (graph : Digraph) (start : Node) : DecidablePred (Admitted graph start) := fun node =>
  inferInstanceAs (Decidable (node = start ∨ graph.HasEntry node))

def pending (state : State queue α) : Multiset ComparedNode := queue.elements state.processing

/-- The visited nodes that became pending, apart from the first one. -/
def entered (graph : Digraph) (start : Node) (visited : Finset Node) : Finset Node :=
  (visited.filter graph.HasEntry).erase start

theorem entered_card_le (graph : Digraph) (start : Node) (visited : Finset Node) :
    (entered graph start visited).card ≤ graph.graph.keys.length := by
  rw [← List.toFinset_card_of_nodup graph.graph.keys_nodup]
  refine Finset.card_le_card fun node member => List.mem_toFinset.mpr ?_
  exact (Finset.mem_filter.mp (Finset.mem_of_mem_erase member)).2

theorem entered_card_lt {visited grown : Finset Node} {node : Node} (startVisited : start ∈ visited)
    (new : node ∉ visited) (present : graph.HasEntry node) (subset : visited ⊆ grown) (member : node ∈ grown) :
    (entered graph start visited).card < (entered graph start grown).card := by
  refine Finset.card_lt_card (Finset.ssubset_iff_of_subset ?_ |>.mpr ⟨node, ?_, ?_⟩)
  · exact Finset.erase_subset_erase _ (Finset.filter_subset_filter _ subset)
  · refine Finset.mem_erase.mpr ⟨?_, Finset.mem_filter.mpr ⟨member, present⟩⟩
    rintro rfl
    exact new startVisited
  · exact fun old => new (Finset.mem_filter.mp (Finset.mem_of_mem_erase old)).1

/-- What the loop preserves. -/
structure Searching (graph : Digraph) (start target : Node) (state : State queue α) : Prop where
  sameGraph : ∀ node, state.graph.successors node = graph.successors node
  frontier : Frontier graph.successors (Admitted graph start) start target state.visited
    ((pending state).map ComparedNode.node)
  queued : ∀ compared ∈ pending state, state.distances.lookup compared.node = some compared.distance ∧
    0 ≤ compared.distance ∧ compared.distance ≤ (entered graph start state.visited).card
  unvisited : ∀ node, node ∉ state.visited →
    state.distances.lookup node = if graph.HasEntry node then some maxDistance else none

theorem foldl_insert_lookup (keys : List Node) (distances : AList (fun _ : Node => Int)) (node : Node) :
    (keys.foldl (fun distances node => distances.insert node maxDistance) distances).lookup node =
      if node ∈ keys then some maxDistance else distances.lookup node := by
  induction keys generalizing distances with
  | nil => rfl
  | cons key keys ih =>
      rw [List.foldl_cons, ih]
      by_cases same : node = key
      · subst same
        simp [AList.lookup_insert]
      · simp [same, AList.lookup_insert_ne same]

theorem initial_searching (queue : Processing) (graph : Digraph) (start target : Node) (actions : α) :
    Searching graph start target (initial queue graph start actions) := by
  have single : pending (initial queue graph start actions) = {⟨start, 0⟩} := by
    rw [pending, initial, queue.elements_emplace, queue.elements_empty]
    rfl
  refine ⟨fun _ => rfl, ?_, ?_, ?_⟩
  · rw [single, Multiset.map_singleton]
    exact Frontier.initial (Or.inl rfl)
  · intro compared member
    obtain rfl := Multiset.mem_singleton.mp (single ▸ member)
    exact ⟨AList.lookup_insert _, le_refl _, Int.natCast_nonneg _⟩
  · intro node outside
    have different : node ≠ start := fun same => outside (Finset.mem_singleton.mpr same)
    rw [initial, AList.lookup_insert_ne different, initDistances, Digraph.visit, foldl_insert_lookup]
    by_cases present : graph.HasEntry node
    · rw [if_pos present, if_pos (AList.mem_keys.mp present)]
    · rw [if_neg present, if_neg (fun member => present (AList.mem_keys.mpr member)), AList.lookup_empty]

/-- The nodes that the expansion of a node adds to the queue. -/
def entering (graph : Digraph) (visited : Finset Node) (list : List Node) : List Node :=
  (discovered visited list).filter graph.HasEntry

theorem mem_entering {visited : Finset Node} {list : List Node} {node : Node} :
    node ∈ entering graph visited list ↔ (node ∈ list ∧ node ∉ visited) ∧ graph.HasEntry node := by
  rw [entering, List.mem_filter, mem_discovered, decide_eq_true_iff]

/-- The state after the successors in a list are considered. -/
structure Considered (record : α → Node → Node → α) (graph : Digraph) (considered : Node) (distance : Int)
    (list : List Node) (before after : State queue α) : Prop where
  sameGraph : after.graph = before.graph
  visited : after.visited = before.visited ∪ list.toFinset
  queued : pending after = pending before +
    ((entering graph before.visited list).map fun node => (⟨node, distance + 1⟩ : ComparedNode) : List ComparedNode)
  actions : after.actions = (entering graph before.visited list).foldl
    (fun actions node => record actions node considered) before.actions
  newDistance : ∀ node ∈ entering graph before.visited list, after.distances.lookup node = some (distance + 1)
  kept : ∀ node, node ∉ discovered before.visited list →
    after.distances.lookup node = before.distances.lookup node

theorem considerSuccessor_considered {considered successor : Node} {distance : Int} {state : State queue α}
    (known : state.distances.lookup considered = some distance) (nonneg : 0 ≤ distance)
    (bounded : distance < maxDistance)
    (room : successor ∉ state.visited → graph.HasEntry successor → distance + 1 < maxDistance)
    (unvisited : successor ∉ state.visited →
      state.distances.lookup successor = if graph.HasEntry successor then some maxDistance else none) :
    ∃ after, considerSuccessor queue record considered state successor = .ok after ∧
      Considered record graph considered distance [successor] state after := by
  by_cases old : successor ∈ state.visited
  · refine ⟨state, if_pos old, rfl, ?_, ?_, ?_, ?_, fun node _ => rfl⟩ <;>
      simp [entering, discovered, old]
  · have found := unvisited old
    have step : nextDistance distance = .ok (distance + 1) := if_pos bounded
    have visits : insert successor state.visited = state.visited ∪ [successor].toFinset := by
      rw [List.toFinset_cons, List.toFinset_nil, Finset.union_insert, Finset.union_empty]
    have discovers : discovered state.visited [successor] = [successor] := by simp [discovered, old]
    by_cases present : graph.HasEntry successor
    · rw [if_pos present] at found
      have result : considerSuccessor queue record considered state successor = .ok { state with
          visited := insert successor state.visited
          distances := state.distances.insert successor (distance + 1)
          processing := queue.emplace state.processing ⟨successor, distance + 1⟩
          actions := record state.actions successor considered } := by
        rw [considerSuccessor, if_neg old]
        simp only [subscript_of_lookup known, step, subscript_of_lookup found, room old present, if_true,
          bind, Except.bind, pure, Except.pure]
      have enters : entering graph state.visited [successor] = [successor] := by
        simp [entering, discovers, present]
      refine ⟨_, result, rfl, visits, ?_, by rw [enters]; rfl, ?_, ?_⟩
      · rw [pending, queue.elements_emplace, enters, ← Multiset.singleton_add, add_comm]
        rfl
      · intro node member
        obtain rfl : node = successor := by simpa [enters] using member
        exact AList.lookup_insert _
      · intro node member
        exact AList.lookup_insert_ne (by simpa [discovers] using member)
    · rw [if_neg present] at found
      have notLess : ¬ distance + 1 < 0 := by omega
      have result : considerSuccessor queue record considered state successor = .ok { state with
          visited := insert successor state.visited
          distances := state.distances.insert successor 0 } := by
        rw [considerSuccessor, if_neg old]
        simp only [subscript_of_lookup known, step, subscript_of_missing found, notLess, if_false,
          bind, Except.bind, pure, Except.pure]
      have enters : entering graph state.visited [successor] = [] := by simp [entering, discovers, present]
      refine ⟨_, result, rfl, visits, ?_, by rw [enters]; rfl, by simp [enters], ?_⟩
      · rw [enters, List.map_nil, Multiset.coe_nil, add_zero]
        rfl
      · intro node member
        exact AList.lookup_insert_ne (by simpa [discovers] using member)

theorem discovered_append (visited : Finset Node) (first second : List Node) :
    discovered visited (first ++ second) =
      discovered visited first ++ discovered (visited ∪ first.toFinset) second := by
  induction first generalizing visited with
  | nil => simp [discovered]
  | cons node rest ih =>
      rw [List.cons_append, discovered, discovered]
      split_ifs with old
      · rw [ih, List.toFinset_cons, Finset.union_insert, Finset.insert_eq_of_mem (Finset.mem_union_left _ old)]
      · rw [ih, List.toFinset_cons, Finset.insert_union, Finset.union_insert, List.cons_append]

/-- Considering one list of successors after another. -/
theorem Considered.append {considered : Node} {distance : Int} {first second : List Node}
    {before middle after : State queue α}
    (left : Considered record graph considered distance first before middle)
    (right : Considered record graph considered distance second middle after) :
    Considered record graph considered distance (first ++ second) before after := by
  have both : entering graph before.visited (first ++ second) =
      entering graph before.visited first ++ entering graph middle.visited second := by
    rw [entering, discovered_append, List.filter_append, ← left.visited]
    rfl
  refine ⟨right.sameGraph.trans left.sameGraph, ?_, ?_, ?_, ?_, ?_⟩
  · rw [right.visited, left.visited, List.toFinset_append, Finset.union_assoc]
  · rw [right.queued, left.queued, both, List.map_append, ← Multiset.coe_add, add_assoc]
  · rw [right.actions, left.actions, both, List.foldl_append]
  · intro node member
    by_cases later : node ∈ entering graph middle.visited second
    · exact right.newDistance node later
    · have early := (List.mem_append.mp (both ▸ member)).resolve_right later
      rw [right.kept node, left.newDistance node early]
      rw [mem_discovered, left.visited]
      have inFirst := (mem_entering.mp early).1.1
      exact fun late => late.2 (Finset.mem_union_right _ (List.mem_toFinset.mpr inFirst))
  · intro node member
    rw [discovered_append, List.mem_append, not_or, ← left.visited] at member
    rw [right.kept node member.2, left.kept node member.1]

/-- The whole loop over the successors. -/
theorem foldlM_considered {considered : Node} {distance : Int} {list : List Node} {state : State queue α}
    (consideredVisited : considered ∈ state.visited)
    (known : state.distances.lookup considered = some distance) (nonneg : 0 ≤ distance)
    (bounded : distance < maxDistance)
    (room : ∀ node, node ∉ state.visited → graph.HasEntry node → distance + 1 < maxDistance)
    (unvisited : ∀ node, node ∉ state.visited →
      state.distances.lookup node = if graph.HasEntry node then some maxDistance else none) :
    ∃ after, list.foldlM (considerSuccessor queue record considered) state = .ok after ∧
      Considered record graph considered distance list state after := by
  induction list generalizing state with
  | nil => exact ⟨state, rfl, rfl, by simp, by simp [entering, discovered], rfl, nofun, fun _ _ => rfl⟩
  | cons successor rest ih =>
      obtain ⟨middle, first, stepped⟩ : ∃ middle,
          considerSuccessor queue record considered state successor = .ok middle ∧
            Considered record graph considered distance [successor] state middle :=
        considerSuccessor_considered known nonneg bounded (room successor) (unvisited successor)
      have grown : ∀ node, node ∉ middle.visited → node ∉ state.visited ∧ node ≠ successor := by
        intro node outside
        rw [stepped.visited, Finset.mem_union, not_or] at outside
        exact ⟨outside.1, fun same => outside.2 (List.mem_toFinset.mpr (List.mem_singleton.mpr same))⟩
      have same : ∀ node, node ∉ middle.visited ∨ node ∈ state.visited →
          middle.distances.lookup node = state.distances.lookup node := by
        intro node outside
        refine stepped.kept node fun member => ?_
        obtain ⟨isSuccessor, new⟩ := mem_discovered.mp member
        rcases outside with outside | old
        · exact (grown node outside).2 (List.mem_singleton.mp isSuccessor)
        · exact new old
      have stillVisited : considered ∈ middle.visited := by
        rw [stepped.visited]
        exact Finset.mem_union_left _ consideredVisited
      obtain ⟨after, folded, done⟩ := ih stillVisited
        (by rw [same considered (Or.inr consideredVisited), known])
        (fun node outside => room node (grown node outside).1)
        (fun node outside => by rw [same node (Or.inl outside), unvisited node (grown node outside).1])
      refine ⟨after, ?_, stepped.append done⟩
      rw [List.foldlM_cons, first]
      exact folded

/-- The state in which the successors of the node on the top are considered. -/
def popped (state : State queue α) (top : ComparedNode) : State queue α :=
  { state with
    graph := (state.graph.getSuccessors top.node).2
    processing := queue.pop state.processing }

/-- The expansions that the loop can still make. -/
def remaining (graph : Digraph) (start : Node) (state : State queue α) : Nat :=
  Frontier.remaining (graph.nodesFrom start) state.visited ((pending state).map ComparedNode.node)

/-- One iteration of the loop expands the node on the top. -/
theorem Searching.expanded {state : State queue α} {top : ComparedNode}
    (searching : Searching graph start target state) (small : (graph.graph.keys.length : Int) < maxDistance)
    (isTop : queue.top state.processing = some top) (other : top.node ≠ target) :
    ∃ after, (∀ fuel, search queue record target (fuel + 1) state = search queue record target fuel after) ∧
      Considered record graph top.node top.distance (graph.successors top.node) (popped state top) after ∧
      Searching graph start target after ∧ remaining graph start after < remaining graph start state := by
  have topPending : top ∈ pending state := queue.top_mem _ _ isTop
  have poppedPending : pending (popped state top) = (pending state).erase top := queue.elements_pop _ _ isTop
  have frontier := searching.frontier
  have startVisited := frontier.startVisited
  obtain ⟨known, nonneg, bounded⟩ := searching.queued top topPending
  have topVisited : top.node ∈ state.visited :=
    frontier.pendingVisited top.node (Multiset.mem_map_of_mem _ topPending)
  have within : ((entered graph start state.visited).card : Int) ≤ graph.graph.keys.length := by
    exact_mod_cast entered_card_le graph start state.visited
  have room : ∀ node, node ∉ state.visited → graph.HasEntry node → top.distance + 1 < maxDistance := by
    intro node outside present
    have more := entered_card_lt startVisited outside present (Finset.subset_insert node _)
      (Finset.mem_insert_self node _)
    have all := entered_card_le graph start (insert node state.visited)
    omega
  obtain ⟨after, folded, considered⟩ : ∃ after,
      (graph.successors top.node).foldlM (considerSuccessor queue record top.node) (popped state top) =
        .ok after ∧
      Considered record graph top.node top.distance (graph.successors top.node) (popped state top) after :=
    foldlM_considered topVisited known nonneg (by omega) room searching.unvisited
  have popped_cons : (pending state).map ComparedNode.node =
      top.node ::ₘ ((pending state).erase top).map ComparedNode.node := by
    rw [← Multiset.map_cons, Multiset.cons_erase topPending]
  have enters : (discovered state.visited (graph.successors top.node)).filter (Admitted graph start) =
      entering graph state.visited (graph.successors top.node) := by
    refine List.filter_congr fun node member => ?_
    have notStart : node ≠ start := fun same => (mem_discovered.mp member).2 (same ▸ startVisited)
    simp [Admitted, notStart]
  have nowPending : (pending after).map ComparedNode.node = ((pending state).erase top).map ComparedNode.node +
      (entering graph state.visited (graph.successors top.node) : List Node) := by
    rw [considered.queued, poppedPending, Multiset.map_add, Multiset.map_coe, List.map_map]
    exact congrArg (_ + Multiset.ofList ·) (List.map_id _)
  have visits : after.visited = state.visited ∪ (graph.successors top.node).toFinset := considered.visited
  rw [popped_cons] at frontier
  have nextFrontier := frontier.expand other
  have fewer := frontier.remaining_expand (graph.nodesFrom_universe start)
  rw [enters, ← nowPending, ← visits] at nextFrontier fewer
  refine ⟨after, fun fuel => ?_, considered, ⟨?_, nextFrontier, ?_, ?_⟩, ?_⟩
  · have successors : (state.graph.getSuccessors top.node).1 = graph.successors top.node := by
      rw [getSuccessors_fst, searching.sameGraph]
    rw [popped] at folded
    rw [search, isTop]
    simp only [if_neg other, subscript_of_lookup known, le_refl, if_true, successors, folded, bind, Except.bind]
  · intro node
    rw [considered.sameGraph, popped, successors_getSuccessors, searching.sameGraph]
  · intro compared member
    have grows : state.visited ⊆ after.visited := visits ▸ Finset.subset_union_left
    rw [considered.queued, poppedPending] at member
    rcases Multiset.mem_add.mp member with old | new
    · obtain ⟨oldKnown, oldNonneg, oldBounded⟩ := searching.queued compared (Multiset.mem_of_mem_erase old)
      have oldVisited := searching.frontier.pendingVisited compared.node
        (Multiset.mem_map_of_mem _ (Multiset.mem_of_mem_erase old))
      refine ⟨?_, oldNonneg, oldBounded.trans ?_⟩
      · rw [considered.kept compared.node fun found => (mem_discovered.mp found).2 oldVisited]
        exact oldKnown
      · exact_mod_cast Finset.card_le_card
          (Finset.erase_subset_erase start (Finset.filter_subset_filter _ grows))
    · obtain ⟨node, entersNode, rfl⟩ := List.mem_map.mp new
      obtain ⟨⟨edge, outside⟩, present⟩ := mem_entering.mp entersNode
      have nowVisited : node ∈ after.visited :=
        visits ▸ Finset.mem_union_right _ (List.mem_toFinset.mpr edge)
      have more := entered_card_lt startVisited outside present grows nowVisited
      exact ⟨considered.newDistance node entersNode, by simp only; omega, by simp only; omega⟩
  · intro node outside
    rw [visits, Finset.mem_union, not_or] at outside
    rw [considered.kept node fun found => outside.2 (List.mem_toFinset.mpr (mem_discovered.mp found).1)]
    exact searching.unvisited node outside.1
  · rw [remaining, remaining, popped_cons]
    exact fewer

/-- The search ends at the target or with nothing pending, in a state with whatever the
expansions preserve. -/
theorem Searching.search_ends {state : State queue α}
    (searching : Searching graph start target state) (small : (graph.graph.keys.length : Int) < maxDistance)
    (extra : State queue α → Prop) (holds : extra state)
    (preserved : ∀ state top after, Searching graph start target state → extra state →
      queue.top state.processing = some top → top.node ≠ target →
      Considered record graph top.node top.distance (graph.successors top.node) (popped state top) after →
      extra after)
    {fuel : Nat} (enough : remaining graph start state < fuel) :
    ∃ found last, search queue record target fuel state = .ok (found, last) ∧
      Searching graph start target last ∧ extra last ∧
      ((found = true ∧ ∃ top, queue.top last.processing = some top ∧ top.node = target) ∨
        (found = false ∧ pending last = 0)) := by
  induction fuel generalizing state with
  | zero => omega
  | succ fuel ih =>
      cases isTop : queue.top state.processing with
      | none =>
          refine ⟨false, state, ?_, searching, holds, Or.inr ⟨rfl, queue.top_eq_none _ isTop⟩⟩
          rw [search, isTop]
      | some top =>
          by_cases reached : top.node = target
          · refine ⟨true, state, ?_, searching, holds, Or.inl ⟨rfl, top, isTop, reached⟩⟩
            rw [search, isTop]
            exact if_pos reached
          · obtain ⟨after, stepped, considered, nextSearching, fewer⟩ := searching.expanded small isTop reached
            obtain ⟨found, last, ran, ends⟩ := ih nextSearching
              (preserved state top after searching holds isTop reached considered) (by omega)
            exact ⟨found, last, (stepped fuel).trans ran, ends⟩

theorem initial_remaining (queue : Processing) (graph : Digraph) (start : Node) (actions : α) :
    remaining graph start (initial queue graph start actions) < graph.searchBound := by
  have single : pending (initial queue graph start actions) = {⟨start, 0⟩} := by
    rw [pending, initial, queue.elements_emplace, queue.elements_empty]
    rfl
  rw [remaining, single, Multiset.map_singleton]
  exact graph.remaining_lt_searchBound start

theorem not_admitted_deadEnd (graph : Digraph) (start node : Node) (rejected : ¬ Admitted graph start node) :
    graph.successors node = [] :=
  successors_of_no_entry fun present => rejected (Or.inr present)

end Dsac.Graph.Dijkstra

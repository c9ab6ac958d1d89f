import Dsac.Library.Paths
import Dsac.Container.Graph.DijkstraSearch.Searching

namespace Dsac.Graph.Dijkstra

open Dsac.Library Dsac.Graph.Digraph

/-! `dijkstra::ShortestPath` expands a farthest node first, so the path it returns is
some path without chords; which one depends on the order of equally far nodes. -/

variable {queue : Processing} {graph : Digraph} {start target : Node}

/-- What the recorded actions say about the pending nodes. -/
structure Tracking (graph : Digraph) (start : Node) (state : State queue PossibleActions) : Prop where
  tracked : ∀ compared ∈ pending state, ∃ path,
    Tracked (fun node => state.actions.lookup node) start compared.node path ∧
    IsPath graph.successors start compared.node path ∧ Chordless graph.successors path ∧
    (path.length : Int) = compared.distance + 1 ∧ (∀ node ∈ path, node ∈ state.visited) ∧
    ∀ node ∈ path.dropLast, ∀ successor ∈ graph.successors node, successor ∈ state.visited
  unvisited : ∀ node, node ∉ state.visited → state.actions.lookup node = none

theorem foldl_recordAction_lookup (list : List Node) (considered node : Node) (actions : PossibleActions) :
    (list.foldl (fun actions node => recordAction actions node considered) actions).lookup node =
      if node ∈ list then some considered else actions.lookup node := by
  induction list generalizing actions with
  | nil => rfl
  | cons first rest ih =>
      rw [List.foldl_cons, ih]
      by_cases same : node = first
      · subst same
        simp [recordAction, AList.lookup_insert]
      · simp [recordAction, same, AList.lookup_insert_ne same]

theorem initial_tracking (queue : Processing) (graph : Digraph) (start : Node) :
    Tracking graph start (initial queue graph start (AList.singleton start start)) := by
  constructor
  · intro compared member
    rw [pending, initial, queue.elements_emplace, queue.elements_empty] at member
    obtain rfl := Multiset.mem_singleton.mp member
    refine ⟨[start], .start, .single _ start, .single _ start, rfl, ?_, by rintro _ ⟨⟩⟩
    intro node member
    exact Finset.mem_singleton.mpr (List.mem_singleton.mp member)
  · intro node outside
    have different : node ≠ start := fun same => outside (Finset.mem_singleton.mpr same)
    rw [initial, ← AList.insert_empty, AList.lookup_insert_ne different, AList.lookup_empty]

/-- An expansion extends the recorded path of the expanded node to its new successors. -/
theorem Tracking.expanded {state after : State queue PossibleActions} {top : ComparedNode}
    (tracking : Tracking graph start state) (searching : Searching graph start target state)
    (isTop : queue.top state.processing = some top)
    (considered : Considered recordAction graph top.node top.distance (graph.successors top.node)
      (popped state top) after) : Tracking graph start after := by
  have topPending : top ∈ pending state := queue.top_mem _ _ isTop
  have poppedPending : pending (popped state top) = (pending state).erase top := queue.elements_pop _ _ isTop
  have visits : after.visited = state.visited ∪ (graph.successors top.node).toFinset := considered.visited
  have grows : ∀ {node}, node ∈ state.visited → node ∈ after.visited := fun member =>
    visits ▸ Finset.mem_union_left _ member
  have lookups : ∀ node, after.actions.lookup node =
      if node ∈ entering graph state.visited (graph.successors top.node) then some top.node
      else state.actions.lookup node := by
    intro node
    rw [considered.actions]
    exact foldl_recordAction_lookup _ _ _ _
  have kept : ∀ node ∈ state.visited, after.actions.lookup node = state.actions.lookup node := by
    intro node member
    rw [lookups, if_neg fun enters => (mem_entering.mp enters).1.2 member]
  constructor
  · intro compared member
    rw [considered.queued, poppedPending] at member
    rcases Multiset.mem_add.mp member with old | new
    · obtain ⟨path, tracked, isPath, chordless, length, visited, closed⟩ :=
        tracking.tracked compared (Multiset.mem_of_mem_erase old)
      exact ⟨path, tracked.congr fun node inside => kept node (visited node inside), isPath, chordless, length,
        fun node inside => grows (visited node inside),
        fun node inside successor edge => grows (closed node inside successor edge)⟩
    · obtain ⟨node, enters, rfl⟩ := List.mem_map.mp new
      have entersNow : node ∈ entering graph state.visited (graph.successors top.node) := enters
      obtain ⟨⟨edge, outside⟩, _⟩ := mem_entering.mp entersNow
      obtain ⟨path, tracked, isPath, chordless, length, visited, closed⟩ := tracking.tracked top topPending
      have notStart : node ≠ start := fun same => outside (same ▸ searching.frontier.startVisited)
      refine ⟨path ++ [node], ?_, isPath.snoc edge, ?_, ?_, ?_, ?_⟩
      · refine .step notStart ?_ (tracked.congr fun member inside => kept member (visited member inside))
        rw [lookups, if_pos entersNow]
      · exact chordless.snoc (fun member => outside (visited node member))
          fun earlier inside step => outside (closed earlier inside node step)
      · rw [List.length_append, List.length_singleton]
        push_cast
        omega
      · intro member inside
        rcases List.mem_append.mp inside with early | atEnd
        · exact grows (visited member early)
        · rw [List.mem_singleton.mp atEnd, visits]
          exact Finset.mem_union_right _ (List.mem_toFinset.mpr edge)
      · intro member inside successor step
        rw [List.dropLast_concat, ← List.dropLast_append_getLast? top.node isPath.last] at inside
        rcases List.mem_append.mp inside with early | atEnd
        · exact grows (closed member early successor step)
        · rw [List.mem_singleton.mp atEnd] at step
          exact visits ▸ Finset.mem_union_right _ (List.mem_toFinset.mpr step)
  · intro node outside
    rw [visits, Finset.mem_union, not_or] at outside
    rw [lookups, if_neg, tracking.unvisited node outside.1]
    intro enters
    exact outside.2 (List.mem_toFinset.mpr (mem_entering.mp enters).1.1)

theorem followBack_tracked {actions : PossibleActions} {node : Node} {path : List Node}
    (tracked : Tracked (fun node => actions.lookup node) start node path) (rest : List Node) {fuel : Nat}
    (enough : path.length ≤ fuel) : followBack actions start fuel (node :: rest) = .ok (path ++ rest) := by
  induction tracked generalizing rest fuel with
  | start =>
      obtain ⟨fuel, rfl⟩ := Nat.exists_eq_add_of_le' enough
      exact if_pos rfl
  | @step node previous path other parent before ih =>
      rw [List.length_append, List.length_singleton] at enough
      obtain ⟨fuel, rfl⟩ : ∃ less, fuel = less + 1 := ⟨fuel - 1, by omega⟩
      rw [followBack, if_neg other]
      simp only [parent]
      rw [ih (node :: rest) (by omega), List.append_assoc]
      rfl

/-- Every node that an edge leads to has an entry in the adjacency map. -/
def Complete (graph : Digraph) : Prop :=
  ∀ node, ∀ successor ∈ graph.successors node, graph.HasEntry successor

theorem complete_iff_keys (graph : Digraph) :
    (∀ node ∈ graph.graph.keys, ∀ successor ∈ graph.successors node, graph.HasEntry successor) ↔
      Complete graph := by
  constructor
  · intro all node successor edge
    by_cases present : graph.HasEntry node
    · exact all node (AList.mem_keys.mp present) successor edge
    · rw [successors_of_no_entry present] at edge
      cases edge
  · exact fun complete node _ => complete node

instance (graph : Digraph) : Decidable (Complete graph) := decidable_of_iff _ (complete_iff_keys graph)

theorem admitted_of_reachable (complete : Complete graph) {node : Node}
    (reachable : Reachable graph.successors start node) : Admitted graph start node := by
  cases reachable with
  | refl => exact Or.inl rfl
  | tail _ edge => exact Or.inr (complete _ node edge)

/-- The result of the search, with whatever else its expansions preserve. -/
theorem shortestPath_ends (queue : Processing) (target : Node) (small : (graph.graph.keys.length : Int) < maxDistance) (complete : Complete graph)
    (extra : State queue PossibleActions → Prop)
    (holds : extra (initial queue graph start (AList.singleton start start)))
    (preserved : ∀ state top after, Searching graph start target state → extra state →
      queue.top state.processing = some top → top.node ≠ target →
      Considered recordAction graph top.node top.distance (graph.successors top.node) (popped state top) after →
      extra after) :
    ∃ path last, shortestPath queue graph start target = .ok (path, last.graph) ∧ extra last ∧
      ((path = [] ∧ ¬ Reachable graph.successors start target ∧ pending last = 0) ∨
        ∃ top ∈ pending last, top.node = target ∧ IsPath graph.successors start target path ∧
          Chordless graph.successors path ∧ (path.length : Int) = top.distance + 1) := by
  obtain ⟨found, last, ran, searching, ⟨tracking, kept⟩, ends⟩ :=
    (initial_searching queue graph start target (AList.singleton start start)).search_ends small
      (fun state => Tracking graph start state ∧ extra state) ⟨initial_tracking queue graph start, holds⟩
      (fun state top after searching both isTop other considered =>
        ⟨both.1.expanded searching isTop considered, preserved state top after searching both.2 isTop other considered⟩)
      (initial_remaining queue graph start _)
  rcases ends with ⟨rfl, top, isTop, rfl⟩ | ⟨rfl, nothing⟩
  · have member := queue.top_mem _ _ isTop
    obtain ⟨path, tracked, isPath, chordless, length, _⟩ := tracking.tracked top member
    have bounded := (searching.queued top member).2.2
    have within := entered_card_le graph start last.visited
    have enough : path.length ≤ graph.searchBound := by
      rw [searchBound]
      omega
    have followed := followBack_tracked tracked [] enough
    refine ⟨path, last, ?_, kept, Or.inr ⟨top, member, rfl, isPath, chordless, length⟩⟩
    simp only [shortestPath, ran, followed, List.append_nil, isPath.first, if_true, bind, Except.bind, pure,
      Except.pure]
  · have frontier := searching.frontier
    rw [nothing, Multiset.map_zero] at frontier
    have unreachable : ¬ Reachable graph.successors start target := fun reachable =>
      frontier.not_admitted_of_exhausted (not_admitted_deadEnd graph start) reachable
        (admitted_of_reachable complete reachable)
    have notStart : target ≠ start := fun same => unreachable (same ▸ .refl)
    have unknown := tracking.unvisited target fun visited => unreachable (frontier.sound target visited)
    have followed : followBack last.actions start graph.searchBound [target] = .ok [target] := by
      rw [searchBound, followBack, if_neg notStart]
      simp only [unknown]
    refine ⟨[], last, ?_, kept, Or.inl ⟨rfl, unreachable, nothing⟩⟩
    simp only [shortestPath, ran, followed, List.head?_cons, Option.some.injEq, notStart, if_false, bind,
      Except.bind, pure, Except.pure]

/-- The queue that prefers the nodes of a path among equally far ones. -/
def preferring (path : List Node) : Processing :=
  .ofRank (fun compared => toLex (compared.distance, decide (compared.node ∈ path)))
    fun _ _ less => Prod.Lex.toLex_lt_toLex.mpr (Or.inl less)

theorem preferring_top {path : List Node} {processing : (preferring path).Queue} {top chosen : ComparedNode}
    (isTop : (preferring path).top processing = some top)
    (member : chosen ∈ (preferring path).elements processing) (onPath : chosen.node ∈ path)
    (farthest : top.distance ≤ chosen.distance) : top.distance = chosen.distance ∧ top.node ∈ path := by
  have order := List.le_of_mem_argmax (show chosen ∈ (show List ComparedNode from processing) from member) isTop
  rcases Prod.Lex.toLex_le_toLex.mp order with farther | ⟨same, preferred⟩
  · exact absurd farther (not_lt.mpr farthest)
  · have both : decide (top.node ∈ path) = true := by
      rw [decide_eq_true onPath] at preferred
      exact top_le_iff.mp preferred
    exact ⟨same.symm, of_decide_eq_true both⟩

/-- The search has expanded the nodes of the path before the given index, and only the
node at that index is pending among those of the path. -/
structure OnPath (path : List Node) (index : Nat) (state : State (preferring path) PossibleActions) : Prop where
  pendingNode : ∃ node, path[index]? = some node ∧
    (pending state).filter (fun compared => compared.node ∈ path) = {⟨node, index⟩}
  farthest : ∀ compared ∈ pending state, compared.distance ≤ index
  visited : ∀ other node, path[other]? = some node → (node ∈ state.visited ↔ other ≤ index)

/-- The next node of the path is the only one of its nodes that an expansion enters. -/
theorem entering_filter_path {path : List Node} {index : Nat} {node next : Node} {visited : Finset Node}
    (chordless : Chordless graph.successors path) (complete : Complete graph)
    (atIndex : path[index]? = some node) (atNext : path[index + 1]? = some next)
    (edge : next ∈ graph.successors node)
    (isVisited : ∀ other node, path[other]? = some node → (node ∈ visited ↔ other ≤ index)) :
    (entering graph visited (graph.successors node)).filter (· ∈ path) = [next] := by
  have distinct : ((entering graph visited (graph.successors node)).filter (· ∈ path)).Nodup :=
    ((discovered_nodup _ _).filter _).filter _
  refine List.perm_singleton.mp ((List.perm_ext_iff_of_nodup distinct (List.nodup_singleton next)).mpr ?_)
  intro other
  rw [List.mem_filter, mem_entering, decide_eq_true_iff, List.mem_singleton]
  constructor
  · rintro ⟨⟨⟨step, outside⟩, _⟩, member⟩
    obtain ⟨position, found⟩ := List.mem_iff_getElem?.mp member
    have later : ¬ position ≤ index := fun early => outside ((isVisited position other found).mpr early)
    have near : ¬ index + 1 < position := fun far =>
      chordless.noChord index position node other atIndex found far step
    obtain rfl : position = index + 1 := by omega
    exact Option.some.inj (found.symm.trans atNext)
  · rintro rfl
    refine ⟨⟨⟨edge, fun old => ?_⟩, complete node other edge⟩, List.mem_of_getElem? atNext⟩
    exact absurd ((isVisited (index + 1) other atNext).mp old) (by omega)

/-- A path without chords is followed to its end. -/
theorem OnPath.expanded {path : List Node} {index : Nat}
    {state after : State (preferring path) PossibleActions} {top : ComparedNode}
    (onPath : OnPath path index state) (isPath : IsPath graph.successors start target path)
    (chordless : Chordless graph.successors path) (complete : Complete graph)
    (isTop : (preferring path).top state.processing = some top) (other : top.node ≠ target)
    (considered : Considered recordAction graph top.node top.distance (graph.successors top.node)
      (popped state top) after) : OnPath path (index + 1) after := by
  obtain ⟨⟨node, atIndex, onlyNode⟩, farthest, visited⟩ := onPath
  have nodePending : ⟨node, index⟩ ∈ pending state :=
    Multiset.mem_of_mem_filter (onlyNode ▸ Multiset.mem_singleton_self _)
  have topPending : top ∈ pending state := (preferring path).top_mem _ _ isTop
  have isNode : top = ⟨node, index⟩ := by
    have preferred := preferring_top isTop nodePending (List.mem_of_getElem? atIndex) (farthest top topPending)
    exact Multiset.mem_singleton.mp (onlyNode ▸ Multiset.mem_filter.mpr ⟨topPending, preferred.2⟩)
  subst isNode
  have poppedPending : pending (popped state ⟨node, index⟩) = (pending state).erase ⟨node, index⟩ :=
    (preferring path).elements_pop _ _ isTop
  have visits : after.visited = state.visited ∪ (graph.successors node).toFinset := considered.visited
  have inside : index + 1 < path.length := by
    have within := (List.getElem?_eq_some_iff.mp atIndex).1
    by_contra atEnd
    have last := isPath.last
    rw [List.getLast?_eq_getElem?, show path.length - 1 = index by omega, atIndex] at last
    exact other (Option.some.inj last)
  have atNext := List.getElem?_eq_getElem inside
  have edge : path[index + 1] ∈ graph.successors node := by
    have step := List.isChain_iff_getElem.mp isPath.edges index inside
    rwa [Edge, (List.getElem?_eq_some_iff.mp atIndex).2] at step
  have entersNext := entering_filter_path chordless complete atIndex atNext edge visited
  refine ⟨⟨path[index + 1], atNext, ?_⟩, ?_, ?_⟩
  · have popsNode : ((pending state).erase ⟨node, index⟩).filter (fun compared => compared.node ∈ path) = 0 := by
      have cons := Multiset.cons_erase nodePending
      have nodeOnPath : (⟨node, index⟩ : ComparedNode).node ∈ path := List.mem_of_getElem? atIndex
      rw [← cons, Multiset.filter_cons_of_pos (p := fun compared : ComparedNode => compared.node ∈ path) _ nodeOnPath,
        ← Multiset.cons_zero, Multiset.cons_inj_right] at onlyNode
      exact onlyNode
    rw [considered.queued, poppedPending, Multiset.filter_add, popsNode, zero_add, Multiset.filter_coe,
      List.filter_map]
    have same : (fun compared : ComparedNode => decide (compared.node ∈ path)) ∘
        (fun node => (⟨node, (index : Int) + 1⟩ : ComparedNode)) = fun node => decide (node ∈ path) := rfl
    rw [same]
    change Multiset.ofList (((entering graph state.visited (graph.successors node)).filter (· ∈ path)).map _) = _
    rw [entersNext]
    rfl
  · intro compared member
    rw [considered.queued, poppedPending] at member
    rcases Multiset.mem_add.mp member with old | new
    · have bounded := farthest compared (Multiset.mem_of_mem_erase old)
      push_cast
      omega
    · obtain ⟨entered, _, rfl⟩ := List.mem_map.mp new
      exact le_refl _
  · intro position found atPosition
    rw [visits, Finset.mem_union, List.mem_toFinset]
    constructor
    · rintro (old | new)
      · exact Nat.le_succ_of_le ((visited position found atPosition).mp old)
      · by_contra far
        exact chordless.noChord index position node found atIndex atPosition (by omega) new
    · intro bounded
      rcases Nat.lt_or_ge index position with later | early
      · obtain rfl : position = index + 1 := by omega
        exact Or.inr (Option.some.inj (atPosition.symm.trans atNext) ▸ edge)
      · exact Or.inl ((visited position found atPosition).mpr early)

theorem initial_onPath {path : List Node} (isPath : IsPath graph.successors start target path)
    (chordless : Chordless graph.successors path) :
    OnPath path 0 (initial (preferring path) graph start (AList.singleton start start)) := by
  have single : pending (initial (preferring path) graph start (AList.singleton start start : PossibleActions)) =
      {⟨start, 0⟩} := by
    rw [pending, initial, (preferring path).elements_emplace, (preferring path).elements_empty]
    rfl
  have atStart : path[0]? = some start := by rw [← List.head?_eq_getElem?, isPath.first]
  refine ⟨⟨start, atStart, ?_⟩, ?_, ?_⟩
  · rw [single, Multiset.filter_singleton, if_pos (List.mem_of_getElem? atStart)]
    rfl
  · intro compared member
    rw [single] at member
    exact (Multiset.mem_singleton.mp member) ▸ le_refl _
  · intro position node found
    rw [Nat.le_zero]
    constructor
    · intro visited
      obtain rfl := Finset.mem_singleton.mp visited
      exact (List.getElem?_inj (List.getElem?_eq_some_iff.mp found).1 chordless.nodup).mp (found.trans atStart.symm)
    · rintro rfl
      exact Finset.mem_singleton.mpr (Option.some.inj (found.symm.trans atStart))

/-- What is asked of the returned path. -/
def Correct (queue : Processing) (graph : Digraph) (start target : Node) : Prop :=
  ∃ path after, shortestPath queue graph start target = .ok (path, after) ∧
    (path = [] ↔ ¬ Reachable graph.successors start target) ∧
    (Reachable graph.successors start target → IsPath graph.successors start target path ∧
      ∀ other, IsPath graph.successors start target other → path.length ≤ other.length)

/-- `ShortestPath` is correct, whichever of several farthest nodes the queue yields first,
exactly if every path without chords is a shortest one. -/
theorem shortestPath_correct_iff (small : (graph.graph.keys.length : Int) < maxDistance)
    (complete : Complete graph) (start target : Node) :
    (∀ queue, Correct queue graph start target) ↔
      ∀ path, IsPath graph.successors start target path → Chordless graph.successors path →
        ∀ other, IsPath graph.successors start target other → path.length ≤ other.length := by
  constructor
  · intro correct path isPath chordless
    obtain ⟨found, last, ran, ⟨index, onPath⟩, ends⟩ :=
      shortestPath_ends (preferring path) target small complete (fun state => ∃ index, OnPath path index state)
        ⟨0, initial_onPath isPath chordless⟩
        (fun state top after _ ⟨index, onPath⟩ isTop other considered =>
          ⟨index + 1, onPath.expanded isPath chordless complete isTop other considered⟩)
    obtain ⟨other, after, otherRan, _, minimal⟩ := correct (preferring path)
    obtain rfl : other = found := congrArg Prod.fst (Except.ok.inj (otherRan.symm.trans ran))
    have sameLength : other.length = path.length := by
      rcases ends with ⟨_, unreachable, _⟩ | ⟨top, topPending, isTarget, _, _, length⟩
      · exact absurd isPath.reachable unreachable
      · obtain ⟨node, atIndex, onlyNode⟩ := onPath.pendingNode
        have targetOnPath : top.node ∈ path := isTarget ▸ List.mem_of_getLast? isPath.last
        obtain rfl := Multiset.mem_singleton.mp (onlyNode ▸ Multiset.mem_filter.mpr ⟨topPending, targetOnPath⟩)
        have atEnd := isPath.last
        rw [List.getLast?_eq_getElem?, ← isTarget] at atEnd
        have within := (List.getElem?_eq_some_iff.mp atIndex).1
        have isEnd := (List.getElem?_inj within chordless.nodup).mp (atIndex.trans atEnd.symm)
        simp only at length
        omega
    exact sameLength ▸ (minimal isPath.reachable).2
  · intro condition queue
    obtain ⟨path, last, ran, _, ends⟩ := shortestPath_ends queue target small complete
      (fun _ => True) trivial (fun _ _ _ _ _ _ _ _ => trivial)
    refine ⟨path, last.graph, ran, ?_⟩
    rcases ends with ⟨rfl, unreachable, _⟩ | ⟨_, _, _, isPath, chordless, _⟩
    · exact ⟨⟨fun _ => unreachable, fun _ => rfl⟩, fun reachable => absurd reachable unreachable⟩
    · refine ⟨⟨?_, fun unreachable => absurd isPath.reachable unreachable⟩,
        fun _ => ⟨isPath, condition path isPath chordless⟩⟩
      rintro rfl
      cases isPath.first

/-- Between two nodes there is only one path without repeated nodes. -/
theorem shortestPath_correct_cycle :
    Correct firstGreatest (ofEdges [(⟨0⟩, ⟨1⟩), (⟨1⟩, ⟨0⟩)]) ⟨0⟩ ⟨1⟩ := by
  refine (shortestPath_correct_iff (by decide +kernel) (by decide +kernel) ⟨0⟩ ⟨1⟩).mpr ?_ firstGreatest
  intro path isPath chordless other otherPath
  have atMost : path.length ≤ 2 := by
    rw [← List.toFinset_card_of_nodup chordless.nodup]
    refine (Finset.card_le_card fun node member => ?_).trans
      (show (nodesFrom (ofEdges [(⟨0⟩, ⟨1⟩), (⟨1⟩, ⟨0⟩)]) ⟨0⟩).card ≤ 2 by decide +kernel)
    exact (nodesFrom_universe _ _).mem_of_reachable (isPath.reachable_of_mem (List.mem_toFinset.mp member))
  have atLeast : 2 ≤ other.length := by
    rcases other with _ | ⟨first, _ | ⟨second, rest⟩⟩
    · cases otherPath.first
    · cases otherPath.first.symm.trans otherPath.last
    · exact Nat.le_add_left ..
  exact atMost.trans atLeast

/-- The node `3` at distance two is popped before the node `2` at distance one, so `4` is
reached by a path of three edges while `0 → 2 → 4` has two. -/
theorem shortestPath_not_minimal :
    ¬ Correct firstGreatest
      (ofEdges [(⟨0⟩, ⟨1⟩), (⟨0⟩, ⟨2⟩), (⟨1⟩, ⟨3⟩), (⟨3⟩, ⟨4⟩), (⟨2⟩, ⟨4⟩), (⟨4⟩, ⟨0⟩)]) ⟨0⟩ ⟨4⟩ := by
  rintro ⟨path, after, ran, _, minimal⟩
  have returned : (shortestPath firstGreatest
      (ofEdges [(⟨0⟩, ⟨1⟩), (⟨0⟩, ⟨2⟩), (⟨1⟩, ⟨3⟩), (⟨3⟩, ⟨4⟩), (⟨2⟩, ⟨4⟩), (⟨4⟩, ⟨0⟩)]) ⟨0⟩ ⟨4⟩).map
      Prod.fst = .ok [⟨0⟩, ⟨1⟩, ⟨3⟩, ⟨4⟩] := by decide +kernel
  rw [ran] at returned
  cases returned
  have shorter : IsPath (ofEdges [(⟨0⟩, ⟨1⟩), (⟨0⟩, ⟨2⟩), (⟨1⟩, ⟨3⟩), (⟨3⟩, ⟨4⟩), (⟨2⟩, ⟨4⟩),
      (⟨4⟩, ⟨0⟩)]).successors ⟨0⟩ ⟨4⟩ [⟨0⟩, ⟨2⟩, ⟨4⟩] :=
    ((IsPath.single _ _).snoc (by decide +kernel)).snoc (by decide +kernel)
  exact absurd ((minimal shorter.reachable).2 _ shorter) (by decide)

end Dsac.Graph.Dijkstra

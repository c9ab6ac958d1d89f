import Dsac.Library.Matches
import Dsac.Library.SearchTree
import Dsac.Container.Graph.DijkstraSearch.ShortestPath

namespace Dsac.Graph.Dijkstra

open Dsac.Library Dsac.Graph.Digraph

/-! What the searches with a priority queue leave of the graph, and which of its entries they depend on. -/

variable {queue : Processing} {α : Type} {record : α → Node → Node → α} {target considered successor : Node}
  {nodes : Finset Node} {state other after : State queue α}

theorem considerSuccessor_graph (ran : considerSuccessor queue record considered state successor = .ok after) :
    after.graph = state.graph := by
  rw [considerSuccessor] at ran
  split_ifs at ran with old
  · cases ran
    rfl
  · obtain ⟨newDist, _, rest⟩ := Outcome.of_bind ran
    simp only at rest
    split_ifs at rest <;> cases rest <;> rfl

theorem foldlM_considerSuccessor_graph {list : List Node}
    (ran : list.foldlM (considerSuccessor queue record considered) state = .ok after) : after.graph = state.graph := by
  induction list generalizing state with
  | nil =>
      cases ran
      rfl
  | cons successor rest inductionHypothesis =>
      rw [List.foldlM_cons] at ran
      obtain ⟨middle, first, later⟩ := Outcome.of_bind ran
      exact (inductionHypothesis later).trans (considerSuccessor_graph first)

theorem search_extends {fuel : Nat} {found : Bool} (ran : search queue record target fuel state = .ok (found, after)) :
    state.graph.Extends after.graph := by
  induction fuel generalizing state with
  | zero => cases ran
  | succ fuel inductionHypothesis =>
      rw [search] at ran
      cases isTop : queue.top state.processing with
      | none =>
          simp only [isTop, Except.ok.injEq, Prod.mk.injEq] at ran
          exact ran.2 ▸ .refl _
      | some top =>
          simp only [isTop] at ran
          split_ifs at ran with reached close
          · cases ran
            exact .refl _
          · obtain ⟨middle, folded, later⟩ := Outcome.of_bind ran
            have later := inductionHypothesis later
            rw [foldlM_considerSuccessor_graph folded] at later
            exact (extends_getSuccessors _ top.node).trans later
          · have later := inductionHypothesis ran
            exact later

theorem isPathExist_extends {graph : Digraph} {start : Node} {result : Bool × Digraph}
    (ran : isPathExist queue graph start target = .ok result) : graph.Extends result.2 := by
  obtain ⟨⟨found, last⟩, searched, returned⟩ := Outcome.of_bind ran
  cases returned
  exact search_extends searched

theorem shortestPath_extends {graph : Digraph} {start : Node} {result : List Node × Digraph}
    (ran : shortestPath queue graph start target = .ok result) : graph.Extends result.2 := by
  obtain ⟨⟨found, last⟩, searched, walked⟩ := Outcome.of_bind ran
  obtain ⟨path, _, returned⟩ := Outcome.of_bind walked
  cases returned
  exact search_extends searched

theorem subscript_fst (map : AList (fun _ : Node => Int)) (node : Node) :
    (subscript map node 0).1 = (map.lookup node).getD 0 := by
  rw [subscript]
  cases map.lookup node <;> rfl

theorem lookup_subscript (map : AList (fun _ : Node => Int)) (node another : Node) :
    (subscript map node 0).2.lookup another =
      if another = node then some ((map.lookup node).getD 0) else map.lookup another := by
  cases found : map.lookup node with
  | some value =>
      rw [subscript_of_lookup found]
      split_ifs with same
      · rw [same, found]
        rfl
      · rfl
  | none =>
      rw [subscript_of_missing found]
      split_ifs with same
      · rw [same, AList.lookup_insert]
        rfl
      · rw [AList.lookup_insert_ne same]

theorem subscript_agrees {map others : AList (fun _ : Node => Int)}
    (same : ∀ node ∈ nodes, others.lookup node = map.lookup node) (known : considered ∈ nodes) :
    ∀ node ∈ nodes, (subscript others considered 0).2.lookup node = (subscript map considered 0).2.lookup node := by
  intro node listed
  rw [lookup_subscript, lookup_subscript, same considered known, same node listed]

/-- The two states differ in what they store about nodes outside the set only. -/
structure Agrees (nodes : Finset Node) (state other : State queue α) : Prop where
  successors : ∀ node, other.graph.successors node = state.graph.successors node
  distances : ∀ node ∈ nodes, other.distances.lookup node = state.distances.lookup node
  processing : other.processing = state.processing
  visited : other.visited = state.visited
  actions : other.actions = state.actions

/-- The search does not leave the set. -/
structure Inside (nodes : Finset Node) (state : State queue α) : Prop where
  pending : ∀ compared ∈ pending state, compared.node ∈ nodes
  closed : ∀ node ∈ nodes, ∀ successor ∈ state.graph.successors node, successor ∈ nodes

def workLeft (nodes : Finset Node) (state : State queue α) : Nat :=
  (nodes \ state.visited).card + (pending state).card

/-- The two states go on alike, within the bound on the work that is workLeft. -/
structure Together (nodes : Finset Node) (bound : Nat) (state other : State queue α) : Prop where
  agrees : Agrees nodes state other
  inside : Inside nodes state
  bounded : workLeft nodes state ≤ bound

/-- What becomes of a successor that is discovered. -/
def discover (record : α → Node → Node → α) (considered successor : Node) (state : State queue α) (newDist : Int) :
    State queue α :=
  let seen := subscript (subscript state.distances considered 0).2 successor 0
  if newDist < seen.1 then
    { state with
      visited := insert successor state.visited
      distances := seen.2.insert successor newDist
      processing := queue.emplace state.processing ⟨successor, newDist⟩
      actions := record state.actions successor considered }
  else { state with visited := insert successor state.visited, distances := seen.2 }

theorem considerSuccessor_of_new (new : successor ∉ state.visited) :
    considerSuccessor queue record considered state successor =
      (nextDistance ((state.distances.lookup considered).getD 0) >>= fun newDist =>
        .ok (discover record considered successor state newDist)) := by
  unfold considerSuccessor discover
  simp only [if_neg new, subscript_fst]
  refine congrArg _ (funext fun newDist => ?_)
  split_ifs <;> rfl

theorem Together.discover {bound : Nat} (together : Together nodes bound state other) (known : considered ∈ nodes)
    (member : successor ∈ nodes) (new : successor ∉ state.visited) (newDist : Int) :
    Together nodes bound (discover record considered successor state newDist)
      (discover record considered successor other newDist) := by
  obtain ⟨⟨successors, distances, processing, visited, actions⟩, ⟨waiting, closed⟩, bounded⟩ := together
  have seen := subscript_agrees distances known
  have again := subscript_agrees seen member
  have fewer : (nodes \ insert successor state.visited).card + 1 = (nodes \ state.visited).card := by
    rw [Finset.sdiff_insert, Finset.card_erase_add_one (Finset.mem_sdiff.mpr ⟨member, new⟩)]
  unfold workLeft pending at bounded
  simp only [Dijkstra.discover, subscript_fst, seen successor member, processing, visited, actions]
  split_ifs
  · refine ⟨⟨successors, fun node listed => ?_, rfl, rfl, rfl⟩, ⟨fun compared queued => ?_, closed⟩, ?_⟩
    · by_cases same : node = successor
      · rw [same, AList.lookup_insert, AList.lookup_insert]
      · rw [AList.lookup_insert_ne same, AList.lookup_insert_ne same, again node listed]
    · rw [pending, queue.elements_emplace] at queued
      rcases Multiset.mem_cons.mp queued with rfl | old
      · exact member
      · exact waiting compared old
    · show (nodes \ insert successor state.visited).card +
        (queue.elements (queue.emplace state.processing ⟨successor, newDist⟩)).card ≤ bound
      rw [queue.elements_emplace, Multiset.card_cons]
      omega
  · refine ⟨⟨successors, again, rfl, rfl, rfl⟩, ⟨waiting, closed⟩, ?_⟩
    show (nodes \ insert successor state.visited).card + (queue.elements state.processing).card ≤ bound
    omega

theorem considerSuccessor_matches {bound : Nat} (together : Together nodes bound state other)
    (known : considered ∈ nodes) (member : successor ∈ nodes) :
    Matches (Together nodes bound) (considerSuccessor queue record considered state successor)
      (considerSuccessor queue record considered other successor) := by
  by_cases old : successor ∈ state.visited
  · have oldToo : successor ∈ other.visited := together.agrees.visited ▸ old
    rw [considerSuccessor, considerSuccessor, if_pos old, if_pos oldToo]
    exact together
  · have newToo : successor ∉ other.visited := together.agrees.visited ▸ old
    rw [considerSuccessor_of_new old, considerSuccessor_of_new newToo, together.agrees.distances considered known]
    cases nextDistance ((state.distances.lookup considered).getD 0) with
    | error fault => exact rfl
    | ok newDist => exact together.discover known member old newDist

theorem foldlM_matches (bound : Nat) {list : List Node} (together : Together nodes bound state other)
    (known : considered ∈ nodes) (members : ∀ successor ∈ list, successor ∈ nodes) :
    Matches (Together nodes bound) (list.foldlM (considerSuccessor queue record considered) state)
      (list.foldlM (considerSuccessor queue record considered) other) := by
  induction list generalizing state other with
  | nil => exact together
  | cons successor rest inductionHypothesis =>
      have members := List.forall_mem_cons.mp members
      rw [List.foldlM_cons, List.foldlM_cons]
      exact (considerSuccessor_matches together known members.1).bind
        fun _ _ _ next => inductionHypothesis next members.2

/-- Searches of graphs with the same edges go on alike, whatever their bounds are if they suffice. -/
theorem search_matches {fuel more : Nat} (agrees : Agrees nodes state other) (inside : Inside nodes state)
    (enough : workLeft nodes state < fuel) (plenty : workLeft nodes state < more) :
    Matches (fun first second => first.1 = second.1 ∧ Agrees nodes first.2 second.2)
      (search queue record target fuel state) (search queue record target more other) := by
  induction fuel generalizing state other more with
  | zero => omega
  | succ fuel inductionHypothesis =>
      obtain ⟨more, rfl⟩ : ∃ less, more = less + 1 := ⟨more - 1, by omega⟩
      rw [search, search, agrees.processing]
      cases isTop : queue.top state.processing with
      | none => exact ⟨rfl, agrees⟩
      | some top =>
          have queued : top ∈ queue.elements state.processing := queue.top_mem _ _ isTop
          have known := inside.pending top queued
          have popped : queue.elements (queue.pop state.processing) = (queue.elements state.processing).erase top :=
            queue.elements_pop _ _ isTop
          have fewer := Multiset.card_erase_add_one queued
          have seen := subscript_agrees agrees.distances known
          have restInside : ∀ compared ∈ queue.elements (queue.pop state.processing), compared.node ∈ nodes := by
            intro compared member
            rw [popped] at member
            exact inside.pending compared (Multiset.mem_of_mem_erase member)
          unfold workLeft pending at enough plenty
          simp only [subscript_fst, agrees.distances _ known]
          split_ifs with reached close
          · exact ⟨rfl, agrees⟩
          · have list : (other.graph.getSuccessors top.node).1 = (state.graph.getSuccessors top.node).1 := by
              rw [getSuccessors_fst, getSuccessors_fst, agrees.successors]
            rw [list]
            refine (foldlM_matches (workLeft nodes state - 1) ?_ known ?_).bind ?_
            · refine ⟨⟨fun node => ?_, seen, rfl, agrees.visited, agrees.actions⟩, ⟨restInside, fun node member successor edge => ?_⟩, ?_⟩
              · rw [successors_getSuccessors, successors_getSuccessors, agrees.successors]
              · rw [successors_getSuccessors] at edge
                exact inside.closed node member successor edge
              · show (nodes \ state.visited).card + (queue.elements (queue.pop state.processing)).card ≤ _
                rw [popped, workLeft, pending]
                omega
            · rw [getSuccessors_fst]
              exact inside.closed top.node known
            · intro first second _ together
              have bounded := together.bounded
              unfold workLeft pending at bounded
              exact inductionHypothesis together.agrees together.inside (by unfold workLeft pending; omega)
                (by unfold workLeft pending; omega)
          · refine inductionHypothesis ⟨agrees.successors, seen, rfl, agrees.visited, agrees.actions⟩
              ⟨restInside, inside.closed⟩ ?_ ?_
            all_goals
              show (nodes \ state.visited).card + (queue.elements (queue.pop state.processing)).card < _
              rw [popped]
              omega

/-- The recorded actions form a tree that holds the pending nodes. -/
structure Rooted (nodes : Finset Node) (start : Node) (state : State queue PossibleActions) (recorded : Finset Node)
    (depth : Node → Nat) : Prop where
  tree : SearchTree state.graph.successors start recorded (fun node => state.actions.lookup node) depth
  visited : recorded ⊆ state.visited
  inside : recorded ⊆ nodes
  pending : ∀ compared ∈ pending state, compared.node ∈ recorded

section Rooted

variable {start : Node} {state after : State queue PossibleActions} {recorded : Finset Node} {depth : Node → Nat}

theorem considerSuccessor_rooted (rooted : Rooted nodes start state recorded depth) (known : considered ∈ recorded)
    (member : successor ∈ nodes) (edge : successor ∈ state.graph.successors considered)
    (ran : considerSuccessor queue recordAction considered state successor = .ok after) :
    ∃ larger depth, recorded ⊆ larger ∧ Rooted nodes start after larger depth := by
  by_cases old : successor ∈ state.visited
  · rw [considerSuccessor, if_pos old] at ran
    cases ran
    exact ⟨recorded, depth, subset_rfl, rooted⟩
  · rw [considerSuccessor_of_new old] at ran
    obtain ⟨newDist, _, returned⟩ := Outcome.of_bind ran
    cases returned
    have visits : recorded ⊆ insert successor state.visited := rooted.visited.trans (Finset.subset_insert ..)
    unfold discover
    dsimp only
    split_ifs
    · have outside : successor ∉ recorded := fun listed => old (rooted.visited listed)
      refine ⟨insert successor recorded, _, Finset.subset_insert .., rooted.tree.hang known outside edge ?_, ?_, ?_, ?_⟩
      · intro node
        by_cases same : node = successor
        · rw [if_pos same, same]
          exact AList.lookup_insert _
        · rw [if_neg same]
          exact AList.lookup_insert_ne same
      · exact Finset.insert_subset_insert _ rooted.visited
      · exact Finset.insert_subset member rooted.inside
      · intro compared queued
        rw [Dijkstra.pending, queue.elements_emplace] at queued
        rcases Multiset.mem_cons.mp queued with rfl | waiting
        · exact Finset.mem_insert_self ..
        · exact Finset.mem_insert_of_mem (rooted.pending compared waiting)
    · exact ⟨recorded, depth, subset_rfl, rooted.tree, visits, rooted.inside, rooted.pending⟩

theorem foldlM_rooted {list : List Node} (rooted : Rooted nodes start state recorded depth)
    (known : considered ∈ recorded)
    (edges : ∀ successor ∈ list, successor ∈ nodes ∧ successor ∈ state.graph.successors considered)
    (ran : list.foldlM (considerSuccessor queue recordAction considered) state = .ok after) :
    ∃ larger depth, Rooted nodes start after larger depth := by
  induction list generalizing state recorded depth with
  | nil =>
      cases ran
      exact ⟨recorded, depth, rooted⟩
  | cons successor rest inductionHypothesis =>
      have edges := List.forall_mem_cons.mp edges
      rw [List.foldlM_cons] at ran
      obtain ⟨middle, first, later⟩ := Outcome.of_bind ran
      obtain ⟨larger, deeper, grows, rooted⟩ := considerSuccessor_rooted rooted known edges.1.1 edges.1.2 first
      refine inductionHypothesis rooted (grows known) (fun successor listed => ?_) later
      rw [considerSuccessor_graph first]
      exact edges.2 successor listed

theorem search_rooted {fuel : Nat} {found : Bool} (rooted : Rooted nodes start state recorded depth)
    (closed : ∀ node ∈ nodes, ∀ successor ∈ state.graph.successors node, successor ∈ nodes)
    (ran : search queue recordAction target fuel state = .ok (found, after)) :
    ∃ larger depth, Rooted nodes start after larger depth := by
  induction fuel generalizing state recorded depth with
  | zero => cases ran
  | succ fuel inductionHypothesis =>
      rw [search] at ran
      cases isTop : queue.top state.processing with
      | none =>
          simp only [isTop, Except.ok.injEq, Prod.mk.injEq] at ran
          exact ⟨recorded, depth, ran.2 ▸ rooted⟩
      | some top =>
          have known := rooted.pending top (queue.top_mem _ _ isTop)
          have rest : ∀ compared ∈ queue.elements (queue.pop state.processing), compared.node ∈ recorded := by
            intro compared member
            rw [queue.elements_pop _ _ isTop] at member
            exact rooted.pending compared (Multiset.mem_of_mem_erase member)
          simp only [isTop] at ran
          split_ifs at ran with reached close
          · cases ran
            exact ⟨recorded, depth, rooted⟩
          · have edges : (state.graph.getSuccessors top.node).2.successors = state.graph.successors :=
              funext (successors_getSuccessors state.graph top.node)
            obtain ⟨middle, folded, later⟩ := Outcome.of_bind ran
            have popped : Rooted nodes start
                { state with
                  graph := (state.graph.getSuccessors top.node).2
                  distances := (subscript state.distances top.node 0).2
                  processing := queue.pop state.processing } recorded depth :=
              ⟨edges ▸ rooted.tree, rooted.visited, rooted.inside, rest⟩
            have members : ∀ successor ∈ (state.graph.getSuccessors top.node).1, successor ∈ nodes ∧
                successor ∈ (state.graph.getSuccessors top.node).2.successors top.node := by
              intro successor edge
              rw [getSuccessors_fst] at edge
              exact ⟨closed top.node (rooted.inside known) successor edge, edges ▸ edge⟩
            obtain ⟨larger, deeper, rooted⟩ := foldlM_rooted popped known members folded
            refine inductionHypothesis rooted ?_ later
            rw [foldlM_considerSuccessor_graph folded]
            exact edges ▸ closed
          · have skipped : Rooted nodes start { state with
                distances := (subscript state.distances top.node 0).2
                processing := queue.pop state.processing } recorded depth :=
              ⟨rooted.tree, rooted.visited, rooted.inside, rest⟩
            exact inductionHypothesis skipped closed ran

/-- The walk back ends within the number of nodes. -/
theorem followBack_rooted (rooted : Rooted nodes start state recorded depth) (target : Node) :
    ∃ path, ∀ fuel, nodes.card < fuel → followBack state.actions start fuel [target] = .ok path := by
  by_cases member : target ∈ recorded
  · obtain ⟨path, tracked, _, nodup, _, members⟩ := rooted.tree.path member
    have few := Finset.card_le_card (fun node listed => rooted.inside (members node (List.mem_toFinset.mp listed)).1 :
      path.toFinset ⊆ nodes)
    rw [List.toFinset_card_of_nodup nodup] at few
    exact ⟨path ++ [], fun fuel enough => followBack_tracked tracked [] (few.trans enough.le)⟩
  · have other : target ≠ start := fun same => member (same ▸ rooted.tree.startVisited)
    refine ⟨[target], fun fuel enough => ?_⟩
    obtain ⟨fuel, rfl⟩ : ∃ less, fuel = less + 1 := ⟨fuel - 1, by omega⟩
    have unknown := rooted.tree.unvisited target member
    rw [followBack, if_neg other]
    simp only [unknown]

end Rooted

section Answers

variable {graph larger : Digraph} {start : Node}

theorem mem_nodesFrom (graph : Digraph) (start node : Node) :
    node ∈ graph.nodesFrom start ↔ node = start ∨ ∃ source, node ∈ graph.successors source := by
  rw [nodesFrom, Finset.mem_insert, List.mem_toFinset, List.mem_flatMap]
  refine or_congr_right ⟨fun ⟨source, _, edge⟩ => ⟨source, edge⟩, fun ⟨source, edge⟩ => ⟨source, ?_, edge⟩⟩
  by_contra missing
  rw [successors_of_no_entry missing] at edge
  cases edge

theorem nodesFrom_extends (extended : graph.Extends larger) (start : Node) :
    larger.nodesFrom start = graph.nodesFrom start := by
  ext node
  rw [mem_nodesFrom, mem_nodesFrom, funext extended.successors]

theorem nodesFrom_card_lt (graph : Digraph) (start : Node) : (graph.nodesFrom start).card < graph.searchBound := by
  have few := (Finset.card_insert_le start (graph.graph.keys.flatMap graph.successors).toFinset).trans
    (Nat.succ_le_succ (List.toFinset_card_le _))
  rw [searchBound, nodesFrom]
  omega

theorem initial_lookup (graph : Digraph) (start node : Node) (actions : α) :
    (initial queue graph start actions).distances.lookup node =
      if node = start then some 0 else if graph.HasEntry node then some maxDistance else none := by
  rw [initial]
  split_ifs with same present
  · rw [same]
    exact AList.lookup_insert _
  · rw [AList.lookup_insert_ne same, initDistances, Digraph.visit, foldl_insert_lookup,
      if_pos (AList.mem_keys.mp present)]
  · rw [AList.lookup_insert_ne same, initDistances, Digraph.visit, foldl_insert_lookup,
      if_neg (fun member => present (AList.mem_keys.mpr member)), AList.lookup_empty]

theorem initial_pending (graph : Digraph) (start : Node) (actions : α) :
    pending (initial queue graph start actions) = {⟨start, 0⟩} := by
  rw [pending, initial, queue.elements_emplace, queue.elements_empty]
  rfl

/-- Entries of nodes that no edge leads to are never read. -/
theorem initial_agrees (complete : Complete graph) (extended : graph.Extends larger) (start : Node) (actions : α) :
    Agrees (graph.nodesFrom start) (initial queue graph start actions) (initial queue larger start actions) where
  successors := extended.successors
  distances node member := by
    rw [initial_lookup, initial_lookup]
    split_ifs with same more less less
    · rfl
    · rfl
    · obtain ⟨source, edge⟩ := ((mem_nodesFrom graph start node).mp member).resolve_left same
      exact absurd (complete source node edge) less
    · exact absurd (extended.entries node less) more
    · rfl
  processing := rfl
  visited := rfl
  actions := rfl

theorem initial_inside (graph : Digraph) (start : Node) (actions : α) :
    Inside (graph.nodesFrom start) (initial queue graph start actions) where
  pending compared member := by
    rw [initial_pending, Multiset.mem_singleton] at member
    exact member ▸ (graph.nodesFrom_universe start).startInside
  closed := (graph.nodesFrom_universe start).closed

theorem initial_left (graph : Digraph) (start : Node) (actions : α) :
    workLeft (graph.nodesFrom start) (initial queue graph start actions) < graph.searchBound := by
  have bounded := graph.remaining_lt_searchBound start
  rw [workLeft, initial_pending]
  exact bounded

theorem search_answers (complete : Complete graph) (extended : graph.Extends larger) (actions : α) :
    Matches (fun first second => first.1 = second.1 ∧ Agrees (graph.nodesFrom start) first.2 second.2)
      (search queue record target graph.searchBound (initial queue graph start actions))
      (search queue record target larger.searchBound (initial queue larger start actions)) := by
  refine search_matches (initial_agrees complete extended start actions) (initial_inside graph start actions)
    (initial_left graph start actions) ?_
  have bounded : workLeft (larger.nodesFrom start) (initial queue larger start actions) < larger.searchBound :=
    initial_left larger start actions
  rw [nodesFrom_extends extended, workLeft, initial_pending] at bounded
  rw [workLeft, initial_pending]
  exact bounded

theorem answer_isPathExist (complete : Complete graph) (extended : graph.Extends larger) :
    (isPathExist queue larger start target).map Prod.fst = (isPathExist queue graph start target).map Prod.fst := by
  refine Matches.map_fst ?_ (fun _ _ => id : ∀ first second : Bool × Digraph, first.1 = second.1 → _)
  exact (search_answers complete extended ()).bind fun _ _ _ => And.left

theorem initial_rooted (graph : Digraph) (start : Node) :
    Rooted (graph.nodesFrom start) start (initial queue graph start (AList.singleton start start)) {start}
      fun _ => 0 where
  tree := .single fun _ other => by
    show (AList.singleton start start : PossibleActions).lookup _ = none
    rw [← AList.insert_empty, AList.lookup_insert_ne other, AList.lookup_empty]
  visited := subset_rfl
  inside := Finset.singleton_subset_iff.mpr (graph.nodesFrom_universe start).startInside
  pending compared member := by
    rw [initial_pending, Multiset.mem_singleton] at member
    exact member ▸ Finset.mem_singleton_self start

theorem answer_shortestPath (complete : Complete graph) (extended : graph.Extends larger) :
    (shortestPath queue larger start target).map Prod.fst = (shortestPath queue graph start target).map Prod.fst := by
  refine Matches.map_fst ?_ (fun _ _ => id : ∀ first second : List Node × Digraph, first.1 = second.1 → _)
  refine (search_answers complete extended _).bind fun first second ran same => ?_
  obtain ⟨recorded, depth, rooted⟩ := search_rooted (initial_rooted graph start)
    (graph.nodesFrom_universe start).closed ran
  obtain ⟨path, walked⟩ := followBack_rooted rooted target
  have walkedLater := walked larger.searchBound (nodesFrom_extends extended start ▸ nodesFrom_card_lt larger start)
  simp only [same.2.actions, walked _ (nodesFrom_card_lt graph start), walkedLater, Outcome.ok_bind]
  exact rfl

end Answers

end Dsac.Graph.Dijkstra

import Dsac.Memory

namespace Dsac.Graph

open Dsac.Library

/-! `dsac::directed_graph`. -/

/-- `directed_graph_semantic`. -/
class Semantic (α : Type) (Key : outParam Type) where
  getKey : α → Key

structure ProxyNode (N : Type) where
  node : N
  edges : List Addr := []
deriving DecidableEq, Repr

structure ProxyEdge (E : Type) where
  edge : E
  source : Addr
  target : Addr
deriving DecidableEq, Repr

structure DirectedGraph (N E NodeKey EdgeKey : Type) where
  nodes : AList (fun _ : NodeKey => Addr) := ∅
  edges : AList (fun _ : EdgeKey => Addr) := ∅
  nodeHeap : Heap (ProxyNode N) := {}
  edgeHeap : Heap (ProxyEdge E) := {}

namespace DirectedGraph

variable {N E NodeKey EdgeKey : Type} [DecidableEq NodeKey] [DecidableEq EdgeKey] [Semantic N NodeKey]
  [Semantic E EdgeKey]

def insertNode (graph : DirectedGraph N E NodeKey EdgeKey) (node : N) :
    (Addr × Bool) × DirectedGraph N E NodeKey EdgeKey :=
  let key := Semantic.getKey node
  match graph.nodes.lookup key with
  | some pointer => ((pointer, false), graph)
  | none =>
      let pointer := graph.nodeHeap.fresh
      ((pointer, true),
        { graph with
          nodeHeap := graph.nodeHeap.alloc { node }
          nodes := graph.nodes.insert key pointer })

def getNode (graph : DirectedGraph N E NodeKey EdgeKey) (key : NodeKey) : Option Addr := graph.nodes.lookup key

def insertDirectEdge (graph : DirectedGraph N E NodeKey EdgeKey) (source target : Addr) (edge : E) :
    Outcome ((Addr × Bool) × DirectedGraph N E NodeKey EdgeKey) :=
  if source = target then
    .error .loopsNotSupported
  else
    let key := Semantic.getKey edge
    match graph.edges.lookup key with
    | some pointer => .ok ((pointer, false), graph)
    | none => do
        let pointer := graph.edgeHeap.fresh
        let nodeHeap ← modify graph.nodeHeap (some source) fun node =>
          { node with edges := node.edges ++ [pointer] }
        .ok ((pointer, true),
          { graph with
            nodeHeap
            edgeHeap := graph.edgeHeap.alloc { edge, source, target }
            edges := graph.edges.insert key pointer })

/-- The edge that a pointer in the edge list of a node leads to. -/
def edgeAt (graph : DirectedGraph N E NodeKey EdgeKey) (source target pointer : Addr) : Bool :=
  (graph.edgeHeap.get pointer).any fun edge => edge.source = source ∧ edge.target = target

/-- The number of edges from one node to another in the edge list of the first. -/
def edgeCount (graph : DirectedGraph N E NodeKey EdgeKey) (source target : NodeKey) : Nat :=
  match graph.getNode source, graph.getNode target with
  | some source, some target =>
      (((graph.nodeHeap.get source).map ProxyNode.edges).getD []).countP (graph.edgeAt source target)
  | _, _ => 0

/-! The contents of a graph: the keys of its nodes and its edges, both in the order of
insertion, which is the order of their addresses. -/

structure Arc (NodeKey EdgeKey : Type) where
  source : NodeKey
  target : NodeKey
  key : EdgeKey
deriving DecidableEq

def outgoing (arcs : List (Arc NodeKey EdgeKey)) (key : NodeKey) : List Addr :=
  (arcs.zipIdx.filter fun arc => arc.1.source = key).map Prod.snd

structure Stores (graph : DirectedGraph N E NodeKey EdgeKey) (keys : List NodeKey)
    (arcs : List (Arc NodeKey EdgeKey)) : Prop where
  nodup : keys.Nodup
  nodes : ∀ key address, graph.nodes.lookup key = some address ↔ keys[address]? = some key
  edges : ∀ key address, graph.edges.lookup key = some address ↔ ∃ arc, arcs[address]? = some arc ∧ arc.key = key
  proxyNode : ∀ address key, keys[address]? = some key →
    ∃ node, Semantic.getKey node = key ∧ graph.nodeHeap.get address = some ⟨node, outgoing arcs key⟩
  proxyEdge : ∀ address arc, arcs[address]? = some arc →
    ∃ edge source target, Semantic.getKey edge = arc.key ∧ keys[source]? = some arc.source ∧
      keys[target]? = some arc.target ∧ graph.edgeHeap.get address = some ⟨edge, source, target⟩
  freshNode : graph.nodeHeap.fresh = keys.length
  freshEdge : graph.edgeHeap.fresh = arcs.length

theorem Stores.empty : Stores ({} : DirectedGraph N E NodeKey EdgeKey) [] [] where
  nodup := List.nodup_nil
  nodes := by simp
  edges := by simp
  proxyNode := by simp
  proxyEdge := by simp
  freshNode := rfl
  freshEdge := rfl

def insertKey (keys : List NodeKey) (key : NodeKey) : List NodeKey :=
  if key ∈ keys then keys else keys ++ [key]

def insertArc (arcs : List (Arc NodeKey EdgeKey)) (arc : Arc NodeKey EdgeKey) : List (Arc NodeKey EdgeKey) :=
  if arc.key ∈ arcs.map Arc.key then arcs else arcs ++ [arc]

variable {graph : DirectedGraph N E NodeKey EdgeKey} {keys : List NodeKey} {arcs : List (Arc NodeKey EdgeKey)}

omit [DecidableEq EdgeKey] in
theorem outgoing_append (arcs : List (Arc NodeKey EdgeKey)) (arc : Arc NodeKey EdgeKey) (key : NodeKey) :
    outgoing (arcs ++ [arc]) key = outgoing arcs key ++ if arc.source = key then [arcs.length] else [] := by
  rw [outgoing, outgoing, List.zipIdx_append, List.filter_append, List.map_append]
  split
  next same => simp [same]
  next other => simp [other]

omit [DecidableEq EdgeKey] in
theorem outgoing_of_not_mem {key : NodeKey} (outside : ∀ arc ∈ arcs, arc.source ≠ key) : outgoing arcs key = [] := by
  rw [outgoing, List.map_eq_nil_iff, List.filter_eq_nil_iff]
  intro arc member
  simpa using outside arc.1 (List.fst_mem_of_mem_zipIdx member)

theorem Stores.source_mem (stores : Stores graph keys arcs) {arc : Arc NodeKey EdgeKey} (member : arc ∈ arcs) :
    arc.source ∈ keys := by
  obtain ⟨address, here⟩ := List.mem_iff_getElem?.mp member
  obtain ⟨_, source, _, _, found, _, _⟩ := stores.proxyEdge address arc here
  exact List.mem_of_getElem? found

theorem Stores.target_mem (stores : Stores graph keys arcs) {arc : Arc NodeKey EdgeKey} (member : arc ∈ arcs) :
    arc.target ∈ keys := by
  obtain ⟨address, here⟩ := List.mem_iff_getElem?.mp member
  obtain ⟨_, _, target, _, _, found, _⟩ := stores.proxyEdge address arc here
  exact List.mem_of_getElem? found

theorem getElem?_push {α : Type} (values : List α) (value other : α) (index : Nat) :
    (values ++ [value])[index]? = some other ↔
      values[index]? = some other ∨ index = values.length ∧ value = other := by
  rcases Nat.lt_trichotomy index values.length with inside | rfl | beyond
  · have different : index ≠ values.length := Nat.ne_of_lt inside
    simp [List.getElem?_append_left inside, different]
  · simp
  · have different : index ≠ values.length := Nat.ne_of_gt beyond
    have outside : values.length + 1 ≤ index := beyond
    rw [List.getElem?_eq_none (by simpa using outside), List.getElem?_eq_none (Nat.le_of_lt beyond)]
    simp [different]

/-- `insert_node` returns the node of the key, which it adds if there is none. -/
theorem Stores.insertNode (stores : Stores graph keys arcs) (node : N) :
    ∃ address inserted next, graph.insertNode node = ((address, inserted), next) ∧
      Stores next (insertKey keys (Semantic.getKey node)) arcs ∧
      (insertKey keys (Semantic.getKey node))[address]? = some (Semantic.getKey node) := by
  cases found : graph.nodes.lookup (Semantic.getKey node) with
  | some address =>
      have here := (stores.nodes _ _).mp found
      have listed : Semantic.getKey node ∈ keys := List.mem_of_getElem? here
      rw [insertKey, if_pos listed]
      refine ⟨address, false, graph, ?_, stores, here⟩
      simp only [DirectedGraph.insertNode, found]
  | none =>
      have unlisted : Semantic.getKey node ∉ keys := by
        intro listed
        obtain ⟨address, here⟩ := List.mem_iff_getElem?.mp listed
        rw [(stores.nodes _ _).mpr here] at found
        cases found
      rw [insertKey, if_neg unlisted]
      refine ⟨graph.nodeHeap.fresh, true, _, by simp only [DirectedGraph.insertNode, found]; rfl, ?_, ?_⟩
      · constructor
        case nodup =>
          rw [← List.concat_eq_append]
          exact stores.nodup.concat unlisted
        case nodes =>
          intro key address
          rw [getElem?_push, ← stores.nodes]
          by_cases same : key = Semantic.getKey node
          · subst same
            simp [found, stores.freshNode, eq_comm]
          · simp [AList.lookup_insert_ne same, Ne.symm same]
        case edges => exact stores.edges
        case proxyNode =>
          intro address key here
          rcases (getElem?_push _ _ _ _).mp here with old | ⟨rfl, rfl⟩
          · obtain ⟨stored, same, live⟩ := stores.proxyNode address key old
            exact ⟨stored, same, by rw [Heap.get_alloc_of_ne (Heap.get_ne_fresh live), live]⟩
          · refine ⟨node, rfl, ?_⟩
            have lonely : outgoing arcs (Semantic.getKey node) = [] := outgoing_of_not_mem fun arc member same =>
              unlisted (same ▸ stores.source_mem member)
            rw [lonely, ← stores.freshNode, Heap.get_alloc_fresh]
        case proxyEdge =>
          intro address arc here
          obtain ⟨edge, source, target, same, from', to', live⟩ := stores.proxyEdge address arc here
          exact ⟨edge, source, target, same, (getElem?_push _ _ _ _).mpr (Or.inl from'),
            (getElem?_push _ _ _ _).mpr (Or.inl to'), live⟩
        case freshNode => simp [stores.freshNode]
        case freshEdge => exact stores.freshEdge
      · rw [stores.freshNode]
        simp

/-- `insert_direct_edge` between two different nodes adds the edge unless its key is taken. -/
theorem Stores.insertDirectEdge (stores : Stores graph keys arcs) {source target : Addr} {a b : NodeKey}
    (starts : keys[source]? = some a) (ends : keys[target]? = some b) (different : a ≠ b) (edge : E) :
    ∃ result next, graph.insertDirectEdge source target edge = .ok (result, next) ∧
      Stores next keys (insertArc arcs ⟨a, b, Semantic.getKey edge⟩) := by
  have apart : source ≠ target := by
    rintro rfl
    exact different (Option.some.inj (starts.symm.trans ends))
  cases found : graph.edges.lookup (Semantic.getKey edge) with
  | some address =>
      obtain ⟨arc, here, same⟩ := (stores.edges _ _).mp found
      have listed : Semantic.getKey edge ∈ arcs.map Arc.key :=
        List.mem_map.mpr ⟨arc, List.mem_of_getElem? here, same⟩
      rw [insertArc, if_pos listed]
      refine ⟨(address, false), graph, ?_, stores⟩
      simp only [DirectedGraph.insertDirectEdge, if_neg apart, found]
  | none =>
      have unlisted : Semantic.getKey edge ∉ arcs.map Arc.key := by
        intro listed
        obtain ⟨arc, member, same⟩ := List.mem_map.mp listed
        obtain ⟨address, here⟩ := List.mem_iff_getElem?.mp member
        rw [(stores.edges _ _).mpr ⟨arc, here, same⟩] at found
        cases found
      obtain ⟨node, sameKey, live⟩ := stores.proxyNode source a starts
      rw [insertArc, if_neg unlisted]
      refine ⟨_, _, by
        simp only [DirectedGraph.insertDirectEdge, if_neg apart, found, modify_of_get _ live]; rfl, ?_⟩
      constructor
      case nodup => exact stores.nodup
      case nodes => exact stores.nodes
      case edges =>
        intro key address
        by_cases same : key = Semantic.getKey edge
        · subst same
          rw [AList.lookup_insert]
          constructor
          · intro here
            cases here
            exact ⟨_, (getElem?_push _ _ _ _).mpr (Or.inr ⟨stores.freshEdge, rfl⟩), rfl⟩
          · rintro ⟨arc, here, same⟩
            rcases (getElem?_push _ _ _ _).mp here with old | ⟨rfl, _⟩
            · exact absurd (List.mem_map.mpr ⟨arc, List.mem_of_getElem? old, same⟩) unlisted
            · rw [stores.freshEdge]
        · rw [AList.lookup_insert_ne same, stores.edges]
          constructor
          · rintro ⟨arc, here, keyed⟩
            exact ⟨arc, (getElem?_push _ _ _ _).mpr (Or.inl here), keyed⟩
          · rintro ⟨arc, here, keyed⟩
            rcases (getElem?_push _ _ _ _).mp here with old | ⟨_, rfl⟩
            · exact ⟨arc, old, keyed⟩
            · exact absurd keyed.symm same
      case proxyNode =>
        intro address key here
        rw [outgoing_append]
        by_cases same : address = source
        · subst same
          cases starts.symm.trans here
          refine ⟨node, sameKey, ?_⟩
          rw [Heap.get_set_self (Heap.lt_fresh_of_get live), if_pos rfl, stores.freshEdge]
        · have other : a ≠ key := by
            rintro rfl
            have inside : address < keys.length := (List.getElem?_eq_some_iff.mp here).1
            exact same ((List.getElem?_inj inside stores.nodup).mp (here.trans starts.symm))
          obtain ⟨stored, keyed, there⟩ := stores.proxyNode address key here
          refine ⟨stored, keyed, ?_⟩
          rw [Heap.get_set_of_ne same, if_neg other, List.append_nil, there]
      case proxyEdge =>
        intro address arc here
        rcases (getElem?_push _ _ _ _).mp here with old | ⟨rfl, rfl⟩
        · obtain ⟨stored, first, last, keyed, starts, ends, there⟩ := stores.proxyEdge address arc old
          exact ⟨stored, first, last, keyed, starts, ends, by rw [Heap.get_alloc_of_ne (Heap.get_ne_fresh there), there]⟩
        · refine ⟨edge, source, target, rfl, starts, ends, ?_⟩
          rw [← stores.freshEdge, Heap.get_alloc_fresh]
      case freshNode => simp [stores.freshNode]
      case freshEdge => simp [stores.freshEdge]

omit [DecidableEq EdgeKey] in
theorem getElem?_insertKey {keys : List NodeKey} {address : Addr} {name : NodeKey} (key : NodeKey)
    (here : keys[address]? = some name) : (insertKey keys key)[address]? = some name := by
  by_cases listed : key ∈ keys
  · rw [insertKey, if_pos listed, here]
  · rw [insertKey, if_neg listed]
    exact (getElem?_push _ _ _ _).mpr (Or.inl here)

theorem Stores.getNode (stores : Stores graph keys arcs) (key : NodeKey) :
    graph.getNode key = none ↔ key ∉ keys := by
  rw [DirectedGraph.getNode, Option.eq_none_iff_forall_ne_some]
  simp only [ne_eq, stores.nodes, List.mem_iff_getElem?, not_exists]

theorem Stores.edgeAt (stores : Stores graph keys arcs) {a b : NodeKey} {source target address : Addr}
    {arc : Arc NodeKey EdgeKey} (starts : keys[source]? = some a) (ends : keys[target]? = some b)
    (here : arcs[address]? = some arc) :
    graph.edgeAt source target address = decide (arc.source = a ∧ arc.target = b) := by
  obtain ⟨edge, first, last, _, from', to', live⟩ := stores.proxyEdge address arc here
  have unique : ∀ {position other : Addr} {key name : NodeKey}, keys[position]? = some key →
      keys[other]? = some name → (position = other ↔ key = name) := by
    intro position other key name one two
    constructor
    · rintro rfl
      exact Option.some.inj (one.symm.trans two)
    · rintro rfl
      have inside : position < keys.length := (List.getElem?_eq_some_iff.mp one).1
      exact (List.getElem?_inj inside stores.nodup).mp (one.trans two.symm)
  rw [DirectedGraph.edgeAt, live, Option.any_some]
  simp only [unique from' starts, unique to' ends]

/-- The edge lists hold the inserted edges. -/
theorem Stores.edgeCount (stores : Stores graph keys arcs) (a b : NodeKey) :
    graph.edgeCount a b = arcs.countP fun arc => arc.source = a ∧ arc.target = b := by
  by_cases known : a ∈ keys ∧ b ∈ keys
  · obtain ⟨source, starts⟩ := List.mem_iff_getElem?.mp known.1
    obtain ⟨target, ends⟩ := List.mem_iff_getElem?.mp known.2
    obtain ⟨node, _, live⟩ := stores.proxyNode source a starts
    have sourceNode : graph.getNode a = some source := (stores.nodes _ _).mpr starts
    have targetNode : graph.getNode b = some target := (stores.nodes _ _).mpr ends
    have each : ∀ entry ∈ arcs.zipIdx, graph.edgeAt source target entry.2 =
        decide (entry.1.source = a ∧ entry.1.target = b) := by
      intro entry member
      exact stores.edgeAt starts ends (List.mem_zipIdx_iff_getElem?.mp member)
    simp only [DirectedGraph.edgeCount, sourceNode, targetNode, live, Option.map_some, Option.getD_some, outgoing,
      List.countP_map, List.countP_filter]
    calc arcs.zipIdx.countP (fun entry => (graph.edgeAt source target ∘ Prod.snd) entry && decide (entry.1.source = a))
        = arcs.zipIdx.countP ((fun arc => decide (arc.source = a ∧ arc.target = b)) ∘ Prod.fst) := by
          apply List.countP_congr
          intro entry member
          simp only [Function.comp_apply, each entry member, Bool.and_eq_true, decide_eq_true_eq]
          tauto
      _ = arcs.countP fun arc => arc.source = a ∧ arc.target = b := by
          rw [← List.countP_map, List.zipIdx_map_fst]
  · have missing : graph.edgeCount a b = 0 := by
      rw [DirectedGraph.edgeCount]
      rcases not_and_or.mp known with outside | outside
      · rw [(stores.getNode a).mpr outside]
      · rw [(stores.getNode b).mpr outside]
        cases graph.getNode a
        all_goals rfl
    rw [missing, eq_comm, List.countP_eq_zero]
    intro arc member found
    simp only [decide_eq_true_eq] at found
    exact known ⟨found.1 ▸ stores.source_mem member, found.2 ▸ stores.target_mem member⟩

end DirectedGraph

end Dsac.Graph

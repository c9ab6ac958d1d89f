import Dsac.Container.Graph.ReadGraphviz.Outcomes

namespace Dsac.Graphviz

open Dsac.Graph (Semantic DirectedGraph)
open Grammar

/-! Graphs whose statements are chains of node statements joined by `->`. -/

namespace Grammar

def Chain.Directed : Chain Node → Prop
  | last _ => True
  | link _ connection others => connection = .direct ∧ others.Directed

def Chain.first : Chain Node → Node
  | last operand => operand
  | link operand _ _ => operand

/-- The neighbours in a chain, in the order of the text. -/
def Chain.neighbours : Chain Node → List (Node × Node)
  | last _ => []
  | link operand _ others => (operand, others.first) :: others.neighbours

/-- The names that are adjacent in some chain. -/
def Graph.adjacent (tree : Graph Node) : List (Text × Text) :=
  (tree.statements.flatMap Chain.neighbours).map fun pair => (pair.1.name, pair.2.name)

structure Graph.Digraph (tree : Graph Node) : Prop where
  kind : tree.kind = .direct
  directed : ∀ chain ∈ tree.statements, chain.Directed
  loopless : ∀ pair ∈ tree.adjacent, pair.1 ≠ pair.2

end Grammar

/-- The name that `read_graphviz` gives to the edge between two nodes. -/
def edgeKey (pair : Text × Text) : Text := pair.1 ++ '_' :: pair.2

def asLink (pair : Node × Node) : Link := (some pair.1.toAst, some pair.2.toAst)

theorem head_of_chain {chain : Chain Node} (directed : chain.Directed) :
    (chain.map some).toAst.head = some chain.first.toAst := by
  cases chain with
  | last operand => rfl
  | link operand connection others =>
      obtain ⟨rfl, _⟩ := directed
      rfl

/-- The edges of a chain are processed from the right. -/
theorem arcs_of_chain {chain : Chain Node} (directed : chain.Directed) :
    (chain.map some).toAst.arcs = chain.neighbours.reverse.map asLink := by
  induction chain with
  | last operand => rfl
  | link operand connection others ih =>
      obtain ⟨rfl, rest⟩ := directed
      have inner := ih rest
      have head := head_of_chain rest
      simp only [Chain.map, Chain.toAst, Ast.Statement.arcs, inner, head, Chain.neighbours, List.reverse_cons,
        List.map_append]
      rfl

/-- The neighbours of a graph in the order in which their edges are processed. -/
def processed (tree : Graph Node) : List (Node × Node) :=
  tree.statements.flatMap fun chain => chain.neighbours.reverse

theorem arcs_of_chains {chains : List (Chain Node)} (directed : ∀ chain ∈ chains, chain.Directed) :
    ((chains.map (·.map some)).map Chain.toAst).flatMap Ast.Statement.arcs =
      (chains.flatMap fun chain => chain.neighbours.reverse).map asLink := by
  induction chains with
  | nil => rfl
  | cons chain chains ih =>
      have directed := List.forall_mem_cons.mp directed
      simp only [List.map_cons, List.flatMap_cons, List.map_append, arcs_of_chain directed.1, ih directed.2]

theorem links_of_digraph {tree : Graph Node} (digraph : tree.Digraph) :
    links (tree.map some) = (processed tree).map asLink := arcs_of_chains digraph.directed

theorem mem_adjacent {tree : Graph Node} {pair : Text × Text} :
    pair ∈ tree.adjacent ↔ ∃ nodes ∈ processed tree, (nodes.1.name, nodes.2.name) = pair := by
  simp [Graph.adjacent, processed]

/-- The edges that are left of a list of neighbours: an edge whose key is taken is dropped. -/
def kept (arcs : List (DirectedGraph.Arc Text Text)) (pairs : List (Node × Node)) :
    List (DirectedGraph.Arc Text Text) :=
  pairs.foldl (fun arcs pair => DirectedGraph.insertArc arcs (arcOf pair.1.toAst pair.2.toAst)) arcs

/-- The keys of the nodes after the edges of a list of neighbours are inserted. -/
def named (keys : List Text) (pairs : List (Node × Node)) : List Text :=
  pairs.foldl (fun keys pair => DirectedGraph.insertKey (DirectedGraph.insertKey keys pair.1.name) pair.2.name) keys

section

variable {N E : Type} [Entity N] [Entity E] {graph : ReadGraph N E} {keys : List Text}
  {arcs : List (DirectedGraph.Arc Text Text)}

theorem linkAll_of_loopless (stores : DirectedGraph.Stores graph keys arcs) {pairs : List (Node × Node)}
    (loopless : ∀ pair ∈ pairs, pair.1.name ≠ pair.2.name) :
    ∃ next, linkAll graph (pairs.map asLink) = .ok next ∧
      DirectedGraph.Stores next (named keys pairs) (kept arcs pairs) := by
  induction pairs generalizing graph keys arcs with
  | nil => exact ⟨graph, rfl, stores⟩
  | cons pair pairs ih =>
      have apart := List.forall_mem_cons.mp loopless
      rcases linkNodes_of_stores stores pair.1.toAst pair.2.toAst with ⟨same, _⟩ | ⟨_, next, linked, nextStores⟩
      · exact absurd same apart.1
      · obtain ⟨last, all, lastStores⟩ := ih nextStores apart.2
        refine ⟨last, ?_, lastStores⟩
        rw [List.map_cons, asLink, linkAll, linked]
        exact all

end

theorem nodup_insertArc {arcs : List (DirectedGraph.Arc Text Text)} (nodup : (arcs.map DirectedGraph.Arc.key).Nodup)
    (arc : DirectedGraph.Arc Text Text) :
    ((DirectedGraph.insertArc arcs arc).map DirectedGraph.Arc.key).Nodup := by
  by_cases taken : arc.key ∈ arcs.map DirectedGraph.Arc.key
  · rw [DirectedGraph.insertArc, if_pos taken]
    exact nodup
  · rw [DirectedGraph.insertArc, if_neg taken, List.map_append, List.map_singleton, ← List.concat_eq_append]
    exact nodup.concat taken

/-- The kept edges have different keys, each of them is asked for, and every edge that is
asked for finds its key taken. -/
structure Keeps (arcs : List (DirectedGraph.Arc Text Text)) (pairs : List (Node × Node)) : Prop where
  nodup : (arcs.map DirectedGraph.Arc.key).Nodup
  asked : ∀ arc ∈ arcs, ∃ pair ∈ pairs, arc = arcOf pair.1.toAst pair.2.toAst
  taken : ∀ pair ∈ pairs, (arcOf pair.1.toAst pair.2.toAst).key ∈ arcs.map DirectedGraph.Arc.key

theorem Keeps.push {arcs : List (DirectedGraph.Arc Text Text)} {pairs : List (Node × Node)} (keeps : Keeps arcs pairs)
    (pair : Node × Node) :
    Keeps (DirectedGraph.insertArc arcs (arcOf pair.1.toAst pair.2.toAst)) (pairs ++ [pair]) := by
  have old : ∀ arc ∈ arcs, ∃ other ∈ pairs ++ [pair], arc = arcOf other.1.toAst other.2.toAst := by
    intro arc member
    obtain ⟨other, listed, same⟩ := keeps.asked arc member
    exact ⟨other, List.mem_append_left _ listed, same⟩
  refine ⟨nodup_insertArc keeps.nodup _, ?_, ?_⟩
  · intro arc member
    rw [DirectedGraph.insertArc] at member
    split at member
    · exact old arc member
    · rcases List.mem_append.mp member with earlier | new
      · exact old arc earlier
      · exact ⟨pair, by simp, List.mem_singleton.mp new⟩
  · intro other member
    rw [DirectedGraph.insertArc]
    split
    next taken =>
      rcases List.mem_append.mp member with earlier | new
      · exact keeps.taken other earlier
      · rw [List.mem_singleton.mp new]
        exact taken
    next free =>
      rw [List.map_append, List.mem_append]
      rcases List.mem_append.mp member with earlier | new
      · exact Or.inl (keeps.taken other earlier)
      · rw [List.mem_singleton.mp new]
        exact Or.inr (List.mem_singleton.mpr rfl)

theorem keeps_kept (pairs : List (Node × Node)) : Keeps (kept [] pairs) pairs := by
  induction pairs using List.reverseRecOn with
  | nil => exact ⟨List.nodup_nil, by simp [kept], by simp⟩
  | append_singleton pairs pair ih =>
      rw [kept, List.foldl_append]
      exact ih.push pair

theorem Keeps.count_le_one {arcs : List (DirectedGraph.Arc Text Text)} {pairs : List (Node × Node)}
    (keeps : Keeps arcs pairs) (a b : Text) :
    (arcs.countP fun arc => arc.source = a ∧ arc.target = b) ≤ 1 := by
  have keyed : ∀ key ∈ (arcs.filter fun arc => arc.source = a ∧ arc.target = b).map DirectedGraph.Arc.key,
      key = edgeKey (a, b) := by
    intro key member
    obtain ⟨arc, found, rfl⟩ := List.mem_map.mp member
    obtain ⟨listed, ends⟩ := List.mem_filter.mp found
    obtain ⟨pair, _, rfl⟩ := keeps.asked arc listed
    obtain ⟨rfl, rfl⟩ := of_decide_eq_true ends
    rfl
  have nodup : ((arcs.filter fun arc => arc.source = a ∧ arc.target = b).map DirectedGraph.Arc.key).Nodup :=
    keeps.nodup.sublist (List.filter_sublist.map _)
  rw [List.eq_replicate_of_mem keyed, List.nodup_replicate, List.length_map] at nodup
  rw [List.countP_eq_length_filter]
  exact nodup

theorem Keeps.count_pos {arcs : List (DirectedGraph.Arc Text Text)} {pairs : List (Node × Node)}
    (keeps : Keeps arcs pairs) {a b : Text} :
    (0 < arcs.countP fun arc => arc.source = a ∧ arc.target = b) ↔
      ∃ pair ∈ pairs, (pair.1.name, pair.2.name) = (a, b) ∧ arcOf pair.1.toAst pair.2.toAst ∈ arcs := by
  rw [List.countP_pos_iff]
  constructor
  · rintro ⟨arc, listed, ends⟩
    obtain ⟨pair, member, rfl⟩ := keeps.asked arc listed
    obtain ⟨rfl, rfl⟩ := of_decide_eq_true ends
    exact ⟨pair, member, rfl, listed⟩
  · rintro ⟨pair, _, same, listed⟩
    obtain ⟨rfl, rfl⟩ := Prod.mk.inj same
    exact ⟨_, listed, decide_eq_true ⟨rfl, rfl⟩⟩

/-- The graph of a digraph text has one edge from a node to another if they are adjacent
and none if they are not. -/
def HasAdjacentEdges (N E : Type) [Entity N] [Entity E] (text : Text) (tree : Graph Node) : Prop :=
  ∃ graph, readGraphviz N E text = .ok graph ∧
    ∀ a b, graph.edgeCount a b = if (a, b) ∈ tree.adjacent then 1 else 0

/-- The edges of the graph are the adjacent pairs exactly if no two different pairs give
their edges the same key. -/
theorem hasAdjacentEdges_iff (N E : Type) [Entity N] [Entity E] {tree : Graph Node} {text leftover : Text}
    (digraph : tree.Digraph) (renders : Renders (tree.map some).tokens text leftover) :
    HasAdjacentEdges N E text tree ↔
      ∀ pair ∈ tree.adjacent, ∀ other ∈ tree.adjacent, edgeKey pair = edgeKey other → pair = other := by
  have loopless : ∀ pair ∈ processed tree, pair.1.name ≠ pair.2.name := fun pair member =>
    digraph.loopless _ (mem_adjacent.mpr ⟨pair, member, rfl⟩)
  obtain ⟨graph, linked, stores⟩ :=
    linkAll_of_loopless (@DirectedGraph.Stores.empty N E _ _ _ _ _ _) loopless
  have read : readGraphviz N E text = .ok graph := by
    rw [readGraphviz_of_direct (SyntaxAnalyzer.present_map tree) renders digraph.kind, links_of_digraph digraph,
      linked]
  have keeps := keeps_kept (processed tree)
  constructor
  · rintro ⟨other, again, counts⟩
    cases read.symm.trans again
    have stored : ∀ pair ∈ tree.adjacent, ∃ arc ∈ kept [] (processed tree),
        arc.key = edgeKey pair ∧ (arc.source, arc.target) = pair := by
      intro ⟨a, b⟩ member
      have count := counts a b
      rw [if_pos member, stores.edgeCount] at count
      obtain ⟨nodes, _, same, listed⟩ := keeps.count_pos.mp (count ▸ Nat.zero_lt_one)
      obtain ⟨rfl, rfl⟩ := Prod.mk.inj same
      exact ⟨_, listed, rfl, rfl⟩
    intro pair member other others sameKey
    obtain ⟨arc, listed, key, rfl⟩ := stored pair member
    obtain ⟨further, alsoListed, otherKey, rfl⟩ := stored other others
    have same := List.inj_on_of_nodup_map keeps.nodup listed alsoListed (key.trans (sameKey.trans otherKey.symm))
    rw [same]
  · intro distinct
    refine ⟨graph, read, fun a b => ?_⟩
    rw [stores.edgeCount]
    split
    next adjacent =>
      apply Nat.le_antisymm (keeps.count_le_one a b)
      obtain ⟨nodes, member, same⟩ := mem_adjacent.mp adjacent
      obtain ⟨arc, listed, key⟩ := List.mem_map.mp (keeps.taken nodes member)
      obtain ⟨others, alsoMember, rfl⟩ := keeps.asked arc listed
      have equal := distinct _ (mem_adjacent.mpr ⟨others, alsoMember, rfl⟩) _
        (mem_adjacent.mpr ⟨nodes, member, rfl⟩) key
      exact keeps.count_pos.mpr ⟨others, alsoMember, equal.trans same, listed⟩
    next apart =>
      by_contra found
      obtain ⟨nodes, member, same, _⟩ := keeps.count_pos.mp (Nat.pos_of_ne_zero found)
      exact apart (mem_adjacent.mpr ⟨nodes, member, same⟩)

/-- The statement of an edge between two nodes without attributes. -/
def edgeStatement (fromName toName : Text) : Chain Node := .link ⟨fromName, none⟩ .direct (.last ⟨toName, none⟩)

def bothWays : Graph Node := ⟨.direct, ['g'], [edgeStatement ['a'] ['b'], edgeStatement ['b'] ['a']]⟩

def bothWaysText : Text :=
  kDirectGraph ++ [' ', 'g', '{', 'a', ' ', '-', '>', 'b', ';', 'b', ' ', '-', '>', 'a', ';', '}']

theorem hasAdjacentEdges_both_ways : HasAdjacentEdges Keyed Keyed bothWaysText bothWays :=
  have digraph : bothWays.Digraph := ⟨rfl, by simp [bothWays, edgeStatement, Chain.Directed], by decide⟩
  have reads : Reads (bothWays.map some).tokens ({ graphviz := bothWaysText } : LexicalAnalyzer)
      ⟨bothWaysText, 23⟩ := by decide
  (hasAdjacentEdges_iff Keyed Keyed digraph
    (LexicalAnalyzer.render_of_reads reads (Graph.proper_tokens _))).mpr (by decide)

/-- The edges of `digraph g{a_b ->c;a ->b_c;}` both have the key `a_b_c`. -/
theorem hasAdjacentEdges_same_key :
    ∃ (text leftover : Text) (tree : Graph Node), tree.Digraph ∧ Renders (tree.map some).tokens text leftover ∧
      ¬ HasAdjacentEdges Keyed Keyed text tree := by
  let text : Text := kDirectGraph ++ [' ', 'g', '{', 'a', '_', 'b', ' ', '-', '>', 'c', ';',
    'a', ' ', '-', '>', 'b', '_', 'c', ';', '}']
  let tree : Graph Node := ⟨.direct, ['g'], [edgeStatement ['a', '_', 'b'] ['c'], edgeStatement ['a'] ['b', '_', 'c']]⟩
  have reads : Reads (tree.map some).tokens ({ graphviz := text } : LexicalAnalyzer) ⟨text, 27⟩ := by decide
  refine ⟨text, _, tree, ⟨rfl, by simp [tree, edgeStatement, Chain.Directed], by decide⟩,
    LexicalAnalyzer.render_of_reads reads (Graph.proper_tokens _), ?_⟩
  have missing : (readGraphviz Keyed Keyed text).map (fun graph => graph.edgeCount ['a'] ['b', '_', 'c']) =
      .ok 0 := by decide
  intro ⟨graph, read, counts⟩
  have adjacent : (['a'], ['b', '_', 'c']) ∈ tree.adjacent := by decide
  have count := counts ['a'] ['b', '_', 'c']
  rw [if_pos adjacent] at count
  rw [read] at missing
  cases count.symm.trans (Except.ok.inj missing)

end Dsac.Graphviz

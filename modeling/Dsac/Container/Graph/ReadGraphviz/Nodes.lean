import Dsac.Container.Graph.ReadGraphviz.Edges

namespace Dsac.Graphviz

open Dsac.Graph (Semantic DirectedGraph)
open Grammar

/-! The nodes of the graph are inserted with their edges. -/

namespace Grammar

def Chain.nodes : Chain Node → List Node
  | last operand => [operand]
  | link operand _ others => operand :: others.nodes

/-- The identifiers in node position. -/
def Graph.names (tree : Graph Node) : List Text := (tree.statements.flatMap Chain.nodes).map Node.name

/-- The identifiers of the statements that are a single node. -/
def Graph.singles (tree : Graph Node) : List Text :=
  tree.statements.filterMap fun
    | .last operand => some operand.name
    | .link .. => none

theorem Chain.first_mem (chain : Chain Node) : chain.first ∈ chain.nodes := by
  cases chain with
  | last operand => exact List.mem_singleton_self operand
  | link operand connection others => exact List.mem_cons_self ..

/-- The nodes of a chain are its only node or the ends of its edges. -/
theorem Chain.mem_nodes {chain : Chain Node} {node : Node} :
    node ∈ chain.nodes ↔ chain = .last node ∨ ∃ pair ∈ chain.neighbours, node = pair.1 ∨ node = pair.2 := by
  induction chain with
  | last operand => simp [Chain.nodes, Chain.neighbours, eq_comm]
  | link operand connection others ih =>
      rw [Chain.nodes, Chain.neighbours, List.mem_cons, ih]
      constructor
      · rintro (rfl | rfl | ⟨pair, member, either⟩)
        · exact Or.inr ⟨_, List.mem_cons_self .., Or.inl rfl⟩
        · exact Or.inr ⟨_, List.mem_cons_self .., Or.inr rfl⟩
        · exact Or.inr ⟨pair, List.mem_cons_of_mem _ member, either⟩
      · rintro (impossible | ⟨pair, member, either⟩)
        · cases impossible
        · rcases List.mem_cons.mp member with rfl | later
          · rcases either with rfl | rfl
            · exact Or.inl rfl
            · exact Or.inr (ih.mp others.first_mem)
          · exact Or.inr (Or.inr ⟨pair, later, either⟩)

theorem Graph.mem_singles {tree : Graph Node} {name : Text} :
    name ∈ tree.singles ↔ ∃ node : Node, .last node ∈ tree.statements ∧ node.name = name := by
  rw [Graph.singles, List.mem_filterMap]
  constructor
  · rintro ⟨chain, member, found⟩
    cases chain with
    | last operand => exact ⟨operand, member, Option.some.inj found⟩
    | link operand connection others => cases found
  · rintro ⟨node, member, rfl⟩
    exact ⟨_, member, rfl⟩

/-- An identifier occurs as a single statement or next to another one. -/
theorem Graph.mem_names {tree : Graph Node} {name : Text} :
    name ∈ tree.names ↔ name ∈ tree.singles ∨ ∃ pair ∈ tree.adjacent, name = pair.1 ∨ name = pair.2 := by
  rw [Graph.mem_singles]
  simp only [Graph.names, Graph.adjacent, List.mem_map, List.mem_flatMap]
  constructor
  · rintro ⟨node, ⟨chain, member, listed⟩, rfl⟩
    rcases Chain.mem_nodes.mp listed with rfl | ⟨pair, neighbours, either⟩
    · exact Or.inl ⟨node, member, rfl⟩
    · exact Or.inr ⟨_, ⟨pair, ⟨chain, member, neighbours⟩, rfl⟩, either.imp (congrArg Node.name) (congrArg Node.name)⟩
  · rintro (⟨node, member, rfl⟩ | ⟨_, ⟨pair, ⟨chain, member, neighbours⟩, rfl⟩, either⟩)
    · exact ⟨node, ⟨_, member, List.mem_singleton_self node⟩, rfl⟩
    · rcases either with rfl | rfl
      · exact ⟨pair.1, ⟨chain, member, Chain.mem_nodes.mpr (Or.inr ⟨pair, neighbours, Or.inl rfl⟩)⟩, rfl⟩
      · exact ⟨pair.2, ⟨chain, member, Chain.mem_nodes.mpr (Or.inr ⟨pair, neighbours, Or.inr rfl⟩)⟩, rfl⟩

end Grammar

theorem mem_insertKey {keys : List Text} {key name : Text} :
    name ∈ DirectedGraph.insertKey keys key ↔ name ∈ keys ∨ name = key := by
  rw [DirectedGraph.insertKey]
  split_ifs with listed
  · exact ⟨Or.inl, fun either => either.elim id fun same => same ▸ listed⟩
  · rw [List.mem_append, List.mem_singleton]

theorem mem_named {keys : List Text} {pairs : List (Node × Node)} {name : Text} :
    name ∈ named keys pairs ↔ name ∈ keys ∨ ∃ pair ∈ pairs, name = pair.1.name ∨ name = pair.2.name := by
  induction pairs generalizing keys with
  | nil => simp [named]
  | cons pair pairs ih =>
      have shape : named keys (pair :: pairs) =
          named (DirectedGraph.insertKey (DirectedGraph.insertKey keys pair.1.name) pair.2.name) pairs := rfl
      rw [shape, ih, mem_insertKey, mem_insertKey, or_assoc, or_assoc]
      simp only [List.mem_cons, exists_eq_or_imp, or_assoc]

/-- The nodes of the graph are the identifiers in node position. -/
def HasNamedNodes (N E : Type) [Entity N] [Entity E] (text : Text) (tree : Graph Node) : Prop :=
  ∃ graph, readGraphviz N E text = .ok graph ∧ ∀ name, (graph.getNode name).isSome ↔ name ∈ tree.names

/-- The graph has all the nodes of the text exactly if every statement of a single node names a node
that also occurs in a chain. -/
theorem hasNamedNodes_iff (N E : Type) [Entity N] [Entity E] {tree : Graph Node} {text leftover : Text}
    (digraph : tree.Digraph) (renders : Renders (tree.map some).tokens text leftover) :
    HasNamedNodes N E text tree ↔
      ∀ name ∈ tree.singles, ∃ pair ∈ tree.adjacent, name = pair.1 ∨ name = pair.2 := by
  have loopless : ∀ pair ∈ processed tree, pair.1.name ≠ pair.2.name := fun pair member =>
    digraph.loopless _ (mem_adjacent.mpr ⟨pair, member, rfl⟩)
  obtain ⟨graph, linked, stores⟩ :=
    linkAll_of_loopless (@DirectedGraph.Stores.empty N E _ _ _ _ _ _) loopless
  have read : readGraphviz N E text = .ok graph := by
    rw [readGraphviz_of_direct (SyntaxAnalyzer.present_map tree) renders digraph.kind, links_of_digraph digraph,
      linked]
  have nodes : ∀ name, (graph.getNode name).isSome ↔
      ∃ pair ∈ tree.adjacent, name = pair.1 ∨ name = pair.2 := by
    intro name
    rw [← Option.ne_none_iff_isSome, ne_eq, stores.getNode, not_not, mem_named]
    simp only [List.not_mem_nil, false_or]
    constructor
    · rintro ⟨pair, member, either⟩
      exact ⟨_, mem_adjacent.mpr ⟨pair, member, rfl⟩, either⟩
    · rintro ⟨pair, member, either⟩
      obtain ⟨nodes, listed, rfl⟩ := mem_adjacent.mp member
      exact ⟨nodes, listed, either⟩
  constructor
  · rintro ⟨other, again, named⟩ name single
    cases read.symm.trans again
    exact (nodes name).mp ((named name).mpr (Graph.mem_names.mpr (Or.inl single)))
  · intro covered
    refine ⟨graph, read, fun name => ?_⟩
    rw [nodes, Graph.mem_names]
    exact ⟨Or.inr, fun either => either.elim (covered name) id⟩

/-- The node of the first statement occurs in the chain of the second one. -/
def declared : Graph Node := ⟨.direct, ['g'], [.last ⟨['a'], none⟩, edgeStatement ['a'] ['b']]⟩

def declaredText : Text := kDirectGraph ++ [' ', 'g', '{', 'a', ';', 'a', ' ', '-', '>', 'b', ';', '}']

theorem hasNamedNodes_declared : HasNamedNodes Keyed Keyed declaredText declared :=
  have digraph : declared.Digraph := ⟨rfl, by simp [declared, edgeStatement, Chain.Directed], by decide⟩
  have reads : Reads (declared.map some).tokens ({ graphviz := declaredText } : LexicalAnalyzer)
      ⟨declaredText, 19⟩ := by decide
  (hasNamedNodes_iff Keyed Keyed digraph
    (LexicalAnalyzer.render_of_reads reads (Graph.proper_tokens _))).mpr (by decide)

/-- The node of `digraph g{a;}` is not inserted. -/
theorem hasNamedNodes_single :
    ∃ (text leftover : Text) (tree : Graph Node), tree.Digraph ∧ Renders (tree.map some).tokens text leftover ∧
      ¬ HasNamedNodes Keyed Keyed text tree := by
  let text : Text := kDirectGraph ++ [' ', 'g', '{', 'a', ';', '}']
  let tree : Graph Node := ⟨.direct, ['g'], [.last ⟨['a'], none⟩]⟩
  have reads : Reads (tree.map some).tokens ({ graphviz := text } : LexicalAnalyzer) ⟨text, 13⟩ := by decide
  refine ⟨text, _, tree, ⟨rfl, by simp [tree, Chain.Directed], by decide⟩,
    LexicalAnalyzer.render_of_reads reads (Graph.proper_tokens _), ?_⟩
  have missing : (readGraphviz Keyed Keyed text).map (fun graph => (graph.getNode ['a']).isSome) = .ok false := by
    decide
  rintro ⟨graph, read, named⟩
  have present : (graph.getNode ['a']).isSome := (named ['a']).mpr (by decide)
  rw [read] at missing
  cases present.symm.trans (Except.ok.inj missing)

end Dsac.Graphviz

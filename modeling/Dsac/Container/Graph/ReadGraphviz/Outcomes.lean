import Dsac.Container.Graph.ReadGraphviz

namespace Dsac.Graphviz

open Dsac.Graph (Semantic DirectedGraph)
open Grammar

variable {N E : Type} [Entity N] [Entity E]

abbrev Link := Option Ast.Node × Option Ast.Node

/-- An end of the edge is missing. -/
def Defective (link : Link) : Prop := link.1 = none ∨ link.2 = none

def IsLoop : Link → Prop
  | (some fromCast, some toCast) => fromCast.name = toCast.name
  | _ => False

/-- No defective edge comes before the first loop. -/
def Guarded : List Link → Prop
  | [] => True
  | link :: links => ¬ Defective link ∧ (IsLoop link ∨ Guarded links)

def arcOf (fromCast toCast : Ast.Node) : DirectedGraph.Arc Text Text :=
  ⟨fromCast.name, toCast.name, fromCast.name ++ '_' :: toCast.name⟩

variable {graph : ReadGraph N E} {keys : List Text} {arcs : List (DirectedGraph.Arc Text Text)}

/-- An edge between two nodes is inserted, unless they are one and the same. -/
theorem linkNodes_of_stores (stores : DirectedGraph.Stores graph keys arcs) (fromCast toCast : Ast.Node) :
    (fromCast.name = toCast.name ∧ linkNodes graph (some fromCast, some toCast) = .error .loopsNotSupported) ∨
      (fromCast.name ≠ toCast.name ∧ ∃ next, linkNodes graph (some fromCast, some toCast) = .ok next ∧
        DirectedGraph.Stores next (DirectedGraph.insertKey (DirectedGraph.insertKey keys fromCast.name) toCast.name)
          (DirectedGraph.insertArc arcs (arcOf fromCast toCast))) := by
  obtain ⟨source, _, first, inserted, firstStores, starts⟩ := stores.insertNode (Entity.make fromCast.name)
  obtain ⟨target, _, second, again, secondStores, ends⟩ := firstStores.insertNode (Entity.make toCast.name)
  have starts := DirectedGraph.getElem?_insertKey (Semantic.getKey (Entity.make (α := N) toCast.name)) starts
  rw [Entity.getKey_make, Entity.getKey_make] at starts ends
  rw [Entity.getKey_make, Entity.getKey_make] at secondStores
  by_cases same : fromCast.name = toCast.name
  · have meet : source = target := by
      have inside := (List.getElem?_eq_some_iff.mp starts).1
      exact (List.getElem?_inj inside secondStores.nodup).mp (starts.trans (same ▸ ends.symm))
    refine Or.inl ⟨same, ?_⟩
    simp only [linkNodes, inserted, again, DirectedGraph.insertDirectEdge, meet, if_true]
    rfl
  · obtain ⟨_, next, linked, nextStores⟩ := secondStores.insertDirectEdge starts ends same
      (Entity.make (fromCast.name ++ '_' :: toCast.name))
    rw [Entity.getKey_make] at nextStores
    refine Or.inr ⟨same, next, ?_, nextStores⟩
    simp only [linkNodes, inserted, again, linked]
    rfl

theorem linkNodes_of_defective {link : Link} (defective : Defective link) (graph : ReadGraph N E) :
    linkNodes graph link = .error .nullPointer := by
  obtain ⟨fromCast, toCast⟩ := link
  cases fromCast with
  | none => rfl
  | some fromNode =>
      cases toCast with
      | none => rfl
      | some toNode => exact absurd defective (by simp [Defective])

theorem exists_of_not_defective {link : Link} (sound : ¬ Defective link) :
    ∃ fromCast toCast, link = (some fromCast, some toCast) := by
  obtain ⟨fromCast, toCast⟩ := link
  cases fromCast with
  | none => exact absurd (Or.inl rfl) sound
  | some fromNode =>
      cases toCast with
      | none => exact absurd (Or.inr rfl) sound
      | some toNode => exact ⟨fromNode, toNode, rfl⟩

/-- Whether a null reference is dereferenced depends on which comes first, an edge with a
missing end or a loop. -/
theorem linkAll_outcome (stores : DirectedGraph.Stores graph keys arcs) (links : List Link) :
    (Guarded links ∧ ((∃ next, linkAll graph links = .ok next) ∨
        linkAll graph links = .error .loopsNotSupported)) ∨
      (¬ Guarded links ∧ linkAll graph links = .error .nullPointer) := by
  induction links generalizing graph keys arcs with
  | nil => exact Or.inl ⟨trivial, Or.inl ⟨graph, rfl⟩⟩
  | cons link links ih =>
      by_cases defective : Defective link
      · right
        refine ⟨fun guarded => guarded.1 defective, ?_⟩
        rw [linkAll, linkNodes_of_defective defective]
        rfl
      · obtain ⟨fromCast, toCast, rfl⟩ := exists_of_not_defective defective
        rcases linkNodes_of_stores stores fromCast toCast with ⟨loop, thrown⟩ | ⟨apart, next, linked, nextStores⟩
        · left
          refine ⟨⟨defective, Or.inl loop⟩, Or.inr ?_⟩
          rw [linkAll, thrown]
          rfl
        · have rest : linkAll graph ((some fromCast, some toCast) :: links) = linkAll next links := by
            rw [linkAll, linked]
            rfl
          have same : Guarded ((some fromCast, some toCast) :: links) ↔ Guarded links := by
            constructor
            · intro guarded
              exact guarded.2.resolve_left apart
            · intro guarded
              exact ⟨defective, Or.inr guarded⟩
          rw [rest, same]
          exact ih nextStores

/-- `read_graphviz` returns a graph or throws one of the exceptions it declares. -/
def Contained (N E : Type) [Entity N] [Entity E] (graphviz : Text) : Prop :=
  (∃ graph, readGraphviz N E graphviz = .ok graph) ∨ readGraphviz N E graphviz = .error .unexpectedSyntax ∨
    readGraphviz N E graphviz = .error .loopsNotSupported

def links (tree : Graph (Option Node)) : List Link := tree.toAst.statements.flatMap Ast.Statement.arcs

theorem toAst_statements_present {tree : Graph (Option Node)} (loose : tree.Loose) :
    ∀ statement ∈ tree.toAst.statements, statement ≠ .empty := by
  intro statement member
  obtain ⟨chain, listed, rfl⟩ := List.mem_map.mp member
  exact SyntaxAnalyzer.toAst_ne_empty (loose chain listed)

theorem readGraphviz_of_undirect {tree : Graph (Option Node)} {text leftover : Text} (loose : tree.Loose)
    (renders : Renders tree.tokens text leftover) (kind : tree.kind = .undirect) :
    readGraphviz N E text = .error .nullPointer := by
  obtain ⟨after, _, parsed⟩ := parse_of_renders loose renders
  have statements : getStatements tree.toAst = none := by simp only [getStatements, Graph.toAst, kind]
  rw [readGraphviz, parsed]
  simp only [bind, Except.bind, statements]

theorem readGraphviz_of_direct {tree : Graph (Option Node)} {text leftover : Text} (loose : tree.Loose)
    (renders : Renders tree.tokens text leftover) (kind : tree.kind = .direct) :
    readGraphviz N E text = linkAll {} (links tree) := by
  obtain ⟨after, _, parsed⟩ := parse_of_renders loose renders
  have statements : getStatements tree.toAst = some tree.toAst.statements := by
    simp only [getStatements, Graph.toAst, kind]
  rw [readGraphviz, parsed]
  simp only [bind, Except.bind, statements]
  exact visitStatements_eq (toAst_statements_present loose) _

/-- No null reference is dereferenced exactly if the text begins with no loose graph, or
with a directed one in which no edge with a missing end comes before the first loop. -/
theorem readGraphviz_contained_iff (N E : Type) [Entity N] [Entity E] (text : Text) :
    Contained N E text ↔
      ∀ (tree : Graph (Option Node)) (leftover : Text), tree.Loose → Renders tree.tokens text leftover →
        tree.kind = .direct ∧ Guarded (links tree) := by
  constructor
  · intro contained tree leftover loose renders
    cases kind : tree.kind with
    | undirect =>
        rw [Contained, readGraphviz_of_undirect loose renders kind] at contained
        simp at contained
    | direct =>
        refine ⟨rfl, ?_⟩
        rcases linkAll_outcome (@DirectedGraph.Stores.empty N E _ _ _ _ _ _) (links tree) with
          ⟨guarded, _⟩ | ⟨_, faulted⟩
        · exact guarded
        · rw [Contained, readGraphviz_of_direct loose renders kind, faulted] at contained
          simp at contained
  · intro condition
    rcases parse_cases text with ⟨tree, after, loose, renders, _⟩ | thrown
    · obtain ⟨kind, guarded⟩ := condition tree after.rest loose renders
      rw [Contained, readGraphviz_of_direct loose renders kind]
      rcases linkAll_outcome (@DirectedGraph.Stores.empty N E _ _ _ _ _ _) (links tree) with
        ⟨_, returned | thrown⟩ | ⟨spoilt, _⟩
      · exact Or.inl returned
      · exact Or.inr (Or.inr thrown)
      · exact absurd guarded spoilt
    · right
      left
      rw [readGraphviz, thrown]
      rfl

/-- The node and edge types of the repository's tests. -/
structure Keyed where
  key : Text
  attributes : List Text := []

instance : Entity Keyed where
  getKey := Keyed.key
  make key := { key }
  getKey_make _ := rfl

/-- The null reference is dereferenced for the missing target in `digraph a{b ->;}`. -/
theorem readGraphviz_missing_target :
    ¬ Contained Keyed Keyed (kDirectGraph ++ [' ', 'a', '{', 'b', ' ', '-', '>', ';', '}']) := by
  have faulted : (readGraphviz Keyed Keyed (kDirectGraph ++ [' ', 'a', '{', 'b', ' ', '-', '>', ';', '}'])).map
      (fun _ => ()) = .error .nullPointer := by decide
  rintro (⟨graph, returned⟩ | thrown | thrown)
  · rw [returned] at faulted
    cases faulted
  · rw [thrown] at faulted
    cases faulted
  · rw [thrown] at faulted
    cases faulted

end Dsac.Graphviz

import Dsac.Container.Graph.DirectedGraph.Insertion
import Dsac.Container.Graph.Graphviz.SyntaxAnalyzer.Acceptance

namespace Dsac.Graphviz

open Dsac.Graph (Semantic DirectedGraph)

/-- What `read_graphviz` asks of its node and edge types: `make` builds one from the text
that is its key. -/
class Entity (α : Type) extends Semantic α Text where
  make : Text → α
  getKey_make : ∀ text, Semantic.getKey (make text) = text

abbrev ReadGraph (N E : Type) := DirectedGraph N E Text Text

/-! `read_graphviz`. `visit` of the null reference dereferences it; a visitor that does not
take the node returns the null reference. -/

variable {N E : Type} [Entity N] [Entity E]

/-- The end of `process_statement`, where `none` is the null result of a failed cast. -/
def linkNodes (graph : ReadGraph N E) : Option Ast.Node × Option Ast.Node → Outcome (ReadGraph N E)
  | (some fromCast, some toCast) => do
      let fromName := fromCast.name
      let toName := toCast.name
      let (source, graph) := graph.insertNode (Entity.make fromName)
      let (target, graph) := graph.insertNode (Entity.make toName)
      let edgeKey := fromName ++ '_' :: toName
      let (_, graph) ← graph.insertDirectEdge source.1 target.1 (Entity.make edgeKey)
      .ok graph
  | _ => .error .nullPointer

/-- `visit(process_statement, statement)`. -/
def visitStatement (graph : ReadGraph N E) : Ast.Statement → Outcome (Option Ast.Node × ReadGraph N E)
  | .empty => .error .nullPointer
  | .node _ => .ok (none, graph)
  | .edge .undirect _ _ => .ok (none, graph)
  | .edge .direct fromNode toNode => do
      let (toCast, graph) ←
        match toNode with
        | .node named => .ok (some named, graph)
        | other => visitStatement graph other
      let graph ← linkNodes graph (fromNode, toCast)
      .ok (fromNode, graph)

/-- The first visitor, which takes a directed graph only. -/
def getStatements (ast : Ast.Graph) : Option (List Ast.Statement) :=
  match ast.kind with
  | .direct => some ast.statements
  | .undirect => none

def visitStatements (graph : ReadGraph N E) : List Ast.Statement → Outcome (ReadGraph N E)
  | [] => .ok graph
  | statement :: statements => do
      let (_, graph) ← visitStatement graph statement
      visitStatements graph statements

def readGraphviz (N E : Type) [Entity N] [Entity E] (graphviz : Text) : Outcome (ReadGraph N E) := do
  let (ast, _) ← parse graphviz
  match getStatements ast with
  | none => .error .nullPointer
  | some statements => visitStatements {} statements

/-! The edges that the statements ask for, in the order in which they are processed. -/

/-- The node that an edge to the statement leads to. -/
def Ast.Statement.head : Ast.Statement → Option Ast.Node
  | .node named => some named
  | .edge .direct fromNode _ => fromNode
  | _ => none

def Ast.Statement.arcs : Ast.Statement → List (Option Ast.Node × Option Ast.Node)
  | .edge .direct fromNode toNode => toNode.arcs ++ [(fromNode, toNode.head)]
  | _ => []

def linkAll (graph : ReadGraph N E) : List (Option Ast.Node × Option Ast.Node) → Outcome (ReadGraph N E)
  | [] => .ok graph
  | arc :: arcs => do
      let graph ← linkNodes graph arc
      linkAll graph arcs

theorem linkAll_append (graph : ReadGraph N E) (arcs others : List (Option Ast.Node × Option Ast.Node)) :
    linkAll graph (arcs ++ others) = linkAll graph arcs >>= fun graph => linkAll graph others := by
  induction arcs generalizing graph with
  | nil => rfl
  | cons arc arcs ih =>
      simp only [List.cons_append, linkAll, bind_assoc, ih]

theorem linkAll_singleton (graph : ReadGraph N E) (arc : Option Ast.Node × Option Ast.Node) :
    linkAll graph [arc] = linkNodes graph arc := by
  rw [linkAll]
  cases linkNodes graph arc
  all_goals rfl

/-- What `visit` returns for a statement. -/
def Ast.Statement.visited : Ast.Statement → Option Ast.Node
  | .edge .direct fromNode _ => fromNode
  | _ => none

/-- A statement is processed arc by arc, those on the right first. -/
theorem visitStatement_eq {statement : Ast.Statement} (present : statement ≠ .empty) (graph : ReadGraph N E) :
    visitStatement graph statement =
      (linkAll graph statement.arcs >>= fun graph => .ok (statement.visited, graph)) := by
  induction statement generalizing graph with
  | empty => exact absurd rfl present
  | node named => rfl
  | edge connection fromNode toNode ih =>
      cases connection with
      | undirect => rfl
      | direct =>
          rw [Ast.Statement.arcs, linkAll_append]
          simp only [linkAll_singleton]
          cases toNode with
          | empty =>
              cases fromNode
              all_goals rfl
          | node named => rfl
          | edge connection left right =>
              simp only [visitStatement, ih nofun graph, bind_assoc]
              cases connection with
              | undirect => rfl
              | direct => rfl

theorem visitStatements_eq {statements : List Ast.Statement} (present : ∀ statement ∈ statements, statement ≠ .empty)
    (graph : ReadGraph N E) :
    visitStatements graph statements = linkAll graph (statements.flatMap Ast.Statement.arcs) := by
  induction statements generalizing graph with
  | nil => rfl
  | cons statement statements ih =>
      have present := List.forall_mem_cons.mp present
      rw [visitStatements, List.flatMap_cons, linkAll_append, visitStatement_eq present.1]
      simp only [bind_assoc, ← ih present.2]
      rfl

end Dsac.Graphviz

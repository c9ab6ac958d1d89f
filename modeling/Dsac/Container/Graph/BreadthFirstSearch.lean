import Dsac.Library.Run
import Dsac.Library.BreadthFirst
import Dsac.Container.Graph.DirectedGraph.Insertion
import Dsac.Container.Graph.PossibleActions

namespace Dsac.Graph

open Dsac.Library

/-! `bfs` of a `dsac::directed_graph`. A node iterator is the address of its node. -/

namespace DirectedGraph

variable {N E NodeKey EdgeKey : Type} [DecidableEq NodeKey] [DecidableEq EdgeKey] [Semantic N NodeKey]
  [Semantic E EdgeKey]

/-- A call that builds a graph; edges are inserted between the iterators that `get_node` returns. -/
inductive Call (N E NodeKey : Type) where
  | insertNode (node : N)
  | insertDirectEdge (source target : NodeKey) (edge : E)
deriving DecidableEq, Repr

/-- The caller catches `loops_not_supported`. -/
def step (graph : DirectedGraph N E NodeKey EdgeKey) : Call N E NodeKey → Outcome (DirectedGraph N E NodeKey EdgeKey)
  | .insertNode node => .ok (graph.insertNode node).2
  | .insertDirectEdge source target edge =>
      match graph.getNode source, graph.getNode target with
      | some source, some target =>
          match graph.insertDirectEdge source target edge with
          | .ok (_, graph) => .ok graph
          | .error .loopsNotSupported => .ok graph
          | .error fault => .error fault
      | none, none => .ok graph
      | _, _ => .error .nullPointer

/-- The nodes that the stored edges of a node lead to. -/
def neighbours (graph : DirectedGraph N E NodeKey EdgeKey) (node : Addr) : List Addr :=
  (((graph.nodeHeap.get node).map ProxyNode.edges).getD []).filterMap fun pointer =>
    (graph.edgeHeap.get pointer).map ProxyEdge.target

end DirectedGraph

namespace Bfs

variable {N E NodeKey EdgeKey : Type} [DecidableEq NodeKey]

structure State where
  processing : List Addr
  possibleActions : PossibleActions Addr
  visited : Finset Addr

/-- `visited.emplace(edge->to)`, and what follows if the node is new. -/
def considerNode (considered : Addr) (state : State) (target : Addr) : State :=
  if target ∈ state.visited then state
  else
    { processing := state.processing ++ [target]
      possibleActions := state.possibleActions.insert target considered
      visited := insert target state.visited }

/-- The body of the loop over the edges; the hash of an iterator reads the node. -/
def considerEdge (graph : DirectedGraph N E NodeKey EdgeKey) (considered : Addr) (state : State)
    (pointer : Addr) : Outcome State := do
  let edge ← load graph.edgeHeap pointer
  let _ ← load graph.nodeHeap edge.target
  return considerNode considered state edge.target

/-- The loop over the nodes; the fuel bounds the number of its iterations. -/
def search (graph : DirectedGraph N E NodeKey EdgeKey) (destination : Option Addr) :
    Nat → State → Outcome (Bool × State)
  | 0, _ => .error .fuel
  | fuel + 1, state =>
      match state.processing with
      | [] => .ok (false, state)
      | considered :: processing =>
          if some considered = destination then .ok (true, state)
          else do
            let node ← load graph.nodeHeap considered
            search graph destination fuel
              (← node.edges.foldlM (considerEdge graph considered) { state with processing })

/-- More than the number of nodes. -/
def searchBound (graph : DirectedGraph N E NodeKey EdgeKey) : Nat := graph.nodes.keys.length + 1

/-- `bfs` -/
def bfs (graph : DirectedGraph N E NodeKey EdgeKey) (source destination : NodeKey) : Outcome (List Addr) := do
  let destinationNode := graph.getNode destination
  match graph.getNode source with
  -- the hash of the iterator reads the node
  | none => .error .nullPointer
  | some sourceNode =>
      let (found, state) ← search graph destinationNode (searchBound graph)
        { processing := [sourceNode]
          possibleActions := AList.singleton sourceNode sourceNode
          visited := {sourceNode} }
      match found, destinationNode with
      | true, some destinationNode =>
          followBack state.possibleActions sourceNode (searchBound graph) [destinationNode]
      | _, _ => return []

end Bfs

end Dsac.Graph

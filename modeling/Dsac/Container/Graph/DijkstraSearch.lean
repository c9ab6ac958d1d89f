import Dsac.Library.PriorityQueue
import Dsac.Container.Graph.DirectedGraph

namespace Dsac.Graph.Dijkstra

open Dsac.Library Dsac.Graph.Digraph

/-! `dsac::legacy_graph::dijkstra`. The two searches differ only in that
`ShortestPath` records the node from which another one is discovered, so the loop
takes the recording as a parameter. -/

/-- `std::numeric_limits<Distance>::max()`, where `Distance` is `int`. -/
def maxDistance : Int := 2147483647

structure ComparedNode where
  node : Node
  distance : Int
deriving DecidableEq, Repr

/-- `operator<` of `ComparedNode`. -/
def ComparedNode.Less (compared other : ComparedNode) : Prop := compared.distance < other.distance

/-- `std::priority_queue<ComparedNode>`, whose top is a greatest element. -/
abbrev Processing := PriorityQueue ComparedNode ComparedNode.Less

/-- The queue that yields the first of several greatest elements. -/
def firstGreatest : Processing := .ofRank ComparedNode.distance fun _ _ less => less

def initDistances (graph : Digraph) : AList (fun _ : Node => Int) :=
  graph.visit (fun distances node => distances.insert node maxDistance) ∅

/-- `distance + 1` in `int`. -/
def nextDistance (distance : Int) : Outcome Int :=
  if distance < maxDistance then .ok (distance + 1) else .error .overflow

structure State (queue : Processing) (α : Type) where
  graph : Digraph
  distances : AList (fun _ : Node => Int)
  processing : queue.Queue
  visited : Finset Node
  actions : α

variable (queue : Processing) {α : Type} (record : α → Node → Node → α)

def initial (graph : Digraph) (start : Node) (actions : α) : State queue α where
  graph := graph
  distances := (initDistances graph).insert start 0
  processing := queue.emplace queue.empty ⟨start, 0⟩
  visited := {start}
  actions := actions

/-- The body of the loop over the successors of the considered node. -/
def considerSuccessor (considered : Node) (state : State queue α) (successor : Node) :
    Outcome (State queue α) :=
  if successor ∈ state.visited then .ok state
  else do
    let visited := insert successor state.visited
    let (distance, distances) := subscript state.distances considered 0
    let newDist ← nextDistance distance
    let (oldDist, distances) := subscript distances successor 0
    if newDist < oldDist then
      return { state with
        visited
        distances := distances.insert successor newDist
        processing := queue.emplace state.processing ⟨successor, newDist⟩
        actions := record state.actions successor considered }
    else return { state with visited, distances }

/-- The loop of both searches; the fuel bounds the number of its iterations. -/
def search (target : Node) : Nat → State queue α → Outcome (Bool × State queue α)
  | 0, _ => .error .fuel
  | fuel + 1, state =>
      match queue.top state.processing with
      | none => .ok (false, state)
      | some ⟨considered, minDist⟩ =>
          if considered = target then .ok (true, state)
          else do
            let processing := queue.pop state.processing
            let (distance, distances) := subscript state.distances considered 0
            if minDist ≤ distance then
              let (successors, graph) := state.graph.getSuccessors considered
              let state ← successors.foldlM (considerSuccessor queue record considered)
                { state with graph, distances, processing }
              search target fuel state
            else search target fuel { state with distances, processing }

def isPathExist (graph : Digraph) (start target : Node) : Outcome (Bool × Digraph) := do
  let (found, state) ← search queue (fun _ _ _ => ()) target graph.searchBound (initial queue graph start ())
  return (found, state.graph)

abbrev PossibleActions := AList (fun _ : Node => Node)

/-- `possible_actions[successor] = considered`. -/
def recordAction (possibleActions : PossibleActions) (successor considered : Node) : PossibleActions :=
  possibleActions.insert successor considered

/-- The loop that follows the recorded nodes back from the front of the path; the fuel
bounds the length of the path. -/
def followBack (possibleActions : PossibleActions) (start : Node) :
    Nat → List Node → Outcome (List Node)
  | 0, _ => .error .fuel
  | _, [] => .error .outOfRange
  | fuel + 1, latest :: path =>
      if latest = start then .ok (latest :: path)
      else match possibleActions.lookup latest with
        | none => .ok (latest :: path)
        | some previous => followBack possibleActions start fuel (previous :: latest :: path)

def shortestPath (graph : Digraph) (start target : Node) : Outcome (List Node × Digraph) := do
  let (_, state) ← search queue recordAction target graph.searchBound
    (initial queue graph start (AList.singleton start start))
  let path ← followBack state.actions start graph.searchBound [target]
  return (if path.head? = some start then path else [], state.graph)

end Dsac.Graph.Dijkstra

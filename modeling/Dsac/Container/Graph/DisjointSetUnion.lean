import Dsac.Fault

namespace Dsac.Graph

/-! `legacy_graph::DisjointSet`. -/

structure DisjointSet where
  parentVertex : List Nat
deriving DecidableEq, Repr

namespace DisjointSet

/-- The largest `int`. -/
def intMax : Nat := 2 ^ 31 - 1

/-- `std::iota` whose value is an `int`: the value is incremented after every element. -/
def iota : Nat → Nat → Outcome (List Nat)
  | 0, _ => .ok []
  | count + 1, value =>
      if value < intMax then do
        let others ← iota count (value + 1)
        .ok (value :: others)
      else
        .error .overflow

def make (sizeSet : Nat) : Outcome DisjointSet := do
  let parentVertex ← iota sizeSet 0
  .ok { parentVertex }

/-- `parent_vertex_[vertex]`. -/
def parentOf (set : DisjointSet) (vertex : Nat) : Outcome Nat :=
  match set.parentVertex[vertex]? with
  | some parent => .ok parent
  | none => .error .outOfRange

/-- The first loop of `Find`. -/
def climb (set : DisjointSet) : Nat → Nat → Outcome Nat
  | 0, _ => .error .fuel
  | fuel + 1, vertex => do
      let parent ← set.parentOf vertex
      if parent ≠ vertex then
        climb set fuel parent
      else
        .ok parent

/-- The second loop of `Find`, which links the vertices on the way to the root. -/
def compress : Nat → DisjointSet → Nat → Nat → Outcome DisjointSet
  | 0, _, _, _ => .error .fuel
  | fuel + 1, set, vertex, root => do
      let oldParent ← set.parentOf vertex
      if oldParent ≠ root then
        compress fuel { parentVertex := set.parentVertex.set vertex root } oldParent root
      else
        .ok set

/-- A call returns or throws, and leaves the set as it is by then. -/
abbrev Left (α : Type) := Outcome α × DisjointSet

def andThen {α β : Type} (call : Left α) (next : α → DisjointSet → Left β) : Left β :=
  match call with
  | (.ok value, set) => next value set
  | (.error reason, set) => (.error reason, set)

def find (set : DisjointSet) (vertex : Nat) : Left Nat :=
  if set.parentVertex.length ≤ vertex then
    (.error .disjointSetOutOfRange, set)
  else
    match set.climb set.parentVertex.length vertex with
    | .error reason => (.error reason, set)
    | .ok root =>
        match compress set.parentVertex.length set vertex root with
        | .error reason => (.error reason, set)
        | .ok next => (.ok root, next)

/-- The operands of `==` may be evaluated in either order. -/
def isConnected (set : DisjointSet) (vertex1 vertex2 : Nat) (reversed : Bool) : Left Bool :=
  if reversed then
    andThen (set.find vertex2) fun root2 set =>
      andThen (set.find vertex1) fun root1 set => (.ok (root1 = root2), set)
  else
    andThen (set.find vertex1) fun root1 set =>
      andThen (set.find vertex2) fun root2 set => (.ok (root1 = root2), set)

def union (set : DisjointSet) (vertex1 vertex2 : Nat) (reversed : Bool) : Left Unit :=
  andThen (set.isConnected vertex1 vertex2 reversed) fun connected set =>
    if connected then
      (.ok (), set)
    else
      andThen (set.find vertex1) fun parent1 set =>
        andThen (set.find vertex2) fun parent2 set =>
          if parent2 < set.parentVertex.length then
            (.ok (), { parentVertex := set.parentVertex.set parent2 parent1 })
          else
            (.error .outOfRange, set)

inductive Call where
  | union (vertex1 vertex2 : Nat) (reversed : Bool)
  | find (vertex : Nat)
  | isConnected (vertex1 vertex2 : Nat) (reversed : Bool)

inductive Reply where
  | done
  | vertex (found : Nat)
  | flag (connected : Bool)
deriving DecidableEq, Repr

def call (set : DisjointSet) : Call → Left Reply
  | .union vertex1 vertex2 reversed =>
      andThen (set.union vertex1 vertex2 reversed) fun _ set => (.ok .done, set)
  | .find vertex => andThen (set.find vertex) fun found set => (.ok (.vertex found), set)
  | .isConnected vertex1 vertex2 reversed =>
      andThen (set.isConnected vertex1 vertex2 reversed) fun connected set => (.ok (.flag connected), set)

end DisjointSet

end Dsac.Graph

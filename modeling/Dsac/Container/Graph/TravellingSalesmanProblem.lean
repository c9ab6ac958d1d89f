import Dsac.Container.Graph.TravellingSalesmanProblem.Combinations
import Dsac.Library.HeldKarp
import Dsac.Library.Mask

namespace Dsac.Graph.Tsp

open Dsac.Library Dsac.Sort

/-! `tsp::Solve` of `travelling_salesman_problem.cpp`. Costs and masks are `int`. -/

abbrev AdjacencyMatrix := List (List Int)

/-- `matrix[row][column]` -/
def cell (matrix : AdjacencyMatrix) (row column : Nat) : Outcome Int := do readAt (← readAt matrix row) column

/-- `matrix[row][column] = value` -/
def setCell (matrix : AdjacencyMatrix) (row column : Nat) (value : Int) : Outcome AdjacencyMatrix := do
  writeAt matrix row (← writeAt (← readAt matrix row) column value)

structure TravellingSalesmanResult where
  tour : List Nat
  minCost : Int
deriving DecidableEq, Repr

def notIn (node subset : Nat) : Bool := (1 <<< node) &&& subset == 0

/-- `memo[e][subset] + graph.GetCost({e}, next)` -/
def newDist (graph memo : AdjacencyMatrix) (subset next e : Nat) : Outcome Int := do
  checked ((← cell memo e subset) + (← cell graph e next))

/-- The loops that take the minimum over the nodes that they do not skip. -/
def leastDist (skip : Nat → Bool) (dist : Nat → Outcome Int) (best : Int) (e : Nat) : Outcome Int :=
  if skip e then .ok best else do .ok (min best (← dist e))

def setup (graph : AdjacencyMatrix) (start n : Nat) (memo : AdjacencyMatrix) : Outcome AdjacencyMatrix :=
  (List.range n).foldlM (fun memo node =>
    if node ≠ start then do setCell memo node ((1 <<< start) ||| (1 <<< node)) (← cell graph start node)
    else .ok memo) memo

/-- `for (int next = 0; next < N; ++next)` -/
def solveNext (graph : AdjacencyMatrix) (start n subset : Nat) (memo : AdjacencyMatrix) (next : Nat) :
    Outcome AdjacencyMatrix :=
  if next = start ∨ notIn next subset then .ok memo
  else do
    let subsetWithoutNext := subset ^^^ (1 <<< next)
    let minDist ← (List.range n).foldlM (leastDist (fun e => e = start ∨ e = next ∨ notIn e subset)
      (newDist graph memo subsetWithoutNext next)) maxInt
    setCell memo next subset minDist

/-- `for (int subset : combinations(r, N))` -/
def solveSubset (graph : AdjacencyMatrix) (start n : Nat) (memo : AdjacencyMatrix) (subset : Int) : Outcome AdjacencyMatrix :=
  if notIn start subset.toNat then .ok memo
  else (List.range n).foldlM (solveNext graph start n subset.toNat) memo

/-- `for (int r = 3; r <= N; ++r)` -/
def solveSize (graph : AdjacencyMatrix) (start n : Nat) (memo : AdjacencyMatrix) (r : Nat) : Outcome AdjacencyMatrix := do
  (← combinations r n).foldlM (solveSubset graph start n) memo

def solve (graph : AdjacencyMatrix) (start n : Nat) (memo : AdjacencyMatrix) : Outcome AdjacencyMatrix :=
  (List.range' 3 (n - 2)).foldlM (solveSize graph start n) memo

def findMinCost (graph memo : AdjacencyMatrix) (start n : Nat) : Outcome Int :=
  (List.range n).foldlM (leastDist (fun e => e = start) (newDist graph memo ((1 <<< n) - 1) start)) maxInt

/-- `for (int j = 0; j < N; ++j)`; the index is `none` where the source has `-1`. -/
def nearest (graph memo : AdjacencyMatrix) (start state lastIndex : Nat) (index : Option Nat) (j : Nat) : Outcome (Option Nat) :=
  if j = start ∨ notIn j state then .ok index
  else do
    let index := index.getD j
    let prevDist ← newDist graph memo state lastIndex index
    let newDist ← newDist graph memo state lastIndex j
    .ok (some (if newDist < prevDist then j else index))

/-- `for (int i = N - 1; i >= 1; --i)` -/
def tourLoop (graph memo : AdjacencyMatrix) (start n : Nat) : Nat → Nat → Nat → List Nat → Outcome (List Nat)
  | 0, _, _, tour => .ok tour
  | i + 1, lastIndex, state, tour => do
      match ← (List.range n).foldlM (nearest graph memo start state lastIndex) none with
      | some index => tourLoop graph memo start n i index (state ^^^ (1 <<< index)) (← writeAt tour (i + 1 : Nat) index)
      | none => .error .outOfRange

def findOptimalTour (graph memo : AdjacencyMatrix) (start n : Nat) : Outcome (List Nat) := do
  let tour ← tourLoop graph memo start n (n - 1) start ((1 <<< n) - 1) (List.replicate (n + 1) 0)
  writeAt (← writeAt tour 0 start) (n : Nat) start

/-- `tsp::Solve`; the masks are `int` up to 30 nodes. -/
def solveTsp (graph : AdjacencyMatrix) (start : Nat) : Outcome TravellingSalesmanResult :=
  let n := graph.length
  if n < 31 then do
    let memo ← setup graph start n (List.replicate n (List.replicate (1 <<< n) 0))
    let memo ← solve graph start n memo
    let tour ← findOptimalTour graph memo start n
    .ok { tour := tour, minCost := ← findMinCost graph memo start n }
  else .error .overflow

end Dsac.Graph.Tsp

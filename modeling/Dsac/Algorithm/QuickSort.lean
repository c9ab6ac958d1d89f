import Dsac.Algorithm.Vector

namespace Dsac.Sort

/-! `dsac::sort::v1::QuickSort` and `dsac::sort::v2::QuickSort`. The pivot is held in an `int`, and
`convert` is what the comparisons with elements make of it. The fuel bounds the depth of the
recursion and the numbers of iterations. All steps but those of the unguarded `++left` keep an index
between -1 and the last one plus one, so that only these are checked. -/

/-- The element types whose values an `int` is made of. -/
inductive Element where
  | int
  | int64
  | uint64
deriving DecidableEq, Repr

namespace Element

def Holds : Element → Int → Prop
  | .int, value => minInt ≤ value ∧ value ≤ maxInt
  | .int64, value => -2 ^ 63 ≤ value ∧ value < 2 ^ 63
  | .uint64, value => 0 ≤ value ∧ value < 2 ^ 64

/-- A value that was assigned to an `int`, in a comparison with an element: there it is converted to
the element type if that is wider. -/
def convert : Element → Int → Int
  | .int, value | .int64, value => toInt value
  | .uint64, value => toInt value % 2 ^ 64

end Element

variable {T : Type} [LinearOrder T]

namespace V1

/-- `while (arr[left] < pivot) ++left;` -/
def scanLeft (arr : List T) (pivot : T) : Nat → Int → Outcome Int
  | 0, _ => .error .fuel
  | fuel + 1, left => do
      if (← readAt arr left) < pivot then scanLeft arr pivot fuel (← checked (left + 1)) else return left

/-- `while (arr[right] > pivot) --right;` -/
def scanRight (arr : List T) (pivot : T) : Nat → Int → Outcome Int
  | 0, _ => .error .fuel
  | fuel + 1, right => do
      if (← readAt arr right) > pivot then scanRight arr pivot fuel (right - 1) else return right

structure Parted (T : Type) where
  arr : List T
  left : Int
  right : Int

/-- The loop that ends when `left` has passed `right`. -/
def partitionLoop (pivot : T) : Nat → Parted T → Outcome (Parted T)
  | 0, _ => .error .fuel
  | fuel + 1, ⟨arr, left, right⟩ =>
      if left ≤ right then do
        let left ← scanLeft arr pivot fuel left
        let right ← scanRight arr pivot fuel right
        if left ≤ right then partitionLoop pivot fuel ⟨← swapAt arr left right, left + 1, right - 1⟩
        else partitionLoop pivot fuel ⟨arr, left, right⟩
      else .ok ⟨arr, left, right⟩

/-- What precedes the recursive calls. -/
def partition (convert : T → T) (fuel : Nat) (arr : List T) (low high : Int) : Outcome (Parted T) := do
  let pivot ← readAt arr ((← checked (low + high)).tdiv 2)
  partitionLoop (convert pivot) fuel ⟨arr, low, high⟩

def quickSortImpl (convert : T → T) : Nat → List T → Int → Int → Outcome (List T)
  | 0, _, _, _ => .error .fuel
  | fuel + 1, arr, low, high =>
      if low < high then do
        let ⟨arr, left, right⟩ ← partition convert fuel arr low high
        let arr ← quickSortImpl convert fuel arr low right
        quickSortImpl convert fuel arr left high
      else .ok arr

def quickSort (convert : T → T) (fuel : Nat) (arr : List T) : Outcome (List T) := do
  quickSortImpl convert fuel arr 0 (← checked (toInt arr.length - 1))

end V1

namespace V2

/-- `for (int i = low; i < high; ++i)`, the last `count` iterations. -/
def partitionLoop (pivot : T) : Nat → List T → Int → Int → Outcome (List T × Int)
  | 0, arr, left, _ => .ok (arr, left)
  | count + 1, arr, left, i => do
      if (← readAt arr i) < pivot then partitionLoop pivot count (← swapAt arr left i) (left + 1) (i + 1)
      else partitionLoop pivot count arr left (i + 1)

/-- What precedes the recursive calls: the partition, with the place of the pivot. -/
def partition (convert : T → T) (arr : List T) (low high : Int) : Outcome (List T × Int) := do
  let pivot := convert (← readAt arr high)
  let (arr, left) ← partitionLoop pivot (high - low).toNat arr low low
  return (← swapAt arr left high, left)

def quickSortImpl (convert : T → T) : Nat → List T → Int → Int → Outcome (List T)
  | 0, _, _, _ => .error .fuel
  | fuel + 1, arr, low, high =>
      if low < high then do
        let (arr, left) ← partition convert arr low high
        let arr ← quickSortImpl convert fuel arr low (left - 1)
        quickSortImpl convert fuel arr (left + 1) high
      else .ok arr

def quickSort (convert : T → T) (fuel : Nat) (arr : List T) : Outcome (List T) := do
  quickSortImpl convert fuel arr 0 (← checked (toInt arr.length - 1))

end V2

end Dsac.Sort

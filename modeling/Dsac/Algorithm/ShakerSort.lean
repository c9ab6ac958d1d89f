import Dsac.Algorithm.Vector

namespace Dsac.Sort

/-! `dsac::sort::v1::ShakerSort` and `dsac::sort::v2::ShakerSort`. The fuel bounds the number of
iterations of the outer loops. -/

variable {T : Type} [LinearOrder T]

namespace V1

/-- `for (int i = left; i < right; ++i)`, the last `count` iterations. -/
def riseLoop : Nat → List T → Int → Outcome (List T)
  | 0, arr, _ => .ok arr
  | count + 1, arr, i => do
      if (← readAt arr i) > (← readAt arr (i + 1)) then riseLoop count (← swapAt arr i (i + 1)) (i + 1)
      else riseLoop count arr (i + 1)

/-- `for (int i = right; i > left; --i)`, the last `count` iterations. -/
def sinkLoop : Nat → List T → Int → Outcome (List T)
  | 0, arr, _ => .ok arr
  | count + 1, arr, i => do
      if (← readAt arr (i - 1)) > (← readAt arr i) then sinkLoop count (← swapAt arr (i - 1) i) (i - 1)
      else sinkLoop count arr (i - 1)

def shakerLoop : Nat → List T → Int → Int → Outcome (List T)
  | 0, _, _, _ => .error .fuel
  | fuel + 1, arr, left, right => do
      let arr ← riseLoop (right - left).toNat arr left
      let right ← checked (right - 1)
      let arr ← sinkLoop (right - left).toNat arr right
      let left ← checked (left + 1)
      if left < right then shakerLoop fuel arr left right else return arr

def shakerSort (arr : List T) : Outcome (List T) := do
  shakerLoop (arr.length + 1) arr 0 (← checked (toInt arr.length - 1))

end V1

namespace V2

/-- `for (int i = left; i < right; ++i)`, the last `count` iterations, with `latest_swap`. -/
def riseLoop : Nat → List T → Int → Int → Outcome (List T × Int)
  | 0, arr, _, latestSwap => .ok (arr, latestSwap)
  | count + 1, arr, i, latestSwap => do
      if (← readAt arr i) > (← readAt arr (i + 1)) then riseLoop count (← swapAt arr i (i + 1)) (i + 1) i
      else riseLoop count arr (i + 1) latestSwap

/-- `for (int i = right; i > left; --i)`, the last `count` iterations, with `latest_swap`. -/
def sinkLoop : Nat → List T → Int → Int → Outcome (List T × Int)
  | 0, arr, _, latestSwap => .ok (arr, latestSwap)
  | count + 1, arr, i, latestSwap => do
      if (← readAt arr (i - 1)) > (← readAt arr i) then sinkLoop count (← swapAt arr (i - 1) i) (i - 1) i
      else sinkLoop count arr (i - 1) latestSwap

def shakerLoop : Nat → List T → Int → Int → Int → Outcome (List T)
  | 0, _, _, _, _ => .error .fuel
  | fuel + 1, arr, left, right, latestSwap => do
      let (arr, right) ← riseLoop (right - left).toNat arr left latestSwap
      let (arr, left) ← sinkLoop (right - left).toNat arr right right
      if left < right then shakerLoop fuel arr left right left else return arr

def shakerSort (arr : List T) : Outcome (List T) := do
  let last ← checked (toInt arr.length - 1)
  shakerLoop (arr.length + 1) arr 0 last last

end V2

end Dsac.Sort

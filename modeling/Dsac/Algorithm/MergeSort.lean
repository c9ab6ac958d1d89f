import Dsac.Algorithm.Vector

namespace Dsac.Sort

/-! `dsac::sort::MergeSort`. The indices other than `low + high` stay within the size of the vector. -/

variable {T : Type} [Inhabited T] (le : T → T → Bool)

/-- `for (int i = 0; i < n; ++i) target[i] = arr[offset + i];`, the last `count` iterations. -/
def copyLoop (arr : List T) (offset : Int) : Nat → Int → List T → Outcome (List T)
  | 0, _, target => .ok target
  | count + 1, i, target => do
      copyLoop arr offset count (i + 1) (← writeAt target i (← readAt arr (offset + i)))

structure Merging (T : Type) where
  arr : List T
  i : Int
  j : Int
  k : Int

/-- The main loop; the fuel bounds the number of its iterations. -/
def mergeLoop (L R : List T) (high : Int) : Nat → Merging T → Outcome (Merging T)
  | 0, _ => .error .fuel
  | fuel + 1, ⟨arr, i, j, k⟩ =>
      if k ≤ high then
        if i = L.length ∨ j = R.length then .ok ⟨arr, i, j, k⟩
        else do
          let first ← readAt L i
          let second ← readAt R j
          if le first second then mergeLoop L R high fuel ⟨← writeAt arr k first, i + 1, j, k + 1⟩
          else mergeLoop L R high fuel ⟨← writeAt arr k second, i, j + 1, k + 1⟩
      else .ok ⟨arr, i, j, k⟩

/-- `for (; i < source.size(); ++i, ++k) arr[k] = source[i];`, with the indices it ends with. -/
def drain (source : List T) : Nat → List T → Int → Int → Outcome (List T × Int × Int)
  | 0, _, _, _ => .error .fuel
  | fuel + 1, arr, i, k =>
      if i < source.length then do drain source fuel (← writeAt arr k (← readAt source i)) (i + 1) (k + 1)
      else .ok (arr, i, k)

def merge (arr : List T) (low mid high : Int) : Outcome (List T) := do
  let n1 := mid - low + 1
  let n2 := high - mid
  let L ← copyLoop arr low n1.toNat 0 (List.replicate n1.toNat default)
  let R ← copyLoop arr (mid + 1) n2.toNat 0 (List.replicate n2.toNat default)
  let ⟨arr, i, j, k⟩ ← mergeLoop le L R high (L.length + R.length + 1) ⟨arr, 0, 0, low⟩
  let (arr, j, k) ← if i = L.length then drain R (R.length + 1) arr j k else pure (arr, j, k)
  let (arr, _, _) ← if j = R.length then drain L (L.length + 1) arr i k else pure (arr, i, k)
  return arr

/-- The fuel bounds the depth of the recursion. -/
def mergeSortTopDownImpl : Nat → List T → Int → Int → Outcome (List T)
  | 0, _, _, _ => .error .fuel
  | fuel + 1, arr, low, high =>
      if low < high then do
        let middle := (← checked (low + high)).tdiv 2
        let arr ← mergeSortTopDownImpl fuel arr low middle
        let arr ← mergeSortTopDownImpl fuel arr (middle + 1) high
        merge le arr low middle high
      else .ok arr

def mergeSort (arr : List T) : Outcome (List T) := do
  mergeSortTopDownImpl le (arr.length + 1) arr 0 (← checked (toInt arr.length - 1))

end Dsac.Sort

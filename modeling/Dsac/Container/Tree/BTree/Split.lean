import Dsac.Container.Tree.BTree

namespace Dsac.Tree

open Dsac.Library

/-! The effect of the node operations on sorted nodes, up to the split of a full leaf. -/

variable {T : Type} [LinearOrder T]

namespace BTreeNode

theorem assertSorted_of_sorted {node : BTreeNode T} (sorted : Sorted node.keys) :
    assertSorted node = .ok node := if_pos sorted

omit [LinearOrder T] in
theorem getKey_append (before after : List T) (key : T) (children : List Addr) :
    getKey ⟨before ++ key :: after, children⟩ before.length = .ok key := by
  simp [getKey]

omit [LinearOrder T] in
theorem getChild_append (keys : List T) (before after : List Addr) (child : Addr) :
    getChild (T := T) ⟨keys, before ++ child :: after⟩ before.length = .ok child := by
  simp [getChild]

theorem addKeyImpl_sorted {keys : List T} (children : List Addr) (sorted : Sorted keys) (key : T) :
    ∃ below above, keys = below ++ above ∧ (∀ b ∈ below, b ≤ key) ∧ (∀ a ∈ above, key < a) ∧
      addKeyImpl ⟨keys, children⟩ key = .ok ⟨below ++ key :: above, children⟩ := by
  obtain ⟨below, above, rfl, index, low, high⟩ := upperBound_splits sorted key
  refine ⟨below, above, rfl, low, high, ?_⟩
  rw [addKeyImpl, index, insertIdx_length_append]
  exact assertSorted_of_sorted (sorted.insert low (fun a member => (high a member).le))

theorem addKeyImpl_last {keys : List T} {key : T} (children : List Addr)
    (sorted : Sorted (keys ++ [key])) :
    addKeyImpl ⟨keys, children⟩ key = .ok ⟨keys ++ [key], children⟩ := by
  have low : ∀ b ∈ keys, b ≤ key := fun b member =>
    (List.pairwise_append.mp sorted).2.2 b member key (by simp)
  rw [addKeyImpl, upperBound_eq_length low, List.insertIdx_length_self]
  exact assertSorted_of_sorted sorted

/-- The new node of a split receives the keys behind the median, one after the other. -/
theorem copyKeys_full {t : Nat} {low high : List T} {median : T} {children : List Addr}
    (lowLength : low.length = t - 1) (highLength : high.length = t - 1) (positive : 1 ≤ t)
    (sorted : Sorted high) :
    copyKeys t ⟨low ++ median :: high, children⟩ {} = .ok ⟨high, []⟩ := by
  suffices copied : ∀ count, count ≤ high.length →
      (List.range count).foldlM (fun newNode j => do
        newNode.addKeyImpl (← getKey ⟨low ++ median :: high, children⟩ (j + t))) ({} : BTreeNode T) =
        .ok ⟨high.take count, []⟩ by
    rw [copyKeys, ← highLength, copied high.length le_rfl, List.take_length]
  intro count bound
  induction count with
  | zero => rfl
  | succ count ih =>
      have inside : count < high.length := bound
      have read : getKey ⟨low ++ median :: high, children⟩ (count + t) = .ok high[count] := by
        have past : ¬ count + t < low.length := by omega
        have index : count + t - low.length = count + 1 := by omega
        rw [getKey, List.getElem?_append_right (by omega), index, List.getElem?_cons_succ,
          List.getElem?_eq_getElem inside]
      have extended : high.take count ++ [high[count]] = high.take (count + 1) :=
        List.take_append_getElem inside
      rw [List.range_succ, List.foldlM_append, ih (by omega)]
      simp only [List.foldlM_cons, List.foldlM_nil, bind, Except.bind, pure, Except.pure, read]
      rw [addKeyImpl_last, extended]
      rw [extended]
      exact sorted.sublist (List.take_sublist _ _)

/-- The split node drops the median and the keys behind it, from the last one on. -/
theorem dropKeys_full {t : Nat} {low high : List T} {median : T} {children : List Addr}
    (lowLength : low.length = t - 1) (highLength : high.length = t - 1) (positive : 1 ≤ t)
    (sorted : Sorted (low ++ median :: high)) :
    dropKeys t ⟨low ++ median :: high, children⟩ = .ok ⟨low, children⟩ := by
  have length : (low ++ median :: high).length = 2 * t - 1 := by
    simp only [List.length_append, List.length_cons]
    omega
  suffices dropped : ∀ keys : List T, keys.length = 2 * t - 1 → Sorted keys → ∀ count, count ≤ t →
      (List.range count).foldlM (fun root j => do
        return root.removeKey (← root.getKey (2 * t - 2 - j))) (⟨keys, children⟩ : BTreeNode T) =
        .ok ⟨keys.take (2 * t - 1 - count), children⟩ by
    rw [dropKeys, dropped _ length sorted t le_rfl]
    have kept : 2 * t - 1 - t = low.length := by omega
    rw [kept, List.take_left]
  intro keys keysLength keysSorted count bound
  induction count with
  | zero => simp [← keysLength]; rfl
  | succ count ih =>
      have inside : 2 * t - 2 - count < keys.length := by omega
      have size : 2 * t - 1 - count = 2 * t - 2 - count + 1 := by omega
      have split : keys.take (2 * t - 1 - count) =
          keys.take (2 * t - 2 - count) ++ [keys[2 * t - 2 - count]] := by
        rw [size]
        exact (List.take_append_getElem inside).symm
      have read : getKey (⟨keys.take (2 * t - 1 - count), children⟩ : BTreeNode T) (2 * t - 2 - count) =
          .ok keys[2 * t - 2 - count] := by
        rw [getKey, List.getElem?_take_of_lt (by omega), List.getElem?_eq_getElem inside]
      have fewer : 2 * t - 1 - (count + 1) = 2 * t - 2 - count := by omega
      rw [List.range_succ, List.foldlM_append, ih (by omega)]
      simp only [List.foldlM_cons, List.foldlM_nil, bind, Except.bind, pure, Except.pure, read, removeKey]
      rw [split, Sorted.erase_last, fewer]
      rw [← split]
      exact keysSorted.sublist (List.take_sublist _ _)

end BTreeNode

open BTreeNode

theorem addKey_leaf {t : Nat} {heap : Heap (BTreeNode T)} {this : Addr} {keys : List T}
    (live : heap.get this = some ⟨keys, []⟩) (sorted : Sorted keys) (key : T) :
    ∃ below above, keys = below ++ above ∧ (∀ b ∈ below, b ≤ key) ∧ (∀ a ∈ above, key < a) ∧
      ∀ fuel, addKey t (fuel + 1) heap this key = .ok (heap.set this ⟨below ++ key :: above, []⟩) := by
  obtain ⟨below, above, split, low, high, added⟩ := addKeyImpl_sorted [] sorted key
  refine ⟨below, above, split, low, high, fun fuel => ?_⟩
  simp only [addKey, load_of_get live, isLeaf, List.isEmpty_nil, if_true, bind, Except.bind, added,
    store_of_get live]

/-- The split of a full leaf below a node that has room for the median. -/
theorem splitChild_leaf {t : Nat} {heap : Heap (BTreeNode T)} {this root : Addr}
    {keysBefore keysAfter low high : List T} {childrenBefore childrenAfter : List Addr} {median : T}
    (positive : 1 ≤ t) (aligned : childrenBefore.length = keysBefore.length)
    (parent : heap.get this =
      some ⟨keysBefore ++ keysAfter, childrenBefore ++ root :: childrenAfter⟩)
    (child : heap.get root = some ⟨low ++ median :: high, []⟩) (different : root ≠ this)
    (lowLength : low.length = t - 1) (highLength : high.length = t - 1)
    (keysSorted : Sorted (keysBefore ++ median :: keysAfter))
    (childSorted : Sorted (low ++ median :: high)) :
    splitChild t heap this keysBefore.length root = .ok
      (((heap.alloc ⟨high, []⟩).set this ⟨keysBefore ++ median :: keysAfter,
        childrenBefore ++ root :: heap.fresh :: childrenAfter⟩).set root ⟨low, []⟩) := by
  have highSorted : Sorted high := childSorted.sublist
    ((List.sublist_cons_self _ _).trans (List.sublist_append_right _ _))
  have parentKept : (heap.alloc ⟨high, []⟩).get this =
      some ⟨keysBefore ++ keysAfter, childrenBefore ++ root :: childrenAfter⟩ := by
    rw [Heap.get_alloc_of_ne (Heap.get_ne_fresh parent), parent]
  have linked : (childrenBefore ++ root :: childrenAfter).insertIdx (keysBefore.length + 1) heap.fresh =
      childrenBefore ++ root :: heap.fresh :: childrenAfter := by
    have shifted := insertIdx_length_append (childrenBefore ++ [root]) childrenAfter heap.fresh
    simpa [aligned] using shifted
  have placed : (⟨keysBefore ++ keysAfter, childrenBefore ++ root :: heap.fresh :: childrenAfter⟩ :
      BTreeNode T).addKeyByIndex keysBefore.length median =
      .ok ⟨keysBefore ++ median :: keysAfter, childrenBefore ++ root :: heap.fresh :: childrenAfter⟩ := by
    rw [addKeyByIndex]
    simp only [insertIdx_length_append]
    exact assertSorted_of_sorted keysSorted
  have read := getKey_append low high median []
  rw [lowLength] at read
  simp only [splitChild, load_of_get child, copyKeys_full lowLength highLength positive highSorted,
    isLeaf, List.isEmpty_nil, if_true, load_of_get parentKept, addChildByIndex, linked, read, placed,
    store_of_get parentKept, bind, Except.bind]
  have childKept : ((heap.alloc ⟨high, []⟩).set this ⟨keysBefore ++ median :: keysAfter,
      childrenBefore ++ root :: heap.fresh :: childrenAfter⟩).get root =
      some ⟨low ++ median :: high, []⟩ := by
    rw [Heap.get_set_of_ne different, Heap.get_alloc_of_ne (Heap.get_ne_fresh child), child]
  simp only [load_of_get childKept, dropKeys_full lowLength highLength positive childSorted,
    store_of_get childKept]

end Dsac.Tree

import Dsac.Container.Tree.BsTree.Insertions

namespace Dsac.Algorithm

open Dsac.Library Dsac.Tree Dsac.Tree.BinarySearchTree

/-! `binary_tree_sort`, which sorts a range by its insertion into a search tree. -/

variable {Key : Type}

/-- How the sort ends, with the range that it leaves. -/
inductive SortResult (Key : Type) where
  | returned (range : List Key)
  /-- `DublicateNotSupported` is thrown -/
  | dublicateNotSupported (range : List Key)
deriving DecidableEq, Repr

/-- `std::copy` from an iterator of the tree, to the elements of the range from an index on. -/
def copy : Nat → Heap (BstNode Key) → Option Addr → List Key → Nat → Outcome (List Key)
  | _, _, none, range, _ => .ok range
  | 0, _, some _, _, _ => .error .fuel
  | fuel + 1, heap, some node, range, index => do
      let key := (← load heap node).key_
      if index < range.length then copy fuel heap (← findNextNode heap node) (range.set index key) (index + 1)
      else .error .outOfRange

def binaryTreeSort (compare_ : Key → Key → Bool) (range : List Key) (binaryTree : BinarySearchTree Key) :
    Outcome (SortResult Key) := do
  let binaryTree ← binaryTree.insertRange compare_ range
  if binaryTree.size_ ≠ range.length then return .dublicateNotSupported range
  else return .returned (← copy (depthBound binaryTree.heap) binaryTree.heap (← binaryTree.begin) range 0)

/-- The copy of an iteration that yields some keys overwrites as many elements. -/
theorem copy_of_iterate {heap : Heap (BstNode Key)} {position : Option Addr} {fuel : Nat} {keys : List Key}
    (yields : iterate fuel heap position = .ok keys) (before replaced after : List Key)
    (length : replaced.length = keys.length) :
    copy fuel heap position (before ++ replaced ++ after) before.length = .ok (before ++ keys ++ after) := by
  induction fuel generalizing position keys before replaced with
  | zero =>
      cases position with
      | none =>
          cases yields
          rw [List.length_eq_zero_iff.mp length, copy]
      | some address => cases yields
  | succ fuel ih =>
      cases position with
      | none =>
          cases yields
          rw [List.length_eq_zero_iff.mp length, copy]
      | some address =>
          obtain ⟨node, loaded, yields⟩ := Outcome.of_bind yields
          obtain ⟨later, moved, yields⟩ := Outcome.of_bind yields
          obtain ⟨others, rest, yields⟩ := Outcome.of_bind yields
          cases yields
          cases replaced with
          | nil => cases length
          | cons old replaced =>
              have inside : before.length < (before ++ old :: replaced ++ after).length := by
                simp only [List.length_append, List.length_cons]
                omega
              have written : (before ++ old :: replaced ++ after).set before.length node.key_ =
                  (before ++ [node.key_]) ++ replaced ++ after := by
                simp
              have further := ih rest (before ++ [node.key_]) replaced (Nat.succ.inj length)
              rw [List.length_append, List.length_singleton] at further
              simp only [copy, loaded, Outcome.ok_bind, if_pos inside, moved, written, further]
              rw [List.append_assoc before, List.singleton_append]

theorem copy_all {tree : BinarySearchTree Key} {keys range : List Key} (yields : tree.keys = .ok keys)
    (length : range.length = keys.length) :
    (do copy (depthBound tree.heap) tree.heap (← tree.begin) range 0) = .ok keys := by
  obtain ⟨first, starts, yields⟩ := Outcome.of_bind yields
  have copied := copy_of_iterate yields [] range [] length
  simp only [List.nil_append, List.append_nil, List.length_nil] at copied
  rw [starts, Outcome.ok_bind, copied]

/-- **The sort is all or nothing.** A range without equivalent elements becomes its sorted
permutation; for any other the exception is thrown and the range is the same. -/
theorem binaryTreeSort_sorts {compare_ : Key → Key → Bool} (order : StrictWeakOrder compare_) (range : List Key) :
    (range.Pairwise (fun first second => compare_ first second ∨ compare_ second first) →
      ∃ sorted, binaryTreeSort compare_ range {} = .ok (.returned sorted) ∧ sorted.Perm range ∧
        sorted.Pairwise (compare_ · ·)) ∧
    (¬ range.Pairwise (fun first second => compare_ first second ∨ compare_ second first) →
      binaryTreeSort compare_ range {} = .ok (.dublicateNotSupported range)) := by
  have empty : Holds compare_ ({} : BinarySearchTree Key) .nil [] :=
    ⟨⟨rfl, trivial, Multiset.nodup_zero⟩, List.Pairwise.nil, rfl, rfl⟩
  obtain ⟨tree, shape, filled, holds⟩ := insertRange_holds order range empty
  have counts : tree.size_ = range.length ↔
      range.Pairwise fun first second => compare_ first second ∨ compare_ second first := by
    have all := @length_foldl_insertUnique _ compare_ range []
    rw [List.length_nil, Nat.zero_add] at all
    rw [holds.size, all]
    simp
  constructor
  · intro apart
    have full := counts.mpr apart
    have yields := keys_linked holds.linked
    rw [holds.values] at yields
    refine ⟨range.foldl (insertUnique compare_) [], ?_, ?_, ?_⟩
    · have copied := copy_all yields (full.symm.trans holds.size)
      obtain ⟨first, starts, copied⟩ := Outcome.of_bind copied
      simp only [binaryTreeSort, filled, Outcome.ok_bind, full, ne_eq, not_true_eq_false, if_false, starts, copied]
      rfl
    · have permuted := @foldl_insertUnique_perm _ compare_ range [] apart (fun _ _ _ => nofun)
      rwa [List.append_nil] at permuted
    · rw [← holds.values]
      exact (LinkedTree.ordered_iff_values ..).mp holds.ordered
  · intro repeats
    have short := mt counts.mp repeats
    simp only [binaryTreeSort, filled, Outcome.ok_bind, ne_eq, short, not_false_eq_true, if_true]
    rfl

/-- Pairs are compared by their first entries, so the last of the second range repeats one. -/
theorem binaryTreeSort_sorts_pairs :
    (∃ sorted, binaryTreeSort (fun a b : Nat × Nat => decide (a.1 < b.1)) [(3, 0), (1, 1), (2, 2)] {} =
        .ok (.returned sorted) ∧ sorted.Perm [(3, 0), (1, 1), (2, 2)] ∧ sorted.Pairwise (·.1 < ·.1)) ∧
      binaryTreeSort (fun a b : Nat × Nat => decide (a.1 < b.1)) [(3, 0), (1, 1), (3, 2)] {} =
        .ok (.dublicateNotSupported [(3, 0), (1, 1), (3, 2)]) := by
  have order : StrictWeakOrder fun a b : Nat × Nat => decide (a.1 < b.1) := StrictWeakOrder.less.on Prod.fst
  refine ⟨?_, (binaryTreeSort_sorts order _).2 (by decide)⟩
  obtain ⟨sorted, returned, permuted, increases⟩ := (binaryTreeSort_sorts order [(3, 0), (1, 1), (2, 2)]).1 (by decide)
  exact ⟨sorted, returned, permuted, increases.imp of_decide_eq_true⟩

end Dsac.Algorithm

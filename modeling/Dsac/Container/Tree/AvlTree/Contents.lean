import Dsac.Library.Run
import Dsac.Container.Tree.AvlTree.Order

namespace Dsac.Tree.AvlTree

open Dsac.Library

/-! The set of keys that a sequence of calls leaves in the tree, whatever the
deletions among them have done to its balance. -/

variable {T : Type u} [LinearOrder T]

/-- The keys inserted and not deleted since. -/
def keysAfter (calls : List (Call T)) : Finset T :=
  calls.foldl (fun keys next => match next with
    | .insert key => insert key keys
    | .delete key => keys.erase key) ∅

theorem keysAfter_insert (calls : List (Call T)) (key : T) :
    keysAfter (calls ++ [.insert key]) = insert key (keysAfter calls) := by
  simp [keysAfter]

theorem keysAfter_delete (calls : List (Call T)) (key : T) :
    keysAfter (calls ++ [.delete key]) = (keysAfter calls).erase key := by
  simp [keysAfter]

/-- Insertion of an absent key needs a way down that passes no overhanging child. -/
def InsertClear (tree : AvlTree T) : Call T → Prop
  | .insert key => tree.contains key = true ∨ tree.root.PathClear key
  | .delete _ => True

instance (tree : AvlTree T) : (next : Call T) → Decidable (tree.InsertClear next)
  | .insert key => inferInstanceAs (Decidable (tree.contains key = true ∨ tree.root.PathClear key))
  | .delete _ => .isTrue trivial

/-- The tree holds exactly the given keys, in order, under any stored heights. -/
structure Holds (keys : Finset T) (tree : AvlTree T) : Prop where
  members : ∀ key, key ∈ tree.visit ↔ key ∈ keys
  ordered : tree.root.Ordered
  nonneg : tree.root.HeightsNonneg

theorem Holds.visit {keys : Finset T} {tree : AvlTree T} (holds : Holds keys tree) :
    tree.visit = keys.sort (· ≤ ·) := by
  refine List.Perm.eq_of_pairwise (fun _ _ _ _ => le_antisymm)
    (holds.ordered.imp le_of_lt) (Finset.pairwise_sort keys _) ?_
  refine (List.perm_ext_iff_of_nodup (holds.ordered.imp ne_of_lt) (Finset.sort_nodup keys _)).mpr ?_
  intro key
  rw [Finset.mem_sort]
  exact holds.members key

theorem Holds.contains {keys : Finset T} {tree : AvlTree T} (holds : Holds keys tree) (key : T) :
    tree.contains key = decide (key ∈ keys) := by
  rw [Bool.eq_iff_iff, decide_eq_true_iff, ← holds.members]
  exact AvlNode.contains_iff_mem_visit key tree.root

theorem Holds.insert {keys : Finset T} {tree : AvlTree T} (holds : Holds keys tree) {key : T}
    (clear : tree.InsertClear (.insert key)) :
    ∃ after, tree.insert key = .ok (after, decide (key ∉ keys)) ∧ Holds (insert key keys) after := by
  by_cases present : key ∈ keys
  · refine ⟨tree, ?_, by rwa [Finset.insert_eq_of_mem present]⟩
    rw [AvlTree.insert, holds.contains, if_pos (decide_eq_true present)]
    simp only [present, not_true_eq_false, decide_false]
  · have absent : key ∉ tree.root.visit := fun member => present ((holds.members key).mp member)
    have missing : tree.contains key = false := by rw [holds.contains]; exact decide_eq_false present
    have pathClear : tree.root.PathClear key := by
      rcases clear with found | pathClear
      · rw [missing] at found; cases found
      · exact pathClear
    obtain ⟨root, inserted, after⟩ :=
      AvlNode.insertImpl_inserted holds.ordered holds.nonneg pathClear absent
    refine ⟨{ root }, ?_, ?_, after.ordered, after.nonneg⟩
    · rw [AvlTree.insert, missing]
      simp only [Bool.false_eq_true, if_false, inserted, bind, Except.bind, pure, Except.pure,
        present, not_false_eq_true, decide_true]
    · intro other
      rw [Finset.mem_insert, ← holds.members]
      exact after.members other

theorem Holds.delete {keys : Finset T} {tree : AvlTree T} (holds : Holds keys tree) (key : T) :
    ∃ after, tree.delete key = .ok after ∧ Holds (keys.erase key) after := by
  obtain ⟨root, deleted, after⟩ := AvlNode.deleteImpl_deleted key holds.ordered holds.nonneg
  refine ⟨{ root }, ?_, ?_, ?_, after.nonneg⟩
  · simp only [AvlTree.delete, deleted, bind, Except.bind, pure, Except.pure]
  · intro other
    rw [AvlTree.visit, after.visit, Finset.mem_erase, ← holds.members, List.mem_filter]
    simp only [ne_eq, decide_not, Bool.not_eq_eq_eq_not, Bool.not_true, decide_eq_false_iff_not]
    exact and_comm
  · rw [AvlNode.Ordered, after.visit]
    exact holds.ordered.filter _

theorem Holds.call {calls : List (Call T)} {tree : AvlTree T} (holds : Holds (keysAfter calls) tree)
    {next : Call T} (clear : tree.InsertClear next) :
    ∃ after, tree.call next = .ok after ∧ Holds (keysAfter (calls ++ [next])) after := by
  cases next with
  | insert key =>
      obtain ⟨after, inserted, held⟩ := holds.insert clear
      exact ⟨after, by simp only [AvlTree.call, inserted]; rfl, by rwa [keysAfter_insert]⟩
  | delete key =>
      obtain ⟨after, deleted, held⟩ := holds.delete key
      exact ⟨after, deleted, by rwa [keysAfter_delete]⟩

theorem run_holds {calls : List (Call T)} (clear : Meets call InsertClear {} calls) :
    ∃ tree, run call ({} : AvlTree T) calls = .ok tree ∧ Holds (keysAfter calls) tree := by
  have empty : Holds (keysAfter []) ({} : AvlTree T) :=
    ⟨by simp [keysAfter, AvlTree.visit, AvlNode.visit], .nil, trivial⟩
  exact run_invariant call (fun past tree => Holds (keysAfter past) tree)
    (fun past tree next holds clear => holds.call clear) empty clear

end Dsac.Tree.AvlTree

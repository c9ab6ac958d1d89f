import Dsac.Container.Tree.AvlTree.Contents
import Dsac.Container.Tree.AvlTree.DeleteBalance

namespace Dsac.Tree.AvlTree

open Dsac.Library

/-! Runs that stay balanced: all runs of insertions, and the runs whose deletions
are safe for the tree they meet. -/

variable {T : Type u} [LinearOrder T]

/-- A balanced tree that holds exactly the given keys. -/
structure Balanced (keys : Finset T) (tree : AvlTree T) : Prop where
  holds : Holds keys tree
  isAvl : tree.root.IsAvl

theorem Balanced.depth_eq {keys : Finset T} {tree : AvlTree T} (balanced : Balanced keys tree) :
    tree.depth = tree.root.trueHeight := by
  have exact := balanced.isAvl
  rw [depth]
  cases shape : tree.root with
  | null => rfl
  | node key left right height => rw [shape] at exact; exact exact.1

theorem Balanced.insertClear {keys : Finset T} {tree : AvlTree T} (balanced : Balanced keys tree)
    (key : T) : tree.InsertClear (.insert key) :=
  Or.inr (balanced.isAvl.pathClear key)

theorem Balanced.insert {keys : Finset T} {tree : AvlTree T} (balanced : Balanced keys tree)
    (key : T) :
    ∃ after, tree.insert key = .ok (after, decide (key ∉ keys)) ∧ Balanced (insert key keys) after := by
  obtain ⟨after, inserted, held⟩ := balanced.holds.insert (balanced.insertClear key)
  refine ⟨after, inserted, held, ?_⟩
  by_cases present : key ∈ keys
  · rw [AvlTree.insert, balanced.holds.contains, if_pos (decide_eq_true present)] at inserted
    obtain rfl : tree = after := congrArg Prod.fst (Except.ok.inj inserted)
    exact balanced.isAvl
  · have absent : key ∉ tree.root.visit := fun member => present ((balanced.holds.members key).mp member)
    obtain ⟨root, rootInserted, _, grown, _⟩ :=
      AvlNode.insertImpl_grown balanced.isAvl balanced.holds.ordered absent
    rw [AvlTree.insert, balanced.holds.contains, decide_eq_false present] at inserted
    simp only [Bool.false_eq_true, if_false, rootInserted, bind, Except.bind, pure, Except.pure] at inserted
    obtain rfl : { root } = after := congrArg Prod.fst (Except.ok.inj inserted)
    exact grown.isAvl

theorem Balanced.rotationsFit {keys : Finset T} {tree : AvlTree T} (balanced : Balanced keys tree)
    {key : T} (absent : key ∉ keys) : tree.root.RotationsFit key := by
  obtain ⟨_, _, _, _, fit⟩ := AvlNode.insertImpl_grown balanced.isAvl balanced.holds.ordered
    (fun member => absent ((balanced.holds.members key).mp member))
  exact fit

/-- A deletion leaves a balanced tree balanced exactly when it is safe. -/
theorem Balanced.delete {keys : Finset T} {tree : AvlTree T} (balanced : Balanced keys tree)
    (key : T) :
    ∃ after, tree.delete key = .ok after ∧ Holds (keys.erase key) after ∧
      (after.root.IsAvl ↔ tree.root.DeleteSafe key) := by
  obtain ⟨after, deleted, held⟩ := balanced.holds.delete key
  refine ⟨after, deleted, held, ?_⟩
  obtain ⟨root, rootDeleted, _⟩ :=
    AvlNode.deleteImpl_deleted key balanced.holds.ordered balanced.holds.nonneg
  simp only [AvlTree.delete, rootDeleted, bind, Except.bind, pure, Except.pure] at deleted
  cases deleted
  constructor
  · exact (AvlNode.deleteImpl_safe_of_isAvl balanced.isAvl balanced.holds.ordered rootDeleted).2
  · intro safe
    obtain ⟨other, otherDeleted, otherAvl, _⟩ := AvlNode.deleteImpl_isAvl balanced.isAvl safe
    rw [rootDeleted] at otherDeleted
    cases otherDeleted
    exact otherAvl

/-- A deletion of the run is safe for the tree that it meets. -/
def DeletionSafe (tree : AvlTree T) : Call T → Prop
  | .insert _ => True
  | .delete key => tree.root.DeleteSafe key

instance (tree : AvlTree T) : (next : Call T) → Decidable (tree.DeletionSafe next)
  | .insert _ => .isTrue trivial
  | .delete key => inferInstanceAs (Decidable (tree.root.DeleteSafe key))

theorem Balanced.call {calls : List (Call T)} {tree : AvlTree T}
    (balanced : Balanced (keysAfter calls) tree) {next : Call T} (safe : tree.DeletionSafe next) :
    ∃ after, tree.call next = .ok after ∧ Balanced (keysAfter (calls ++ [next])) after := by
  cases next with
  | insert key =>
      obtain ⟨after, inserted, grown⟩ := balanced.insert key
      exact ⟨after, by simp only [AvlTree.call, inserted]; rfl, by rwa [keysAfter_insert]⟩
  | delete key =>
      obtain ⟨after, deleted, held, kept⟩ := balanced.delete key
      exact ⟨after, deleted, by rw [keysAfter_delete]; exact ⟨held, kept.mpr safe⟩⟩

theorem run_balanced {calls : List (Call T)} (safe : Meets call DeletionSafe {} calls) :
    ∃ tree, run call ({} : AvlTree T) calls = .ok tree ∧ Balanced (keysAfter calls) tree := by
  have empty : Balanced (keysAfter []) ({} : AvlTree T) :=
    ⟨⟨by simp [keysAfter, AvlTree.visit, AvlNode.visit], .nil, trivial⟩, trivial⟩
  exact run_invariant call (fun past tree => Balanced (keysAfter past) tree)
    (fun past tree next balanced safe => balanced.call safe) empty safe

theorem mem_keysAfter_insertions (inserted : List T) (key : T) :
    key ∈ keysAfter (inserted.map Call.insert) ↔ key ∈ inserted := by
  induction inserted using List.reverseRecOn with
  | nil => simp [keysAfter]
  | append_singleton rest last ih =>
      rw [List.map_append, List.map_singleton, keysAfter_insert, Finset.mem_insert, ih]
      simp [or_comm]

/-- Insertions alone keep every height exact and every node balanced, and at each
node they rotate as the shape of the deeper child asks. -/
theorem insertions_keep_balance (inserted : List T) (key : T) :
    ∃ tree after, run call ({} : AvlTree T) (inserted.map .insert) = .ok tree ∧
      tree.root.IsAvl ∧ tree.root.Ordered ∧
      tree.insert key = .ok (after, decide (key ∉ inserted)) ∧
      after.root.IsAvl ∧ after.root.Ordered ∧
      (∀ other, other ∈ after.visit ↔ other = key ∨ other ∈ inserted) ∧
      (key ∉ inserted → tree.root.RotationsFit key) := by
  have onlyInsertions : Meets call DeletionSafe ({} : AvlTree T) (inserted.map .insert) := by
    suffices ∀ tree : AvlTree T, Meets call DeletionSafe tree (inserted.map .insert) from this {}
    induction inserted with
    | nil => exact fun _ => trivial
    | cons first rest ih => exact fun tree => ⟨trivial, fun next _ => ih next⟩
  have keys := mem_keysAfter_insertions inserted
  obtain ⟨tree, ran, balanced⟩ := run_balanced onlyInsertions
  obtain ⟨after, insertedKey, grown⟩ := balanced.insert key
  refine ⟨tree, after, ran, balanced.isAvl, balanced.holds.ordered, ?_, grown.isAvl,
    grown.holds.ordered, ?_, fun absent => balanced.rotationsFit (mt (keys key).mp absent)⟩
  · simp only [insertedKey, keys key]
  · intro other
    rw [grown.holds.members, Finset.mem_insert, keys other]

/-- Along every run whose deletions are safe, heights are exact, the subtrees of every
node differ by at most one and `Depth` is the height of the tree; and in every state
of such a run the next deletion keeps this exactly when it is safe. -/
theorem safe_deletions_keep_balance {calls : List (Call T)}
    (safe : Meets call DeletionSafe {} calls) :
    ∃ tree, run call ({} : AvlTree T) calls = .ok tree ∧
      tree.root.IsAvl ∧ tree.depth = tree.root.trueHeight ∧
      ∀ key, ∃ after, tree.delete key = .ok after ∧
        ((after.root.IsAvl ∧ after.depth = after.root.trueHeight) ↔ tree.root.DeleteSafe key) := by
  obtain ⟨tree, ran, balanced⟩ := run_balanced safe
  refine ⟨tree, ran, balanced.isAvl, balanced.depth_eq, fun key => ?_⟩
  obtain ⟨after, deleted, held, kept⟩ := balanced.delete key
  refine ⟨after, deleted, ?_⟩
  rw [← kept]
  exact ⟨And.left, fun avl => ⟨avl, Balanced.depth_eq ⟨held, avl⟩⟩⟩

/-- A run with safe deletions of a leaf, of a node with one child and of a node whose
right child has none on its left. -/
theorem safe_deletions_keep_balance_run :
    ∃ tree, run call ({} : AvlTree Int) [.insert 4, .insert 2, .insert 6, .insert 1, .insert 3,
        .insert 7, .delete 3, .delete 2, .delete 4] = .ok tree ∧
      tree.depth = tree.root.trueHeight := by
  obtain ⟨tree, ran, _, depth, _⟩ := @safe_deletions_keep_balance Int _
    [.insert 4, .insert 2, .insert 6, .insert 1, .insert 3, .insert 7, .delete 3, .delete 2,
      .delete 4] (by decide)
  exact ⟨tree, ran, depth⟩

/-- The deletion of a root with two leaves leaves its successor with the height of a leaf. -/
theorem delete_leaves_stale_height :
    ∃ tree, run call ({} : AvlTree Int) [.insert 2, .insert 1, .insert 3, .delete 2] = .ok tree ∧
      tree.depth = 0 ∧ tree.root.trueHeight = 1 ∧ ¬ tree.root.IsAvl := by
  refine ⟨⟨.node 3 (.node 1 .null .null 0) .null 0⟩, rfl, rfl, rfl, ?_⟩
  rintro ⟨stored, _⟩
  exact absurd stored (by decide)

end Dsac.Tree.AvlTree

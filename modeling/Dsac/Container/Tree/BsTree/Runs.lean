import Dsac.Container.Tree.BsTree.Destruction

namespace Dsac.Tree

open Dsac.Library LinkedTree NodeLayout

/-! Whole runs of calls. -/

variable {Key : Type}

namespace BinarySearchTree

variable {compare_ : Key → Key → Bool} {tree : BinarySearchTree Key} {shape : LinkedTree Key}
  {stored : List Key}

/-- The node that an insertion finds or adds. -/
theorem insert_position (order : StrictWeakOrder compare_) (holds : Holds compare_ tree shape stored) (key : Key) :
    ∃ next position added shape', tree.insert compare_ key = .ok (next, some position, added) ∧
      Holds compare_ next shape' (insertUnique compare_ stored key) ∧
      (added = true ↔ ∀ value ∈ stored, compare_ key value ∨ compare_ value key) ∧
      (added = true → shape'.addresses = tree.heap.fresh ::ₘ shape.addresses) ∧
      (added = false → shape' = shape ∧ ∃ value, (position, value) ∈ shape.inorder ∧
        compare_ key value = false ∧ compare_ value key = false) := by
  obtain ⟨linked, ordered, rfl, size⟩ := holds
  cases root : tree.root_ with
  | none =>
      obtain ⟨heap, inserted, attached⟩ := insert_empty root key
      have top := linked.top
      rw [root] at top
      cases shape with
      | node => cases top
      | nil =>
          refine ⟨_, _, true, _, inserted, ⟨attached, List.pairwise_singleton _ _, ?_, ?_⟩, ?_, ?_, by rintro ⟨⟩⟩
          · simp [insertUnique]
          · simp [insertUnique, size]
          · simp
          · intro _
            simp
  | some address =>
      have separates := @search_separates _ compare_ key shape .top order ordered ⟨by rintro _ ⟨⟩, by rintro _ ⟨⟩⟩
      have whole := plug_search compare_ key shape .top
      rcases search_equivalent compare_ key shape .top with
        absent | ⟨found, value, left, right, present, notLess, notGreater⟩
      · obtain ⟨heap, inserted, attached⟩ := insert_new linked root order ordered absent
        rw [absent] at whole
        generalize (shape.search compare_ key .top).2 = place at separates whole attached
        obtain rfl : shape = LinkedTree.nil.plug place := whole.symm
        have before := separates.values_before
        have after := separates.values_after
        rw [ordered_iff_values, values_plug, values_nil, List.append_nil] at ordered
        rw [values_plug, values_nil, List.append_nil] at size ⊢
        have grown : ((LinkedTree.node tree.heap.fresh key .nil .nil).plug place).values =
            place.before.map Prod.snd ++ key :: place.after.map Prod.snd := by
          simp [values_plug]
        rw [insertUnique_between order before after]
        refine ⟨_, _, true, _, inserted, ⟨attached, ?_, grown, ?_⟩, ?_, ?_, by rintro ⟨⟩⟩
        · rw [ordered_iff_values, grown]
          exact pairwise_between ordered before after
        · simp only [size, List.length_append, List.length_cons]
          omega
        · simp only [true_iff]
          intro value member
          rcases List.mem_append.mp member with low | high
          · exact .inr (before value low)
          · exact .inl (after value high)
        · intro _
          simp [addresses_plug]
      · obtain ⟨heap, inserted, kept⟩ := insert_equivalent linked root
          (show (shape.search compare_ key .top).1.root = some found by rw [present]; rfl)
        have entry : (found, value) ∈ shape.inorder := by
          rw [present] at whole
          have same : (LinkedTree.node found value left right).plug _ = shape := whole
          rw [← same, inorder_plug, inorder]
          simp
        have member : value ∈ shape.values := List.mem_map_of_mem entry
        have same := insertUnique_equivalent member notLess notGreater
        refine ⟨_, _, false, shape, inserted, ⟨kept, ordered, same.symm, ?_⟩, ?_, by rintro ⟨⟩, ?_⟩
        · rw [same]
          exact size
        · simp only [Bool.false_eq_true, false_iff, not_forall, not_or]
          refine ⟨value, member, ?_, ?_⟩
          · simp [notLess]
          · simp [notGreater]
        · intro _
          exact ⟨rfl, value, entry, notLess, notGreater⟩

theorem insert_holds (order : StrictWeakOrder compare_) (holds : Holds compare_ tree shape stored)
    (key : Key) :
    ∃ next result shape', tree.insert compare_ key = .ok (next, result) ∧
      Holds compare_ next shape' (insertUnique compare_ stored key) := by
  obtain ⟨next, position, added, shape', inserted, nextHolds, _⟩ := insert_position order holds key
  exact ⟨next, _, shape', inserted, nextHolds⟩

/-- `Clear` destroys the nodes of the tree that hangs from the root, wherever they link back to. -/
theorem clear_hangs (top : tree.root_ = shape.root) (hangs : Hangs tree.heap shape) (distinct : shape.addresses.Nodup) :
    ∃ heap, tree.clear = .ok { heap } ∧ (∀ address ∈ shape.addresses, heap.get address = none) ∧
      ∀ address, address ∉ shape.addresses → heap.get address = tree.heap.get address := by
  have enough : turns shape ≤ 2 * depthBound tree.heap := by
    have bound := hangs.card_le_fresh distinct
    have bounded := turns_le shape
    rw [depthBound]
    omega
  obtain ⟨heap, ran, dead, rest⟩ := destroySubtreeLog_hangs hangs distinct enough
  refine ⟨heap, ?_, dead, rest⟩
  rw [clear, top, destroySubtree_eq_log, ran]
  rfl

theorem clear_holds (holds : Holds compare_ tree shape stored) :
    ∃ next, tree.clear = .ok next ∧ Holds compare_ next .nil [] := by
  obtain ⟨heap, cleared, _⟩ := clear_hangs holds.linked.top holds.linked.nodes.hangs holds.linked.distinct
  exact ⟨{ heap }, cleared, ⟨rfl, trivial, Multiset.nodup_zero⟩, List.Pairwise.nil, rfl, rfl⟩

/-- The keys that a call leaves, from those stored before. -/
def apply (compare_ : Key → Key → Bool) (stored : List Key) : Call Key → List Key
  | .insert key | .emplace key => insertUnique compare_ stored key
  | .erase key => eraseEquivalent compare_ stored key
  | .clear => []

/-- The keys inserted by the calls and not erased since. -/
def contents (compare_ : Key → Key → Bool) (calls : List (Call Key)) : List Key :=
  calls.foldl (apply compare_) []

/-- An erasure unlinks a node without children. -/
def ErasesLeaf (compare_ : Key → Key → Bool) (tree : BinarySearchTree Key) : Call Key → Prop
  | .erase key => unlinksLeaf compare_ tree key = .ok true
  | .insert _ | .emplace _ | .clear => True

instance (compare_ : Key → Key → Bool) (tree : BinarySearchTree Key) (call : Call Key) :
    Decidable (ErasesLeaf compare_ tree call) := by
  cases call <;> unfold ErasesLeaf <;> infer_instance

theorem call_holds (order : StrictWeakOrder compare_) (holds : Holds compare_ tree shape stored)
    (request : Call Key) (erases : ErasesLeaf compare_ tree request) :
    ∃ next shape', tree.call compare_ request = .ok next ∧
      Holds compare_ next shape' (apply compare_ stored request) := by
  cases request with
  | insert key =>
      obtain ⟨next, result, shape', inserted, nextHolds⟩ := insert_holds order holds key
      exact ⟨next, shape', by rw [call, inserted]; rfl, nextHolds⟩
  | emplace key =>
      obtain ⟨next, result, shape', inserted, nextHolds⟩ := insert_holds order holds key
      exact ⟨next, shape', congrArg (Prod.fst <$> ·) inserted, nextHolds⟩
  | erase key =>
      obtain ⟨next, flag, shape', erased, nextHolds⟩ := erase_holds order holds erases
      exact ⟨next, shape', by rw [call, erased]; rfl, nextHolds⟩
  | clear =>
      obtain ⟨next, cleared, nextHolds⟩ := clear_holds holds
      exact ⟨next, .nil, cleared, nextHolds⟩

/-- **Erasures of leaves keep the links.** In every run whose erasures unlink nodes
without children, the links form a search tree of `size()` nodes that link back to their
parents, and the iteration yields the keys inserted and not erased since, increasing. -/
theorem leaf_erasures_keep_links (order : StrictWeakOrder compare_) (calls : List (Call Key))
    (meets : Meets (call compare_) (ErasesLeaf compare_) {} calls) :
    ∃ tree shape, run (call compare_) {} calls = .ok tree ∧
      Linked tree.heap tree.root_ shape ∧ Ordered compare_ shape ∧
      shape.addresses.card = tree.size_ ∧ tree.keys = .ok (contents compare_ calls) ∧
      (contents compare_ calls).Pairwise (compare_ · ·) := by
  obtain ⟨tree, ran, shape, holds⟩ := run_invariant (call compare_)
    (fun past tree => ∃ shape, Holds compare_ tree shape (contents compare_ past))
    (fun past tree request ⟨_, held⟩ erases => by
      obtain ⟨next, shape', called, nextHolds⟩ := call_holds order held request erases
      exact ⟨next, called, shape', by rw [contents, List.foldl_append]; exact nextHolds⟩)
    (show ∃ shape, Holds compare_ ({} : BinarySearchTree Key) shape (contents compare_ []) from
      ⟨.nil, ⟨rfl, trivial, Multiset.nodup_zero⟩, List.Pairwise.nil, rfl, rfl⟩) meets
  rw [List.nil_append] at holds
  obtain ⟨linked, ordered, values, size⟩ := holds
  refine ⟨tree, shape, ran, linked, ordered, ?_, ?_, ?_⟩
  · rw [size, ← values]
    simp [addresses, LinkedTree.values]
  · rw [keys_linked linked, values]
  · rw [← values]
    exact (ordered_iff_values ..).mp ordered

/-- Both children are taken, then the tree is emptied and used again. -/
theorem leaf_erasures_keep_links_run :
    ∃ tree shape, run (call fun a b : Nat => decide (a < b)) {}
        [.insert 2, .insert 1, .emplace 3, .insert 3, .erase 2, .erase 1, .clear, .insert 5] = .ok tree ∧
      Linked tree.heap tree.root_ shape ∧ Ordered (fun a b : Nat => decide (a < b)) shape ∧
      shape.addresses.card = tree.size_ ∧ tree.keys = .ok [5] ∧
      [5].Pairwise fun a b : Nat => decide (a < b) :=
  leaf_erasures_keep_links .less _ (by decide +kernel)

/-- The child of an erased root keeps its link to the destroyed node, and the iteration
reads through it. -/
theorem erase_leaves_stale_parent :
    ∃ tree, run (call fun a b : Nat => decide (a < b)) {} [.insert 1, .insert 2, .erase 1] = .ok tree ∧
      tree.keys = .error .destroyedNode :=
  ⟨{ heap := ⟨[none, some { key_ := 2, parent_ := some 0 }]⟩, root_ := some 1, size_ := 1 },
    by decide +kernel, by decide +kernel⟩

end BinarySearchTree

end Dsac.Tree

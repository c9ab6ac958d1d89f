import Dsac.Container.Tree.BsTree.Runs

namespace Dsac.Tree

open Dsac.Library LinkedTree NodeLayout

/-! Insertions, and the iterator between `Begin()` and `End()`. -/

variable {Key : Type}

namespace BinarySearchTree

/-- `insert` of a range. -/
def insertRange (compare_ : Key → Key → Bool) (tree : BinarySearchTree Key) : List Key →
    Outcome (BinarySearchTree Key)
  | [] => .ok tree
  | key :: keys => do
      let (tree, _) ← tree.insert compare_ key
      insertRange compare_ tree keys

/-- The calls that insert. -/
inductive Insertion (Key : Type) where
  | insert (key : Key)
  | emplace (key : Key)
  | insertRange (keys : List Key)
deriving DecidableEq, Repr

namespace Insertion

def perform (compare_ : Key → Key → Bool) (tree : BinarySearchTree Key) : Insertion Key →
    Outcome (BinarySearchTree Key)
  | .insert key => Prod.fst <$> tree.insert compare_ key
  | .emplace key => Prod.fst <$> tree.emplace compare_ key
  | .insertRange keys => tree.insertRange compare_ keys

def keys : Insertion Key → List Key
  | .insert key | .emplace key => [key]
  | .insertRange keys => keys

end Insertion

/-- `operator++`, a number of times. -/
def increments (heap : Heap (BstNode Key)) : Nat → Option Addr → Outcome (Option Addr)
  | 0, position => .ok position
  | _ + 1, none => .error .nullPointer
  | count + 1, some address => do
      increments heap count (← findNextNode heap address)

section

variable {heap next : Heap (BstNode Key)} {position : Option Addr} {node : Addr}

/-- An iteration that yields some keys makes one increment for each of them. -/
theorem increments_of_iterate {fuel : Nat} {keys : List Key} (yields : iterate fuel heap position = .ok keys) :
    increments heap keys.length position = .ok none ∧
      ∀ (index : Nat) (key : Key), keys[index]? = some key →
        ∃ address node, increments heap index position = .ok (some address) ∧ load heap address = .ok node ∧
          node.key_ = key := by
  induction fuel generalizing position keys with
  | zero =>
      cases position with
      | none =>
          cases yields
          exact ⟨rfl, nofun⟩
      | some address => cases yields
  | succ fuel ih =>
      cases position with
      | none =>
          cases yields
          exact ⟨rfl, nofun⟩
      | some address =>
          rw [iterate] at yields
          cases loaded : load heap address with
          | error reason =>
              rw [loaded] at yields
              cases yields
          | ok node =>
              cases moved : findNextNode heap address with
              | error reason =>
                  rw [loaded, moved] at yields
                  cases yields
              | ok later =>
                  cases rest : iterate fuel heap later with
                  | error reason =>
                      rw [loaded, moved, Outcome.ok_bind, Outcome.ok_bind, rest] at yields
                      cases yields
                  | ok others =>
                      rw [loaded, moved, Outcome.ok_bind, Outcome.ok_bind, rest] at yields
                      cases yields
                      obtain ⟨ends, visits⟩ := ih rest
                      have step : ∀ count, increments heap (count + 1) (some address) = increments heap count later := by
                        intro count
                        rw [increments, moved, Outcome.ok_bind]
                      refine ⟨(step others.length).trans ends, ?_⟩
                      intro index key here
                      cases index with
                      | zero =>
                          cases here
                          exact ⟨address, node, rfl, loaded, rfl⟩
                      | succ index =>
                          rw [step]
                          exact visits index key here

theorem modify_keys {pointer : Option Addr} {change : BstNode Key → BstNode Key}
    (keeps : ∀ node, (change node).key_ = node.key_) (modified : modify heap pointer change = .ok next) (address : Addr) :
    (next.get address).map BstNode.key_ = (heap.get address).map BstNode.key_ := by
  cases pointer with
  | none => cases modified
  | some target =>
      cases live : heap.get target with
      | none =>
          rw [modify, live] at modified
          cases modified
      | some node =>
          rw [modify_of_get change live] at modified
          cases modified
          by_cases same : address = target
          · subst same
            rw [Heap.get_set_self (Heap.lt_fresh_of_get live), live, Option.map_some, Option.map_some, keeps]
          · rw [Heap.get_set_of_ne same]

end

variable {compare_ : Key → Key → Bool} {tree next : BinarySearchTree Key} {shape : LinkedTree Key} {stored : List Key}
  {key : Key}

/-- What an insertion does to the nodes. -/
structure Effect (tree : BinarySearchTree Key) (key : Key) (next : BinarySearchTree Key) (position : Option Addr)
    (added : Bool) : Prop where
  /-- the candidate node is destroyed, and nothing else has changed -/
  refused : added = false → next.root_ = tree.root_ ∧ next.size_ = tree.size_ ∧
    ∀ address, next.heap.get address = tree.heap.get address
  /-- there is one new node, with the key -/
  grown : added = true → position = some tree.heap.fresh ∧ next.size_ = tree.size_ + 1 ∧
    (∀ address ≠ tree.heap.fresh, (next.heap.get address).map BstNode.key_ = (tree.heap.get address).map BstNode.key_) ∧
    tree.heap.get tree.heap.fresh = none ∧ (next.heap.get tree.heap.fresh).map BstNode.key_ = some key

theorem insert_effect {position : Option Addr} {added : Bool}
    (inserted : tree.insert compare_ key = .ok (next, position, added)) : Effect tree key next position added := by
  have allocated : ∀ address, ((tree.heap.alloc ({ key_ := key } : BstNode Key)).get address).map BstNode.key_ =
      if address = tree.heap.fresh then some key else (tree.heap.get address).map BstNode.key_ := by
    intro address
    by_cases new : address = tree.heap.fresh
    · rw [new, Heap.get_alloc_fresh, if_pos rfl]
      rfl
    · rw [Heap.get_alloc_of_ne new, if_neg new]
  have grows : ∀ heap : Heap (BstNode Key),
      (∀ address, (heap.get address).map BstNode.key_ =
        ((tree.heap.alloc ({ key_ := key } : BstNode Key)).get address).map BstNode.key_) →
      (∀ address ≠ tree.heap.fresh, (heap.get address).map BstNode.key_ = (tree.heap.get address).map BstNode.key_) ∧
        tree.heap.get tree.heap.fresh = none ∧ (heap.get tree.heap.fresh).map BstNode.key_ = some key := by
    intro heap same
    refine ⟨?_, Heap.get_fresh, ?_⟩
    · intro address other
      rw [same, allocated, if_neg other]
    · rw [same, allocated, if_pos rfl]
  rw [BinarySearchTree.insert, insertUniqueNode] at inserted
  cases root : tree.root_ with
  | none =>
      simp only [root] at inserted
      cases inserted
      exact ⟨by rintro ⟨⟩, fun _ => ⟨rfl, rfl, grows _ fun _ => rfl⟩⟩
  | some address =>
      simp only [root, load_of_get (@Heap.get_alloc_fresh _ tree.heap _), Outcome.ok_bind] at inserted
      cases searched : findParent compare_ key (depthBound (tree.heap.alloc ({ key_ := key } : BstNode Key)))
          (tree.heap.alloc { key_ := key }) (some address) (some address) with
      | error reason =>
          rw [searched] at inserted
          cases inserted
      | ok place =>
          obtain ⟨parent, before⟩ := place
          rw [searched, Outcome.ok_bind] at inserted
          cases parent with
          | some found =>
              simp only [destroy_of_get (@Heap.get_alloc_fresh _ tree.heap _), Outcome.ok_bind] at inserted
              cases inserted
              refine ⟨fun _ => ⟨root.symm, rfl, ?_⟩, by rintro ⟨⟩⟩
              intro other
              by_cases new : other = tree.heap.fresh
              · rw [new, Heap.get_free_self, Heap.get_fresh]
              · rw [Heap.get_free_of_ne new, Heap.get_alloc_of_ne new]
          | none =>
              cases above : deref (tree.heap.alloc ({ key_ := key } : BstNode Key)) before with
              | error reason =>
                  simp only [above] at inserted
                  cases inserted
              | ok upper =>
                  simp only [above, Outcome.ok_bind] at inserted
                  cases first : modify (tree.heap.alloc ({ key_ := key } : BstNode Key)) before fun node =>
                      if compare_ key upper.key_ then { node with left_ := some tree.heap.fresh }
                      else { node with right_ := some tree.heap.fresh } with
                  | error reason =>
                      simp only [first] at inserted
                      cases inserted
                  | ok middle =>
                      simp only [first, Outcome.ok_bind] at inserted
                      cases second : modify middle (some tree.heap.fresh) fun node => { node with parent_ := before } with
                      | error reason =>
                          simp only [second] at inserted
                          cases inserted
                      | ok last =>
                          simp only [second, Outcome.ok_bind] at inserted
                          cases inserted
                          refine ⟨by rintro ⟨⟩, fun _ => ⟨rfl, rfl, grows last ?_⟩⟩
                          intro other
                          rw [modify_keys _ second, modify_keys _ first]
                          · intro node
                            split <;> rfl
                          · intro node
                            rfl

/-- Every live node is a node of the tree. -/
def Full (tree : BinarySearchTree Key) (shape : LinkedTree Key) : Prop :=
  ∀ address node, tree.heap.get address = some node → address ∈ shape.addresses

/-- An insertion adds the key exactly when no live node has an equivalent one, and otherwise
points to the node that has. -/
def InsertsOnce (compare_ : Key → Key → Bool) (tree : BinarySearchTree Key) (key : Key)
    (result : Outcome (BinarySearchTree Key × Option Addr × Bool)) : Prop :=
  ∃ next position added, result = .ok (next, some position, added) ∧
    Effect tree key next (some position) added ∧
    (added = true ↔ ∀ address node, tree.heap.get address = some node →
      compare_ key node.key_ ∨ compare_ node.key_ key) ∧
    (added = false → ∃ node, next.heap.get position = some node ∧ compare_ key node.key_ = false ∧
      compare_ node.key_ key = false)

/-- The iterator makes `size()` increments from `Begin()` to `End()`, and visits the keys in
their order. -/
def WalksThrough (tree : BinarySearchTree Key) (keys : List Key) : Prop :=
  ∃ first, tree.begin = .ok first ∧ increments tree.heap tree.size_ first = .ok none ∧
    keys.length = tree.size_ ∧ ∀ (index : Nat) (key : Key), keys[index]? = some key →
      ∃ address node, increments tree.heap index first = .ok (some address) ∧ load tree.heap address = .ok node ∧
        node.key_ = key

theorem exists_node_of_mem (linked : Linked tree.heap tree.root_ shape) {address : Addr} {value : Key}
    (member : (address, value) ∈ shape.inorder) : ∃ node, tree.heap.get address = some node ∧ node.key_ = value := by
  obtain ⟨earlier, later, split⟩ := List.append_of_mem member
  obtain ⟨left, right, context, rfl, _, _⟩ := exists_focus split
  exact ⟨_, linked.represents.1, rfl⟩

/-- The keys of the live nodes are those stored. -/
theorem mem_stored_iff (holds : Holds compare_ tree shape stored) (full : Full tree shape) :
    key ∈ stored ↔ ∃ address node, tree.heap.get address = some node ∧ node.key_ = key := by
  rw [← holds.values, values, List.mem_map]
  constructor
  · rintro ⟨⟨address, value⟩, member, rfl⟩
    obtain ⟨node, live, same⟩ := exists_node_of_mem holds.linked member
    exact ⟨address, node, live, same⟩
  · rintro ⟨address, node, live, rfl⟩
    have member := full address node live
    rw [addresses, Multiset.mem_coe, List.mem_map] at member
    obtain ⟨⟨_, value⟩, inside, rfl⟩ := member
    obtain ⟨other, here, same⟩ := exists_node_of_mem holds.linked inside
    cases live.symm.trans here
    exact ⟨_, inside, same.symm⟩

theorem insertsOnce (order : StrictWeakOrder compare_) (holds : Holds compare_ tree shape stored)
    (full : Full tree shape) (key : Key) : InsertsOnce compare_ tree key (tree.insert compare_ key) := by
  obtain ⟨next, position, added, shape', inserted, _, adds, _, finds⟩ := insert_position order holds key
  have effect := insert_effect inserted
  refine ⟨next, position, added, inserted, effect, ?_, ?_⟩
  · rw [adds]
    constructor
    · intro apart address node live
      exact apart node.key_ ((mem_stored_iff holds full).mpr ⟨address, node, live, rfl⟩)
    · intro apart value member
      obtain ⟨address, node, live, rfl⟩ := (mem_stored_iff holds full).mp member
      exact apart address node live
  · intro refused
    obtain ⟨_, value, entry, notLess, notGreater⟩ := finds refused
    obtain ⟨node, live, rfl⟩ := exists_node_of_mem holds.linked entry
    refine ⟨node, ?_, notLess, notGreater⟩
    rw [(effect.refused refused).2.2 position]
    exact live

theorem insert_full (order : StrictWeakOrder compare_) (holds : Holds compare_ tree shape stored)
    (full : Full tree shape) (key : Key) :
    ∃ next result shape', tree.insert compare_ key = .ok (next, result) ∧
      Holds compare_ next shape' (insertUnique compare_ stored key) ∧ Full next shape' := by
  obtain ⟨next, position, added, shape', inserted, nextHolds, _, grows, keeps⟩ := insert_position order holds key
  have effect := insert_effect inserted
  refine ⟨next, _, shape', inserted, nextHolds, ?_⟩
  intro address node live
  cases added with
  | false =>
      rw [(keeps rfl).1]
      rw [(effect.refused rfl).2.2 address] at live
      exact full address node live
  | true =>
      rw [grows rfl, Multiset.mem_cons]
      by_cases new : address = tree.heap.fresh
      · exact .inl new
      · have before := (effect.grown rfl).2.2.1 address new
        rw [live] at before
        obtain ⟨old, was, _⟩ := Option.map_eq_some_iff.mp before.symm
        exact .inr (full address old was)

theorem insertRange_full (order : StrictWeakOrder compare_) (keys : List Key) (holds : Holds compare_ tree shape stored)
    (full : Full tree shape) :
    ∃ next shape', tree.insertRange compare_ keys = .ok next ∧
      Holds compare_ next shape' (keys.foldl (insertUnique compare_) stored) ∧ Full next shape' := by
  induction keys generalizing tree shape stored with
  | nil => exact ⟨tree, shape, rfl, holds, full⟩
  | cons key keys ih =>
      obtain ⟨middle, result, shape', inserted, middleHolds, middleFull⟩ := insert_full order holds full key
      obtain ⟨next, last, rest, nextHolds, nextFull⟩ := ih middleHolds middleFull
      refine ⟨next, last, ?_, nextHolds, nextFull⟩
      rw [insertRange, inserted]
      exact rest

theorem insertRange_holds (order : StrictWeakOrder compare_) (keys : List Key)
    (holds : Holds compare_ tree shape stored) :
    ∃ next shape', tree.insertRange compare_ keys = .ok next ∧
      Holds compare_ next shape' (keys.foldl (insertUnique compare_) stored) := by
  induction keys generalizing tree shape stored with
  | nil => exact ⟨tree, shape, rfl, holds⟩
  | cons key keys ih =>
      obtain ⟨middle, result, shape', inserted, middleHolds⟩ := insert_holds order holds key
      obtain ⟨next, last, rest, nextHolds⟩ := ih middleHolds
      refine ⟨next, last, ?_, nextHolds⟩
      rw [insertRange, inserted]
      exact rest

/-- **Destruction is complete, single and final.** From every tree of linked nodes, wherever
they link back to, the loop of `DestroySubtree` ends; it destroys each node once and nothing
else, and reads no destroyed node. The tree is empty then, and takes any keys. -/
theorem clear_destroys_once (top : tree.root_ = shape.root) (hangs : Hangs tree.heap shape)
    (distinct : shape.addresses.Nodup) :
    (∀ fuel ≥ 2 * shape.addresses.card, ∃ heap destroyed,
      destroySubtreeLog fuel tree.heap tree.root_ = .ok (heap, destroyed) ∧
      destroySubtree fuel tree.heap tree.root_ = .ok heap ∧
      (∀ address ∈ shape.addresses, destroyed.count address = 1) ∧ ∀ address ∈ destroyed, address ∈ shape.addresses) ∧
    ∃ next, tree.clear = .ok next ∧ next.root_ = none ∧ next.size_ = 0 ∧
      (∀ address, next.heap.get address = if address ∈ shape.addresses then none else tree.heap.get address) ∧
      ∀ compare_ : Key → Key → Bool, StrictWeakOrder compare_ → ∀ keys, ∃ filled shape',
        next.insertRange compare_ keys = .ok filled ∧
        Holds compare_ filled shape' (keys.foldl (insertUnique compare_) []) ∧
        filled.keys = .ok (keys.foldl (insertUnique compare_) []) := by
  constructor
  · intro fuel enough
    obtain ⟨heap, ran, _⟩ := destroySubtreeLog_hangs hangs distinct ((turns_le shape).trans enough)
    rw [← top] at ran
    have listed : (shape.inorder.map Prod.fst).Nodup := distinct
    refine ⟨heap, _, ran, ?_, ?_, ?_⟩
    · rw [destroySubtree_eq_log, ran]
      rfl
    · intro address member
      exact List.count_eq_one_of_mem listed member
    · intro address member
      exact member
  · obtain ⟨heap, cleared, dead, rest⟩ := clear_hangs top hangs distinct
    refine ⟨{ heap }, cleared, rfl, rfl, ?_, ?_⟩
    · intro address
      split
      · exact dead address ‹_›
      · exact rest address ‹_›
    · intro compare_ order keys
      have empty : Holds compare_ ({ heap } : BinarySearchTree Key) .nil [] :=
        ⟨⟨rfl, trivial, Multiset.nodup_zero⟩, List.Pairwise.nil, rfl, rfl⟩
      obtain ⟨filled, shape', ran, holds⟩ := insertRange_holds order keys empty
      refine ⟨filled, shape', ran, holds, ?_⟩
      rw [keys_linked holds.linked, holds.values]

/-- A node with two children, one of which links back to no node, and a node of another tree. -/
theorem clear_destroys_once_three :
    ∃ next, BinarySearchTree.clear ⟨⟨[some ⟨5, some 2, some 1, none⟩, some ⟨8, none, none, none⟩,
        some ⟨3, none, none, some 0⟩, some ⟨7, none, none, none⟩]⟩, some 0, 3⟩ = .ok next ∧
      next.root_ = none ∧ next.size_ = 0 ∧ next.heap.get 3 = some ⟨7, none, none, none⟩ ∧
      ∃ filled, next.insertRange (fun a b : Nat => decide (a < b)) [2, 1] = .ok filled ∧ filled.keys = .ok [1, 2] := by
  obtain ⟨_, next, cleared, root, size, nodes, filled⟩ :=
    @clear_destroys_once Nat ⟨⟨[some ⟨5, some 2, some 1, none⟩, some ⟨8, none, none, none⟩,
        some ⟨3, none, none, some 0⟩, some ⟨7, none, none, none⟩]⟩, some 0, 3⟩
      (.node 0 5 (.node 2 3 .nil .nil) (.node 1 8 .nil .nil)) rfl
      ⟨⟨none, rfl⟩, ⟨⟨some 0, rfl⟩, trivial, trivial⟩, ⟨⟨none, rfl⟩, trivial, trivial⟩⟩ (by decide)
  obtain ⟨tree, shape, ran, _, keys⟩ := filled _ .less [2, 1]
  exact ⟨next, cleared, root, size, nodes 3, tree, ran, keys⟩

/-- The keys that some calls insert, each only where no equivalent key was stored before. -/
def inserted (compare_ : Key → Key → Bool) (insertions : List (Insertion Key)) : List Key :=
  (insertions.flatMap Insertion.keys).foldl (insertUnique compare_) []

theorem perform_full (order : StrictWeakOrder compare_) (holds : Holds compare_ tree shape stored)
    (full : Full tree shape) (insertion : Insertion Key) :
    ∃ next shape', insertion.perform compare_ tree = .ok next ∧
      Holds compare_ next shape' (insertion.keys.foldl (insertUnique compare_) stored) ∧ Full next shape' := by
  cases insertion with
  | insert key =>
      obtain ⟨next, result, shape', done, nextHolds, nextFull⟩ := insert_full order holds full key
      exact ⟨next, shape', by rw [Insertion.perform, done]; rfl, nextHolds, nextFull⟩
  | emplace key =>
      obtain ⟨next, result, shape', done, nextHolds, nextFull⟩ := insert_full order holds full key
      exact ⟨next, shape', congrArg (Prod.fst <$> ·) done, nextHolds, nextFull⟩
  | insertRange keys => exact insertRange_full order keys holds full

theorem walksThrough (holds : Holds compare_ tree shape stored) : WalksThrough tree stored := by
  have yields := keys_linked holds.linked
  rw [keys] at yields
  cases starts : tree.begin with
  | error reason =>
      rw [starts] at yields
      cases yields
  | ok first =>
      rw [starts, Outcome.ok_bind, holds.values] at yields
      obtain ⟨ends, visits⟩ := increments_of_iterate yields
      refine ⟨first, starts, ?_, holds.size.symm, visits⟩
      rw [holds.size]
      exact ends

/-- After any insertions the links form a search tree of the live nodes, the iterator visits
the inserted keys in increasing order, and the next insertion adds a key that is not there. -/
theorem insertions_walk (order : StrictWeakOrder compare_) (insertions : List (Insertion Key)) :
    ∃ tree shape, run (Insertion.perform compare_) {} insertions = .ok tree ∧
      Linked tree.heap tree.root_ shape ∧ Ordered compare_ shape ∧ Full tree shape ∧
      WalksThrough tree (inserted compare_ insertions) ∧
      (inserted compare_ insertions).Pairwise (compare_ · ·) ∧
      ∀ key, InsertsOnce compare_ tree key (tree.insert compare_ key) ∧
        InsertsOnce compare_ tree key (tree.emplace compare_ key) := by
  obtain ⟨tree, ran, shape, holds, full⟩ := run_invariant (Insertion.perform compare_)
    (fun past tree => ∃ shape, Holds compare_ tree shape (inserted compare_ past) ∧ Full tree shape)
    (fun past tree insertion ⟨_, held, whole⟩ _ => by
      obtain ⟨next, shape', done, nextHolds, nextFull⟩ := perform_full order held whole insertion
      refine ⟨next, done, shape', ?_, nextFull⟩
      rw [inserted, List.flatMap_append, List.foldl_append, List.flatMap_singleton]
      exact nextHolds)
    (show ∃ shape, Holds compare_ ({} : BinarySearchTree Key) shape (inserted compare_ []) ∧ Full {} shape from
      ⟨.nil, ⟨⟨rfl, trivial, Multiset.nodup_zero⟩, List.Pairwise.nil, rfl, rfl⟩, nofun⟩)
    (Meets.of_forall _ (fun _ _ => trivial) _ insertions)
  rw [List.nil_append] at holds
  refine ⟨tree, shape, ran, holds.linked, holds.ordered, full, walksThrough holds, ?_, ?_⟩
  · rw [← holds.values]
    exact (ordered_iff_values ..).mp holds.ordered
  · intro key
    have once := insertsOnce order holds full key
    exact ⟨once, once⟩

/-- A range that repeats a key, and an `Emplace` of one that is there. -/
theorem insertions_walk_range :
    ∃ tree shape, run (Insertion.perform fun a b : Nat => decide (a < b)) {}
        [.insert 4, .insertRange [2, 6, 2], .emplace 6, .insert 5] = .ok tree ∧
      Linked tree.heap tree.root_ shape ∧ Ordered (fun a b : Nat => decide (a < b)) shape ∧ Full tree shape ∧
      WalksThrough tree [2, 4, 5, 6] ∧ [2, 4, 5, 6].Pairwise (fun a b : Nat => decide (a < b)) ∧
      ∀ key, InsertsOnce (fun a b : Nat => decide (a < b)) tree key (tree.insert (fun a b : Nat => decide (a < b)) key) ∧
        InsertsOnce (fun a b : Nat => decide (a < b)) tree key (tree.emplace (fun a b : Nat => decide (a < b)) key) :=
  insertions_walk .less [.insert 4, .insertRange [2, 6, 2], .emplace 6, .insert 5]

end BinarySearchTree

end Dsac.Tree

import Dsac.Container.Tree.BTree.Runs

namespace Dsac.Tree

open Dsac.Library BTreeNode

/-! The links of a tree, and its destructor, which follows each of them once. -/

variable {T : Type} {t : Nat} {heap : Heap (BTreeNode T)} {root : Addr}

/-- `Destroy`; the fuel bounds the depth of the recursion. The pointers to the children are not
read again after the loop. -/
def destroyNode : Nat → Heap (BTreeNode T) → Addr → Outcome (Heap (BTreeNode T))
  | 0, _, _ => .error .fuel
  | fuel + 1, heap, this => do
      let node ← load heap this
      node.children.foldlM (fun heap child => do
        let heap ← destroyNode fuel heap child
        destroy heap child) heap

/-- Children without children of their own. -/
theorem destroyNode_leaves (fuel : Nat) (children : List Addr) (distinct : children.Nodup)
    (leaf : ∀ child ∈ children, ∃ keys, heap.get child = some ⟨keys, []⟩) :
    ∃ next, children.foldlM (fun heap child => do
        let heap ← destroyNode (fuel + 1) heap child
        destroy heap child) heap = .ok next ∧
      (∀ child ∈ children, next.get child = none) ∧
      ∀ address, address ∉ children → next.get address = heap.get address := by
  induction children generalizing heap with
  | nil => exact ⟨heap, rfl, nofun, fun _ _ => rfl⟩
  | cons child rest ih =>
      obtain ⟨outside, restDistinct⟩ := List.nodup_cons.mp distinct
      obtain ⟨keys, live⟩ := leaf child List.mem_cons_self
      obtain ⟨next, ran, gone, others⟩ := @ih (heap.free child) restDistinct (by
        intro other member
        have apart : other ≠ child := by
          rintro rfl
          exact outside member
        rw [Heap.get_free_of_ne apart]
        exact leaf other (List.mem_cons_of_mem _ member))
      refine ⟨next, ?_, ?_, ?_⟩
      · have first : destroyNode (fuel + 1) heap child = .ok heap := by
          rw [destroyNode, load_of_get live]
          rfl
        rw [List.foldlM_cons, first, Outcome.ok_bind, destroy_of_get live, Outcome.ok_bind, ran]
      · intro other member
        rcases List.mem_cons.mp member with rfl | later
        · rw [others other outside, Heap.get_free_self]
        · exact gone other later
      · intro address unlisted
        rw [List.mem_cons, not_or] at unlisted
        rw [others address unlisted.2, Heap.get_free_of_ne unlisted.1]

namespace BTree

/-- `~BTree`, with the nodes that it leaves. -/
def destructor (tree : BTree T) : Outcome (Heap (BTreeNode T)) :=
  match tree.root with
  | none => .ok tree.heap
  | some root => do
      let heap ← destroyNode (depthBound tree.heap) tree.heap root
      destroy heap root

/-- Every node but the root is one child of one node, inner nodes have a child more than keys,
and the destructor deletes each node, none of them twice. -/
structure WellLinked (tree : BTree T) : Prop where
  top : ∀ address node, tree.heap.get address = some node → ∀ child ∈ node.children, tree.root ≠ some child
  once : ∀ address node, tree.heap.get address = some node → tree.root ≠ some address →
    ∃ parent parentNode, tree.heap.get parent = some parentNode ∧ parentNode.children.count address = 1 ∧
      ∀ other otherNode, tree.heap.get other = some otherNode → address ∈ otherNode.children → other = parent
  arity : ∀ address node, tree.heap.get address = some node → node.isLeaf = false →
    node.children.length = node.keys.length + 1
  destroyed : ∃ heap, tree.destructor = .ok heap ∧ ∀ address, heap.get address = none

variable [LinearOrder T] {inserted : List T} {tree : BTree T}

omit [LinearOrder T] in
theorem leaf_wellLinked {keys : List T} (live : heap.get root = some ⟨keys, []⟩) (whole : Whole ⟨heap, some root⟩) :
    WellLinked ⟨heap, some root⟩ := by
  have single : (1 : Nat) = heap.fresh := (whole_iff live).mp whole
  have only : ∀ {address node}, heap.get address = some node → address = root := by
    intro address node here
    have first := Heap.lt_fresh_of_get live
    have second := Heap.lt_fresh_of_get here
    rw [← single] at first second
    exact (Nat.lt_one_iff.mp second).trans (Nat.lt_one_iff.mp first).symm
  have childless : ∀ {address node}, heap.get address = some node → node.children = [] := by
    intro address node here
    cases only here
    cases live.symm.trans here
    rfl
  refine ⟨?_, ?_, ?_, heap.free root, ?_, ?_⟩
  · intro address node here child member
    rw [childless here] at member
    cases member
  · intro address node here notRoot
    exact absurd (congrArg some (only here).symm) notRoot
  · intro address node here inner
    rw [isLeaf, childless here] at inner
    cases inner
  · have walked : destroyNode (depthBound heap) heap root = .ok heap := by
      rw [depthBound, destroyNode, load_of_get live]
      rfl
    rw [destructor]
    simp only [walked, Outcome.ok_bind, destroy_of_get live]
  · intro address
    by_cases isRoot : address = root
    · rw [isRoot, Heap.get_free_self]
    · rw [Heap.get_free_of_ne isRoot]
      cases here : heap.get address with
      | none => rfl
      | some node => exact absurd (only here) isRoot

/-- The nodes of a whole tree of two levels. -/
theorem mem_of_whole {first : Leaf T} {rest : Back T} (branch : Branch t heap root [] first rest)
    (whole : Whole ⟨heap, some root⟩) {address : Addr} {node : BTreeNode T} (here : heap.get address = some node) :
    address = root ∨ address ∈ (leaves [] first rest).map Leaf.address := by
  have all : ((leaves [] first rest).map Leaf.address).length + 1 = heap.fresh := (whole_iff branch.node).mp whole
  have inside : (root :: (leaves [] first rest).map Leaf.address).toFinset ⊆ Finset.range heap.fresh := by
    intro other member
    rw [List.mem_toFinset, List.mem_cons, List.mem_map] at member
    rw [Finset.mem_range]
    rcases member with rfl | ⟨leaf, listed, rfl⟩
    · exact Heap.lt_fresh_of_get branch.node
    · exact Heap.lt_fresh_of_get (branch.leaf leaf listed).1
  have everything : (root :: (leaves [] first rest).map Leaf.address).toFinset = Finset.range heap.fresh := by
    apply Finset.eq_of_subset_of_card_le inside
    rw [Finset.card_range, List.toFinset_card_of_nodup branch.distinct, List.length_cons, all]
  have member : address ∈ (root :: (leaves [] first rest).map Leaf.address).toFinset := by
    rw [everything, Finset.mem_range]
    exact Heap.lt_fresh_of_get here
  rwa [List.mem_toFinset, List.mem_cons] at member

theorem branch_wellLinked {first : Leaf T} {rest : Back T} (branch : Branch t heap root [] first rest)
    (whole : Whole ⟨heap, some root⟩) : WellLinked ⟨heap, some root⟩ := by
  obtain ⟨apart, distinct⟩ := List.nodup_cons.mp branch.distinct
  have leafLive : ∀ child ∈ (leaves [] first rest).map Leaf.address, ∃ keys, heap.get child = some ⟨keys, []⟩ := by
    intro child member
    obtain ⟨leaf, listed, rfl⟩ := List.mem_map.mp member
    exact ⟨leaf.keys, (branch.leaf leaf listed).1⟩
  have nodes : ∀ {address node}, heap.get address = some node → node.children ≠ [] →
      address = root ∧ node = ⟨separators [] rest, (leaves [] first rest).map Leaf.address⟩ := by
    intro address node here inner
    rcases mem_of_whole branch whole here with rfl | member
    · exact ⟨rfl, Option.some.inj (here.symm.trans branch.node)⟩
    · obtain ⟨keys, live⟩ := leafLive address member
      cases here.symm.trans live
      exact absurd rfl inner
  refine ⟨?_, ?_, ?_, ?_⟩
  · intro address node here child member isRoot
    obtain ⟨rfl, rfl⟩ := nodes here (List.ne_nil_of_mem member)
    cases isRoot
    exact apart member
  · intro address node here notRoot
    have member := (mem_of_whole branch whole here).resolve_left fun isRoot => notRoot (congrArg some isRoot.symm)
    refine ⟨root, _, branch.node, ?_, ?_⟩
    · exact List.count_eq_one_of_mem distinct member
    · intro other otherNode there listed
      exact (nodes there (List.ne_nil_of_mem listed)).1
  · intro address node here inner
    have children : node.children ≠ [] := by
      intro none_
      rw [isLeaf, none_] at inner
      cases inner
    obtain ⟨rfl, rfl⟩ := nodes here children
    simp [separators, leaves]
  · obtain ⟨fuel, enough⟩ := depthBound_of_get branch.node
    obtain ⟨next, ran, gone, others⟩ := destroyNode_leaves fuel _ distinct leafLive
    have walked : destroyNode (depthBound heap) heap root = .ok next := by
      rw [enough, destroyNode, load_of_get branch.node]
      exact ran
    have rootLive : next.get root = some ⟨separators [] rest, (leaves [] first rest).map Leaf.address⟩ := by
      rw [others root apart]
      exact branch.node
    refine ⟨next.free root, ?_, ?_⟩
    · rw [destructor]
      simp only [walked, Outcome.ok_bind, destroy_of_get rootLive]
    · intro address
      by_cases isRoot : address = root
      · rw [isRoot, Heap.get_free_self]
      rw [Heap.get_free_of_ne isRoot]
      by_cases member : address ∈ (leaves [] first rest).map Leaf.address
      · exact gone address member
      · rw [others address member]
        cases here : heap.get address with
        | none => rfl
        | some node =>
            rcases mem_of_whole branch whole here with same | listed
            · exact absurd same isRoot
            · exact absurd listed member

theorem Flat.wellLinked (flat : Flat t inserted tree) (whole : Whole tree) : WellLinked tree := by
  cases flat with
  | empty _ => exact ⟨nofun, nofun, nofun, {}, rfl, fun _ => rfl⟩
  | leaf live _ _ _ => exact leaf_wellLinked live whole
  | branch holds _ => exact branch_wellLinked holds whole

/-- The tree of nine keys whose root has been split. -/
def splitRoot : BTree Int where
  heap := ⟨[some ⟨[0, 1], []⟩, some ⟨[2], [0, 2, 3, 4]⟩, some ⟨[3], []⟩, some ⟨[5], []⟩, some ⟨[7, 8], []⟩,
    some ⟨[4], [1, 6]⟩, some ⟨[6], [3]⟩]⟩
  root := some 5

end BTree

end Dsac.Tree

import Dsac.Library.Run
import Dsac.Container.Tree.BTree.Split

namespace Dsac.Tree

open Dsac.Library BTreeNode

/-! Trees of at most two levels. A branch is seen from one of its leaves, the leaf
in focus, with the leaves before it and the leaves behind it. -/

structure Leaf (T : Type) where
  address : Addr
  keys : List T

variable {T : Type}

/-- Leaves, each with the separator behind it. -/
abbrev Front (T : Type) := List (Leaf T × T)

/-- Leaves, each with the separator before it. -/
abbrev Back (T : Type) := List (T × Leaf T)

def separators (front : Front T) (back : Back T) : List T := front.map Prod.snd ++ back.map Prod.fst

def leaves (front : Front T) (focus : Leaf T) (back : Back T) : List (Leaf T) :=
  front.map Prod.fst ++ focus :: back.map Prod.snd

/-- All keys below a branch in their order. -/
def contents (front : Front T) (focus : Leaf T) (back : Back T) : List T :=
  front.flatMap (fun entry => entry.1.keys ++ [entry.2]) ++
    (focus.keys ++ back.flatMap (fun entry => entry.1 :: entry.2.keys))

theorem focus_mem_leaves (front : Front T) (focus : Leaf T) (back : Back T) :
    focus ∈ leaves front focus back := by simp [leaves]

theorem contents_shift (front : Front T) (focus next : Leaf T) (key : T) (back : Back T) :
    contents (front ++ [(focus, key)]) next back = contents front focus ((key, next) :: back) := by
  simp [contents]

theorem separators_sublist (front : Front T) (focus : Leaf T) (back : Back T) :
    (separators front back).Sublist (contents front focus back) := by
  rw [separators, contents]
  refine List.Sublist.append ?_ (List.Sublist.trans ?_ (List.sublist_append_right _ _))
  · induction front with
    | nil => exact .slnil
    | cons entry front ih =>
        rw [List.map_cons, List.flatMap_cons, ← List.singleton_append]
        exact (List.sublist_append_right _ _).append ih
  · induction back with
    | nil => exact .slnil
    | cons entry back ih =>
        rw [List.map_cons, List.flatMap_cons, List.cons_append]
        exact (ih.trans (List.sublist_append_right _ _)).cons_cons _

theorem isLeaf_leaves (keys : List T) (front : Front T) (focus : Leaf T) (back : Back T) :
    isLeaf (⟨keys, (leaves front focus back).map Leaf.address⟩ : BTreeNode T) = false := by
  simp [isLeaf, leaves]

variable [LinearOrder T] {t : Nat} {heap : Heap (BTreeNode T)} {this : Addr} {front : Front T}
  {focus : Leaf T} {back : Back T}

/-- The node at `this` has the given leaves for children. -/
structure Branch (t : Nat) (heap : Heap (BTreeNode T)) (this : Addr) (front : Front T)
    (focus : Leaf T) (back : Back T) : Prop where
  node : heap.get this =
    some ⟨separators front back, (leaves front focus back).map Leaf.address⟩
  leaf : ∀ leaf ∈ leaves front focus back,
    heap.get leaf.address = some ⟨leaf.keys, []⟩ ∧ leaf.keys.length ≤ 2 * t - 1
  distinct : (this :: (leaves front focus back).map Leaf.address).Nodup
  sorted : Sorted (contents front focus back)

namespace Branch

theorem shift_iff {next : Leaf T} {key : T} :
    Branch t heap this (front ++ [(focus, key)]) next back ↔
      Branch t heap this front focus ((key, next) :: back) := by
  have sameLeaves : leaves (front ++ [(focus, key)]) next back =
      leaves front focus ((key, next) :: back) := by simp [leaves]
  have sameSeparators : separators (front ++ [(focus, key)]) back =
      separators front ((key, next) :: back) := by simp [separators]
  constructor
  · rintro ⟨node, leaf, distinct, sorted⟩
    rw [sameLeaves] at node leaf distinct
    rw [sameSeparators] at node
    rw [contents_shift] at sorted
    exact ⟨node, leaf, distinct, sorted⟩
  · rintro ⟨node, leaf, distinct, sorted⟩
    rw [← sameLeaves] at node leaf distinct
    rw [← sameSeparators] at node
    rw [← contents_shift] at sorted
    exact ⟨node, leaf, distinct, sorted⟩

/-- The focus can be moved to the leaf between any two neighbouring separators. -/
theorem moved (branch : Branch t heap this front focus back) (below above : List T)
    (split : back.map Prod.fst = below ++ above) :
    ∃ front' focus' back', Branch t heap this front' focus' back' ∧
      front'.map Prod.snd = front.map Prod.snd ++ below ∧ back'.map Prod.fst = above ∧
      contents front' focus' back' = contents front focus back := by
  induction below generalizing front focus back with
  | nil => exact ⟨front, focus, back, branch, by simp, split, rfl⟩
  | cons key below ih =>
      rcases back with _ | ⟨⟨first, next⟩, back⟩
      · cases split
      · obtain ⟨rfl, rest⟩ := List.cons.inj split
        obtain ⟨front', focus', back', moved, before, behind, same⟩ := ih (shift_iff.mpr branch) rest
        refine ⟨front', focus', back', moved, ?_, behind, same.trans (contents_shift ..)⟩
        simpa using before

theorem rewound (branch : Branch t heap this front focus back) :
    ∃ first rest, Branch t heap this [] first rest ∧
      contents [] first rest = contents front focus back ∧ rest.length = front.length + back.length := by
  induction front using List.reverseRecOn generalizing focus back with
  | nil => exact ⟨focus, back, branch, rfl, by simp⟩
  | append_singleton front last ih =>
      obtain ⟨first, rest, rewound, same, length⟩ := ih (shift_iff.mp branch)
      refine ⟨first, rest, rewound, same.trans (contents_shift ..).symm, ?_⟩
      simp only [List.length_append, List.length_cons, List.length_nil] at length ⊢
      omega

/-- The child of the node between the separators around the focus. -/
theorem getChild_moved {first : Leaf T} {rest : Back T} (branch : Branch t heap this [] first rest)
    (moved : Branch t heap this front focus back) :
    getChild (⟨separators [] rest, (leaves [] first rest).map Leaf.address⟩ : BTreeNode T)
      (front.map Prod.snd).length = .ok focus.address := by
  rw [Option.some.inj (branch.node.symm.trans moved.node), getChild]
  simp [leaves]

theorem separatorsSorted (branch : Branch t heap this front focus back) :
    Sorted (separators front back) :=
  branch.sorted.sublist (separators_sublist front focus back)

theorem focusSorted (branch : Branch t heap this front focus back) : Sorted focus.keys :=
  branch.sorted.sublist ((List.sublist_append_left _ _).trans (List.sublist_append_right _ _))

theorem below_of_mem (branch : Branch t heap this front focus back) {value key : T}
    (bounded : ∀ separator ∈ front.map Prod.snd, separator ≤ key)
    (member : value ∈ front.flatMap (fun entry => entry.1.keys ++ [entry.2])) :
    ∃ separator ∈ front.map Prod.snd, value ≤ separator ∧ separator ≤ key := by
  obtain ⟨entry, entryMember, inside⟩ := List.mem_flatMap.mp member
  have separator : entry.2 ∈ front.map Prod.snd := List.mem_map_of_mem entryMember
  refine ⟨entry.2, separator, ?_, bounded _ separator⟩
  have sorted := (List.pairwise_flatMap.mp (List.pairwise_append.mp branch.sorted).1).1 entry entryMember
  rcases List.mem_append.mp inside with early | last
  · exact (List.pairwise_append.mp sorted).2.2 value early entry.2 (List.mem_singleton_self _)
  · exact (List.mem_singleton.mp last).le

theorem above_of_mem (branch : Branch t heap this front focus back) {value key : T}
    (bounded : ∀ separator ∈ back.map Prod.fst, key ≤ separator)
    (member : value ∈ back.flatMap (fun entry => entry.1 :: entry.2.keys)) :
    ∃ separator ∈ back.map Prod.fst, key ≤ separator ∧ separator ≤ value := by
  obtain ⟨entry, entryMember, inside⟩ := List.mem_flatMap.mp member
  have separator : entry.1 ∈ back.map Prod.fst := List.mem_map_of_mem entryMember
  refine ⟨entry.1, separator, bounded _ separator, ?_⟩
  have behind := (List.pairwise_append.mp (List.pairwise_append.mp branch.sorted).2.1).2.1
  have sorted := (List.pairwise_flatMap.mp behind).1 entry entryMember
  rcases List.mem_cons.mp inside with first | later
  · exact first.ge
  · exact (List.pairwise_cons.mp sorted).1 value later

/-- Replacing the keys of the leaf in focus by a sorted list that fits between its
neighbours, which are all unchanged. -/
theorem replaced (branch : Branch t heap this front focus back) {keys : List T}
    (room : keys.length ≤ 2 * t - 1) (sorted : Sorted (contents front ⟨focus.address, keys⟩ back)) :
    Branch t (heap.set focus.address ⟨keys, []⟩) this front ⟨focus.address, keys⟩ back := by
  have sameAddresses : (leaves front ⟨focus.address, keys⟩ back).map Leaf.address =
      (leaves front focus back).map Leaf.address := by simp [leaves]
  have apart := branch.distinct
  have inside := Heap.lt_fresh_of_get (branch.leaf focus (focus_mem_leaves front focus back)).1
  have rootApart : this ≠ focus.address := by
    rintro rfl
    exact (List.nodup_cons.mp apart).1 (List.mem_map_of_mem (focus_mem_leaves front focus back))
  refine ⟨?_, ?_, by rwa [sameAddresses], sorted⟩
  · rw [Heap.get_set_of_ne rootApart, branch.node, sameAddresses]
  · intro leaf member
    have others : ∀ leaf ∈ front.map Prod.fst ++ back.map Prod.snd,
        leaf.address ≠ focus.address := by
      have unique := (List.nodup_cons.mp apart).2
      rw [leaves, List.map_append, List.map_cons, List.nodup_middle, List.nodup_cons] at unique
      intro leaf member same
      refine unique.1 ?_
      rw [← same, ← List.map_append]
      exact List.mem_map_of_mem member
    rw [leaves, List.mem_append, List.mem_cons] at member
    by_cases chosen : leaf = ⟨focus.address, keys⟩
    · rw [chosen]
      exact ⟨Heap.get_set_self inside, room⟩
    · have member' : leaf ∈ front.map Prod.fst ++ back.map Prod.snd := by
        rw [List.mem_append]
        tauto
      rw [Heap.get_set_of_ne (others leaf member')]
      refine branch.leaf leaf ?_
      rw [leaves, List.mem_append, List.mem_cons]
      tauto

/-- `AddKey` on a leaf with room, in the place the separators ask for. -/
theorem insertedLeaf (branch : Branch t heap this front focus back) (key : T)
    (room : focus.keys.length < 2 * t - 1)
    (low : ∀ separator ∈ front.map Prod.snd, separator ≤ key)
    (high : ∀ separator ∈ back.map Prod.fst, key ≤ separator) :
    ∃ heap' first rest, (∀ fuel, addKey t (fuel + 1) heap focus.address key = .ok heap') ∧
      Branch t heap' this [] first rest ∧
      (contents [] first rest).Perm (key :: contents front focus back) ∧
      heap'.fresh = heap.fresh ∧ rest.length = front.length + back.length := by
  have leaf := branch.leaf focus (focus_mem_leaves front focus back)
  obtain ⟨below, above, split, belowKey, aboveKey, added⟩ :=
    addKey_leaf (t := t) leaf.1 branch.focusSorted key
  have grown : contents front ⟨focus.address, below ++ key :: above⟩ back =
      (front.flatMap (fun entry => entry.1.keys ++ [entry.2]) ++ below) ++ key ::
        (above ++ back.flatMap (fun entry => entry.1 :: entry.2.keys)) := by simp [contents]
  have before : contents front focus back =
      (front.flatMap (fun entry => entry.1.keys ++ [entry.2]) ++ below) ++
        (above ++ back.flatMap (fun entry => entry.1 :: entry.2.keys)) := by simp [contents, split]
  have sorted : Sorted (contents front ⟨focus.address, below ++ key :: above⟩ back) := by
    rw [grown]
    refine Sorted.insert (before ▸ branch.sorted) ?_ ?_
    · intro value member
      rcases List.mem_append.mp member with early | inFocus
      · obtain ⟨_, _, first, second⟩ := branch.below_of_mem low early
        exact first.trans second
      · exact belowKey value inFocus
    · intro value member
      rcases List.mem_append.mp member with inFocus | late
      · exact (aboveKey value inFocus).le
      · obtain ⟨_, _, first, second⟩ := branch.above_of_mem high late
        exact first.trans second
  have length : (below ++ key :: above).length ≤ 2 * t - 1 := by
    rw [split] at room
    simp only [List.length_append, List.length_cons] at room ⊢
    omega
  obtain ⟨first, rest, rewound, same, count⟩ := (branch.replaced length sorted).rewound
  refine ⟨_, first, rest, added, rewound, ?_, Heap.fresh_set, count⟩
  rw [same, grown, before]
  exact List.perm_middle

/-- A full leaf in focus is split and stays in focus, without its upper half. -/
theorem split (branch : Branch t heap this front focus back) {low high : List T} {median : T}
    (positive : 1 ≤ t) (full : focus.keys = low ++ median :: high) (lowLength : low.length = t - 1)
    (highLength : high.length = t - 1) :
    ∃ heap', splitChild t heap this (front.map Prod.snd).length focus.address = .ok heap' ∧
      Branch t heap' this front ⟨focus.address, low⟩ ((median, ⟨heap.fresh, high⟩) :: back) ∧
      heap'.fresh = heap.fresh + 1 := by
  have focusMember := focus_mem_leaves front focus back
  have apart := branch.distinct
  have focusLeaf := (branch.leaf focus focusMember).1
  have same : contents front ⟨focus.address, low⟩ ((median, ⟨heap.fresh, high⟩) :: back) =
      contents front focus back := by simp [contents, full]
  have sorted : Sorted (contents front ⟨focus.address, low⟩ ((median, ⟨heap.fresh, high⟩) :: back)) :=
    same ▸ branch.sorted
  have sortedKeys := sorted.sublist (separators_sublist _ _ _)
  have rootApart : focus.address ≠ this := by
    intro same
    exact (List.nodup_cons.mp apart).1 (same ▸ List.mem_map_of_mem focusMember)
  have old : ∀ leaf ∈ leaves front focus back, leaf.address ≠ heap.fresh := fun leaf member =>
    Heap.get_ne_fresh (branch.leaf leaf member).1
  have thisOld := Heap.get_ne_fresh branch.node
  have node := branch.node
  simp only [leaves, List.map_append, List.map_cons, separators] at node
  refine ⟨_, splitChild_leaf positive (by simp) node (full ▸ focusLeaf) rootApart lowLength highLength
    sortedKeys (full ▸ branch.focusSorted), ⟨?_, ?_, ?_, sorted⟩, by simp⟩
  · rw [Heap.get_set_of_ne rootApart.symm, Heap.get_set_self]
    · simp [separators, leaves]
    · rw [Heap.fresh_alloc]
      exact Nat.lt_succ_of_lt (Heap.lt_fresh_of_get branch.node)
  · intro leaf member
    have members : leaf = ⟨focus.address, low⟩ ∨ leaf = ⟨heap.fresh, high⟩ ∨
        leaf ∈ front.map Prod.fst ++ back.map Prod.snd := by
      simp only [leaves, List.map_cons, List.mem_append, List.mem_cons] at member
      rw [List.mem_append]
      tauto
    rcases members with rfl | rfl | other
    · rw [Heap.get_set_self]
      · exact ⟨rfl, by simp only; omega⟩
      · rw [Heap.fresh_set, Heap.fresh_alloc]
        exact Nat.lt_succ_of_lt (Heap.lt_fresh_of_get focusLeaf)
    · rw [Heap.get_set_of_ne (old focus focusMember).symm, Heap.get_set_of_ne thisOld.symm,
        Heap.get_alloc_fresh]
      exact ⟨rfl, by simp only; omega⟩
    · have unique := (List.nodup_cons.mp apart).2
      rw [leaves, List.map_append, List.map_cons, List.nodup_middle, List.nodup_cons,
        ← List.map_append] at unique
      have notFocus : leaf.address ≠ focus.address := fun same =>
        unique.1 (same ▸ List.mem_map_of_mem other)
      have present : leaf ∈ leaves front focus back := by
        rw [leaves, List.mem_append, List.mem_cons]
        rw [List.mem_append] at other
        tauto
      have notThis : leaf.address ≠ this := fun same =>
        (List.nodup_cons.mp apart).1 (same ▸ List.mem_map_of_mem present)
      rw [Heap.get_set_of_ne notFocus, Heap.get_set_of_ne notThis, Heap.get_alloc_of_ne (old leaf present)]
      exact branch.leaf leaf present
  · have addresses : ((leaves front ⟨focus.address, low⟩ ((median, ⟨heap.fresh, high⟩) :: back)).map
        Leaf.address).Perm (heap.fresh :: (leaves front focus back).map Leaf.address) := by
      simp only [leaves, List.map_append, List.map_cons]
      exact (List.Perm.append_left _ (List.Perm.swap _ _ _)).trans List.perm_middle
    rw [(addresses.cons this).nodup_iff, (List.Perm.swap heap.fresh this _).nodup_iff, List.nodup_cons]
    refine ⟨?_, apart⟩
    rw [List.mem_cons, List.mem_map]
    rintro (isThis | ⟨leaf, member, isLeaf⟩)
    · exact thisOld isThis.symm
    · exact old leaf member isLeaf

/-- The split of a full leaf in focus and the insertion into one of its halves, which
is what `AddKey` and `BTree::Insert` have in common. -/
theorem insertedSplit (branch : Branch t heap this front focus back) (key : T) (positive : 1 ≤ t)
    (full : focus.keys.length = 2 * t - 1)
    (low : ∀ separator ∈ front.map Prod.snd, separator ≤ key)
    (high : ∀ separator ∈ back.map Prod.fst, key ≤ separator) :
    ∃ heap₁ heap₂ node median child first rest,
      splitChild t heap this (front.map Prod.snd).length focus.address = .ok heap₁ ∧
      heap₁.get this = some node ∧ node.getKey (front.map Prod.snd).length = .ok median ∧
      node.getChild (if median < key then (front.map Prod.snd).length + 1
        else (front.map Prod.snd).length) = .ok child ∧
      (∀ fuel, addKey t (fuel + 1) heap₁ child key = .ok heap₂) ∧ Branch t heap₂ this [] first rest ∧
      (contents [] first rest).Perm (key :: contents front focus back) ∧
      heap₂.fresh = heap.fresh + 1 ∧ rest.length = front.length + back.length + 1 := by
  obtain ⟨below, median, above, shape, belowLength, aboveLength⟩ : ∃ below median above,
      focus.keys = below ++ median :: above ∧ below.length = t - 1 ∧ above.length = t - 1 := by
    have inside : t - 1 < focus.keys.length := by omega
    refine ⟨focus.keys.take (t - 1), focus.keys[t - 1], focus.keys.drop t, ?_, ?_, ?_⟩
    · have rejoined := List.take_append_drop (t - 1) focus.keys
      rw [List.drop_eq_getElem_cons inside, Nat.sub_add_cancel positive] at rejoined
      exact rejoined.symm
    · rw [List.length_take]
      omega
    · rw [List.length_drop]
      omega
  obtain ⟨heap₁, splitted, halves, grown⟩ := branch.split positive shape belowLength aboveLength
  have same : contents front ⟨focus.address, below⟩ ((median, ⟨heap.fresh, above⟩) :: back) =
      contents front focus back := by simp [contents, shape]
  have separatorsSorted := halves.separatorsSorted
  simp only [separators, List.map_cons] at separatorsSorted
  obtain ⟨_, behind, across⟩ := List.pairwise_append.mp separatorsSorted
  have medianKey : getKey ⟨separators front ((median, ⟨heap.fresh, above⟩) :: back),
      (leaves front ⟨focus.address, below⟩ ((median, ⟨heap.fresh, above⟩) :: back)).map Leaf.address⟩
      (front.map Prod.snd).length = .ok median := getKey_append _ _ _ _
  by_cases behindMedian : median < key
  · have shifted := shift_iff.mpr halves
    obtain ⟨heap₂, first, rest, added, kept, inserted, still, count⟩ := shifted.insertedLeaf key (by simp only; omega)
      (by
        intro separator member
        rw [List.map_append, List.mem_append] at member
        rcases member with early | last
        · exact low separator early
        · exact (List.mem_singleton.mp last) ▸ behindMedian.le)
      high
    refine ⟨heap₁, heap₂, _, median, heap.fresh, first, rest, splitted, halves.node, medianKey, ?_,
      added, kept, ?_, still.trans grown, ?_⟩
    · rw [if_pos behindMedian, getChild]
      simp [leaves]
    · rw [contents_shift, same] at inserted
      exact inserted
    · rw [List.length_append, List.length_singleton] at count
      omega
  · obtain ⟨heap₂, first, rest, added, kept, inserted, still, count⟩ := halves.insertedLeaf key (by simp only; omega) low
      (by
        intro separator member
        rw [List.map_cons, List.mem_cons] at member
        rcases member with rfl | late
        · exact not_lt.mp behindMedian
        · exact high separator late)
    refine ⟨heap₁, heap₂, _, median, focus.address, first, rest, splitted, halves.node, medianKey, ?_,
      added, kept, ?_, still.trans grown, ?_⟩
    · rw [if_neg behindMedian, getChild]
      simp [leaves]
    · rw [same] at inserted
      exact inserted
    · rw [List.length_cons] at count
      omega

/-- `AddKey` on a branch adds the key to one of its leaves. -/
theorem addKey_added {first : Leaf T} {rest : Back T} (branch : Branch t heap this [] first rest)
    (positive : 1 ≤ t) (key : T) (fuel : Nat) :
    ∃ heap' first' rest', addKey t (fuel + 2) heap this key = .ok heap' ∧
      Branch t heap' this [] first' rest' ∧
      (contents [] first' rest').Perm (key :: contents [] first rest) ∧
      rest.length + heap'.fresh = rest'.length + heap.fresh := by
  obtain ⟨below, above, divided, index, low, high⟩ := upperBound_splits branch.separatorsSorted key
  obtain ⟨front, focus, back, moved, before, behind, same⟩ := branch.moved below above
    (by simpa [separators] using divided)
  rw [List.map_nil, List.nil_append] at before
  subst before behind
  have total : rest.length = front.length + back.length := by
    have lengths := congrArg List.length divided
    simpa [separators] using lengths
  have focusLeaf := moved.leaf focus (focus_mem_leaves front focus back)
  have high' : ∀ separator ∈ back.map Prod.fst, key ≤ separator := fun separator member =>
    (high separator member).le
  by_cases full : focus.keys.length = 2 * t - 1
  · obtain ⟨heap₁, heap₂, node, median, child, first', rest', splitted, live, medianKey, chosen, added,
      kept, inserted, grown, count⟩ := moved.insertedSplit key positive full low high'
    refine ⟨heap₂, first', rest', ?_, kept, same ▸ inserted, by rw [grown, count, total]; omega⟩
    rw [addKey]
    simp only [load_of_get branch.node, isLeaf_leaves, Bool.false_eq_true, if_false, index,
      branch.getChild_moved moved,
      load_of_get focusLeaf.1, isKeysFull, full, beq_self_eq_true, if_true, splitted, load_of_get live,
      medianKey, chosen, added, bind, Except.bind]
  · obtain ⟨heap', first', rest', added, kept, inserted, still, count⟩ := moved.insertedLeaf key
      (lt_of_le_of_ne focusLeaf.2 full) low high'
    refine ⟨heap', first', rest', ?_, kept, same ▸ inserted, by rw [still, count, total]⟩
    have notFull : (focus.keys.length == 2 * t - 1) = false := by simpa using full
    rw [addKey]
    simp only [load_of_get branch.node, isLeaf_leaves, Bool.false_eq_true, if_false, index,
      branch.getChild_moved moved,
      load_of_get focusLeaf.1, isKeysFull, notFull, added, bind, Except.bind]

end Branch

end Dsac.Tree

import Mathlib

namespace Dsac.Library

/-! Circular doubly linked lists through a sentinel. The links are any two partial
functions between nodes. -/

variable {ι : Type u} {next prev : ι → Option ι} {storage node front back : ι}
  {nodes before after : List ι}

/-- The first node points forward to the second, which points back. -/
def Joined (next prev : ι → Option ι) (first second : ι) : Prop :=
  next first = some second ∧ prev second = some first

/-- The links lead from the sentinel through the given nodes and back to it. -/
structure Ring (next prev : ι → Option ι) (storage : ι) (nodes : List ι) : Prop where
  distinct : (storage :: nodes).Nodup
  chained : (storage :: (nodes ++ [storage])).IsChain (Joined next prev)

/-- The nodes met along the link from a node until it leads back to the sentinel. -/
def follow [DecidableEq ι] (link : ι → Option ι) (storage : ι) : Nat → ι → Option (List ι)
  | 0, _ => none
  | fuel + 1, node =>
      match link node with
      | none => none
      | some other => if other = storage then some [] else (follow link storage fuel other).map (other :: ·)

theorem isChain_joined_congr {otherNext otherPrev : ι → Option ι} {nodes : List ι}
    (chained : nodes.IsChain (Joined next prev))
    (sameNext : ∀ node ∈ nodes.dropLast, otherNext node = next node)
    (samePrev : ∀ node ∈ nodes.tail, otherPrev node = prev node) :
    nodes.IsChain (Joined otherNext otherPrev) := by
  induction nodes with
  | nil => exact .nil
  | cons first rest ih =>
      cases rest with
      | nil => exact .singleton first
      | cons second rest =>
          obtain ⟨joined, tail⟩ := List.isChain_cons_cons.mp chained
          refine List.isChain_cons_cons.mpr ⟨⟨?_, ?_⟩, ih tail (fun node member => ?_) fun node member => ?_⟩
          · rw [sameNext first (by simp), joined.1]
          · rw [samePrev second (by simp), joined.2]
          · exact sameNext node (List.mem_cons_of_mem _ member)
          · exact samePrev node (List.mem_cons_of_mem _ member)

namespace Ring

theorem congr {otherNext otherPrev : ι → Option ι} (ring : Ring next prev storage nodes)
    (sameNext : ∀ node ∈ storage :: nodes, otherNext node = next node)
    (samePrev : ∀ node ∈ storage :: nodes, otherPrev node = prev node) :
    Ring otherNext otherPrev storage nodes where
  distinct := ring.distinct
  chained := isChain_joined_congr ring.chained
    (fun node member => sameNext node (by
      rwa [← List.cons_append, List.dropLast_concat] at member))
    fun node member => samePrev node (by
      rw [List.tail_cons, List.mem_append, List.mem_singleton] at member
      exact List.mem_cons.mpr member.symm)

/-- The sentinel alone, linked to itself. -/
theorem nil (forward : next storage = some storage) (backward : prev storage = some storage) :
    Ring next prev storage [] where
  distinct := List.nodup_singleton storage
  chained := List.isChain_cons_cons.mpr ⟨⟨forward, backward⟩, .singleton storage⟩

/-- Seen through the backward links, the ring is the reverse one. -/
theorem reverse (ring : Ring next prev storage nodes) : Ring prev next storage nodes.reverse where
  distinct := by
    have distinct := ring.distinct
    rwa [List.nodup_cons, ← List.nodup_reverse, ← List.mem_reverse, ← List.nodup_cons] at distinct
  chained := by
    have flipped := List.isChain_reverse.mpr ring.chained
    rw [List.reverse_cons, List.reverse_append, List.reverse_singleton, List.singleton_append,
      List.cons_append] at flipped
    exact flipped.imp fun _ _ => And.symm

theorem follow_chain [DecidableEq ι] {fuel : Nat}
    (chained : (node :: (after ++ [storage])).IsChain (Joined next prev)) (outside : storage ∉ after)
    (enough : after.length < fuel) : follow next storage fuel node = some after := by
  induction after generalizing node fuel with
  | nil =>
      cases fuel with
      | zero => cases enough
      | succ fuel => simp only [follow, (List.isChain_cons_cons.mp chained).1.1, if_true]
  | cons other rest ih =>
      cases fuel with
      | zero => cases enough
      | succ fuel =>
          obtain ⟨joined, tail⟩ := List.isChain_cons_cons.mp chained
          rw [List.mem_cons, not_or] at outside
          have found := ih tail outside.2 (Nat.lt_of_succ_lt_succ enough)
          simp only [follow, joined.1, if_neg (Ne.symm outside.1), found, Option.map_some]

/-- The links lead from the sentinel through the nodes in their order and back. -/
theorem follow_eq [DecidableEq ι] {fuel : Nat} (ring : Ring next prev storage nodes)
    (enough : nodes.length < fuel) : follow next storage fuel storage = some nodes :=
  follow_chain ring.chained (List.nodup_cons.mp ring.distinct).1 enough

theorem next_storage (ring : Ring next prev storage nodes) (isFirst : (nodes ++ [storage]).head? = some front) :
    next storage = some front := by
  obtain ⟨rest, split⟩ := List.head?_eq_some_iff.mp isFirst
  have chained := ring.chained
  rw [split] at chained
  exact (List.isChain_cons_cons.mp chained).1.1

/-- The neighbours of a place between two nodes of the ring. -/
theorem joined (ring : Ring next prev storage (before ++ after))
    (isLast : (storage :: before).getLast? = some back)
    (isFirst : (after ++ [storage]).head? = some front) : Joined next prev back front := by
  obtain ⟨left, leftSplit⟩ := List.getLast?_eq_some_iff.mp isLast
  obtain ⟨right, rightSplit⟩ := List.head?_eq_some_iff.mp isFirst
  have chained := ring.chained
  rw [List.append_assoc, ← List.cons_append, leftSplit, rightSplit, List.append_assoc,
    List.singleton_append] at chained
  exact (List.isChain_append_cons_cons.mp chained).2.1

theorem prev_storage (ring : Ring next prev storage nodes)
    (isLast : (storage :: nodes).getLast? = some back) : prev storage = some back := by
  have whole : Ring next prev storage (nodes ++ []) := by rwa [List.append_nil]
  exact (whole.joined isLast rfl).2

theorem joined_before (ring : Ring next prev storage (before ++ node :: after))
    (isLast : (storage :: before).getLast? = some back) : Joined next prev back node :=
  ring.joined isLast rfl

theorem joined_after (ring : Ring next prev storage (before ++ node :: after))
    (isFirst : (after ++ [storage]).head? = some front) : Joined next prev node front := by
  have split : Ring next prev storage ((before ++ [node]) ++ after) := by
    rwa [List.append_assoc, List.singleton_append]
  exact split.joined (by rw [← List.cons_append, List.getLast?_concat]) isFirst

theorem exists_isLast (storage : ι) (before : List ι) :
    ∃ back, (storage :: before).getLast? = some back :=
  ⟨_, List.getLast?_eq_some_getLast (List.cons_ne_nil storage before)⟩

theorem exists_isFirst (storage : ι) (after : List ι) :
    ∃ front, (after ++ [storage]).head? = some front :=
  ⟨_, List.head?_eq_some_head (List.append_ne_nil_of_right_ne_nil after (List.cons_ne_nil storage []))⟩

/-- The two sides of a place of the ring keep their links when only the links across the
place and those of one node outside the ring change. -/
theorem sides_relinked (otherNext otherPrev : ι → Option ι) {left right : List ι}
    (distinct : (storage :: (before ++ after)).Nodup) (outside : node ∉ storage :: (before ++ after))
    (leftSplit : storage :: before = left ++ [back]) (rightSplit : after ++ [storage] = front :: right)
    (leftChain : (left ++ [back]).IsChain (Joined next prev))
    (rightChain : (front :: right).IsChain (Joined next prev))
    (sameNext : ∀ other, other ≠ back → other ≠ node → otherNext other = next other)
    (samePrev : ∀ other, other ≠ front → other ≠ node → otherPrev other = prev other) :
    (left ++ [back]).IsChain (Joined otherNext otherPrev) ∧
      (front :: right).IsChain (Joined otherNext otherPrev) := by
  have storageOut : storage ∉ before ++ after := (List.nodup_cons.mp distinct).1
  have apart := List.disjoint_of_nodup_append (List.nodup_cons.mp distinct).2
  have leftDistinct : (left ++ [back]).Nodup := by
    rw [← leftSplit]
    exact distinct.sublist ((List.sublist_append_left before after).cons_cons storage)
  have rightDistinct : (front :: right).Nodup := by
    rw [← rightSplit]
    exact (List.perm_append_singleton storage after).nodup_iff.mpr
      (distinct.sublist ((List.sublist_append_right before after).cons_cons storage))
  have inLeft : ∀ other, other ∈ left ++ [back] ↔ other = storage ∨ other ∈ before := fun other => by
    rw [← leftSplit, List.mem_cons]
  have inRight : ∀ other, other ∈ front :: right ↔ other ∈ after ∨ other = storage := fun other => by
    rw [← rightSplit, List.mem_append, List.mem_singleton]
  simp only [List.mem_cons, List.mem_append, not_or] at outside storageOut
  constructor
  · refine isChain_joined_congr leftChain (fun other member => ?_) fun other member => ?_
    · rw [List.dropLast_concat] at member
      refine sameNext other ?_ ?_
      · rintro rfl
        exact (List.disjoint_of_nodup_append leftDistinct) member (List.mem_singleton_self _)
      · rintro rfl
        exact ((inLeft other).mp (List.mem_append_left _ member)).elim outside.1 outside.2.1
    · rw [← leftSplit, List.tail_cons] at member
      refine samePrev other ?_ ?_
      · rintro rfl
        rcases (inRight other).mp List.mem_cons_self with later | rfl
        · exact apart member later
        · exact storageOut.1 member
      · rintro rfl
        exact outside.2.1 member
  · refine isChain_joined_congr rightChain (fun other member => ?_) fun other member => ?_
    · rw [← rightSplit, List.dropLast_concat] at member
      refine sameNext other ?_ ?_
      · rintro rfl
        rcases (inLeft other).mp (List.mem_append_right _ (List.mem_singleton_self _)) with rfl | earlier
        · exact storageOut.2 member
        · exact apart earlier member
      · rintro rfl
        exact outside.2.2 member
    · rw [List.tail_cons] at member
      refine samePrev other ?_ ?_
      · rintro rfl
        exact (List.nodup_cons.mp rightDistinct).1 member
      · rintro rfl
        exact ((inRight other).mp (List.mem_cons_of_mem _ member)).elim outside.2.2 outside.1

theorem ne_of_isLast (outside : node ∉ storage :: (before ++ after))
    (isLast : (storage :: before).getLast? = some back) : back ≠ node := by
  rintro rfl
  exact outside (List.cons_subset_cons storage (List.subset_append_left before after)
    (List.mem_of_getLast? isLast))

theorem ne_of_isFirst (outside : node ∉ storage :: (before ++ after))
    (isFirst : (after ++ [storage]).head? = some front) : front ≠ node := by
  rintro rfl
  rcases List.mem_append.mp (List.mem_of_head? isFirst) with later | same
  · exact outside (List.mem_cons_of_mem _ (List.mem_append_right _ later))
  · exact outside (List.mem_singleton.mp same ▸ List.mem_cons_self)

theorem outside_of_middle (ring : Ring next prev storage (before ++ node :: after)) :
    (storage :: (before ++ after)).Nodup ∧ node ∉ storage :: (before ++ after) := by
  have distinct := ring.distinct
  rw [List.nodup_cons, List.nodup_middle, List.nodup_cons] at distinct
  obtain ⟨storageOut, nodeOut, rest⟩ := distinct
  simp only [List.mem_append, List.mem_cons, not_or] at storageOut nodeOut
  refine ⟨List.nodup_cons.mpr ⟨by simp [storageOut], rest⟩, ?_⟩
  simp only [List.mem_cons, List.mem_append, not_or]
  exact ⟨Ne.symm storageOut.2.1, nodeOut⟩

variable [DecidableEq ι]

/-- A node from outside the ring is linked in between two neighbours. -/
theorem insert (ring : Ring next prev storage (before ++ after))
    (isLast : (storage :: before).getLast? = some back)
    (isFirst : (after ++ [storage]).head? = some front) (outside : node ∉ storage :: (before ++ after)) :
    Ring (Function.update (Function.update next back (some node)) node (some front))
      (Function.update (Function.update prev front (some node)) node (some back))
      storage (before ++ node :: after) := by
  obtain ⟨left, leftSplit⟩ := List.getLast?_eq_some_iff.mp isLast
  obtain ⟨right, rightSplit⟩ := List.head?_eq_some_iff.mp isFirst
  have distinct := ring.distinct
  have chained := ring.chained
  rw [List.append_assoc, ← List.cons_append, leftSplit, rightSplit, List.append_assoc,
    List.singleton_append] at chained
  obtain ⟨leftChain, _, rightChain⟩ := List.isChain_append_cons_cons.mp chained
  obtain ⟨leftChain, rightChain⟩ := sides_relinked
    (Function.update (Function.update next back (some node)) node (some front))
    (Function.update (Function.update prev front (some node)) node (some back))
    distinct outside leftSplit rightSplit leftChain rightChain
    (fun other one two => by rw [Function.update_of_ne two, Function.update_of_ne one])
    (fun other one two => by rw [Function.update_of_ne two, Function.update_of_ne one])
  refine ⟨?_, ?_⟩
  · rw [List.nodup_cons] at distinct ⊢
    simp only [List.mem_cons, List.mem_append, not_or] at outside distinct ⊢
    refine ⟨⟨distinct.1.1, Ne.symm outside.1, distinct.1.2⟩, ?_⟩
    exact List.nodup_middle.mpr (List.nodup_cons.mpr ⟨by simp [outside], distinct.2⟩)
  · rw [List.append_assoc, List.cons_append, ← List.cons_append, leftSplit, rightSplit,
      List.append_assoc, List.singleton_append]
    refine List.isChain_append_cons_cons.mpr ⟨leftChain, ⟨?_, Function.update_self _ _ _⟩,
      List.isChain_cons_cons.mpr ⟨⟨Function.update_self _ _ _, ?_⟩, rightChain⟩⟩
    · rw [Function.update_of_ne (ne_of_isLast outside isLast), Function.update_self]
    · rw [Function.update_of_ne (ne_of_isFirst outside isFirst), Function.update_self]

/-- A node is taken out from between its neighbours, and its own links are cut. -/
theorem remove (ring : Ring next prev storage (before ++ node :: after))
    (isLast : (storage :: before).getLast? = some back)
    (isFirst : (after ++ [storage]).head? = some front) :
    Ring (Function.update (Function.update next back (some front)) node none)
      (Function.update (Function.update prev front (some back)) node none)
      storage (before ++ after) := by
  obtain ⟨left, leftSplit⟩ := List.getLast?_eq_some_iff.mp isLast
  obtain ⟨right, rightSplit⟩ := List.head?_eq_some_iff.mp isFirst
  obtain ⟨distinct, outside⟩ := ring.outside_of_middle
  have chained := ring.chained
  rw [List.append_assoc, List.cons_append, ← List.cons_append, leftSplit, rightSplit,
    List.append_assoc, List.singleton_append] at chained
  obtain ⟨leftChain, _, tail⟩ := List.isChain_append_cons_cons.mp chained
  obtain ⟨leftChain, rightChain⟩ := sides_relinked
    (Function.update (Function.update next back (some front)) node none)
    (Function.update (Function.update prev front (some back)) node none)
    distinct outside leftSplit rightSplit leftChain (List.isChain_cons_cons.mp tail).2
    (fun other one two => by rw [Function.update_of_ne two, Function.update_of_ne one])
    (fun other one two => by rw [Function.update_of_ne two, Function.update_of_ne one])
  refine ⟨distinct, ?_⟩
  rw [List.append_assoc, ← List.cons_append, leftSplit, rightSplit, List.append_assoc,
    List.singleton_append]
  refine List.isChain_append_cons_cons.mpr ⟨leftChain, ⟨?_, ?_⟩, rightChain⟩
  · rw [Function.update_of_ne (ne_of_isLast outside isLast), Function.update_self]
  · rw [Function.update_of_ne (ne_of_isFirst outside isFirst), Function.update_self]

end Ring

end Dsac.Library

import Dsac.Cache.Index

namespace Dsac.Cache

open Dsac.Library Dsac.Intrusive

/-! An index whose items are linked into one intrusive list. -/

variable {Key Value : Type}

/-- The heaps agree in the links and items off the given addresses. -/
def Untouched (old new : Items Key Value) (touched : List Addr) : Prop :=
  ∀ address ∉ touched, nextOf new address = nextOf old address ∧
    prevOf new address = prevOf old address ∧ itemAt new address = itemAt old address

variable {heap middle new : Items Key Value} {touched more nodes : List Addr} {storage_ address : Addr}
  {node : ListNodeBase (Item Key Value)}

theorem Untouched.trans (first : Untouched heap middle touched) (second : Untouched middle new touched) :
    Untouched heap new touched := by
  intro address outside
  obtain ⟨next, prev, item⟩ := first address outside
  obtain ⟨nextAfter, prevAfter, itemAfter⟩ := second address outside
  exact ⟨nextAfter.trans next, prevAfter.trans prev, itemAfter.trans item⟩

theorem Untouched.mono (untouched : Untouched heap new touched) (subset : touched ⊆ more) :
    Untouched heap new more := fun address outside => untouched address fun member => outside (subset member)

theorem Frames.untouched (frames : Frames heap new touched) : Untouched heap new touched :=
  fun address outside => ⟨frames.next address outside, frames.prev address outside,
    itemAt_congr (frames.objects address)⟩

theorem untouched_alloc : Untouched heap (heap.alloc node) [heap.fresh] := fun address outside => by
  have other : address ≠ heap.fresh := by simpa using outside
  simp only [nextOf, prevOf, itemAt, Heap.get_alloc_of_ne other, and_self]

theorem untouched_free : Untouched heap (heap.free address) [address] := fun other outside => by
  have different : other ≠ address := by simpa using outside
  simp only [nextOf, prevOf, itemAt, Heap.get_free_of_ne different, and_self]

theorem Untouched.links (untouched : Untouched heap new touched) (links : Links heap storage_ nodes)
    (apart : ∀ address ∈ storage_ :: nodes, address ∉ touched) : Links new storage_ nodes :=
  links.congr (fun address member => (untouched address (apart address member)).1)
    fun address member => (untouched address (apart address member)).2.1

/-- The list links the items of the index in the order of the entries. -/
structure Linked [BEq Key] (heap : Items Key Value) (storage_ : Addr) (index : List Addr)
    (entries : List (Addr × Item Key Value)) : Prop where
  links : Links heap storage_ (entries.map Prod.fst)
  indexes : Indexes heap index entries

theorem live_of_links (links : Links heap storage_ nodes) (member : address ∈ storage_ :: nodes) :
    ∃ node, heap.get address = some node := by
  rcases List.mem_cons.mp member with rfl | inside
  · obtain ⟨front, isFirst⟩ := Ring.exists_isFirst address nodes
    obtain ⟨node, live, _⟩ := exists_of_nextOf (links.next_storage isFirst)
    exact ⟨node, live⟩
  · obtain ⟨before, after, rfl⟩ := List.append_of_mem inside
    obtain ⟨front, isFirst⟩ := Ring.exists_isFirst storage_ after
    obtain ⟨node, live, _⟩ := exists_of_nextOf (links.joined_after isFirst).1
    exact ⟨node, live⟩

theorem ne_fresh_of_links (links : Links heap storage_ nodes) (member : address ∈ storage_ :: nodes) :
    address ≠ heap.fresh := by
  obtain ⟨_, live⟩ := live_of_links links member
  exact Heap.get_ne_fresh live

namespace Linked

variable [BEq Key] {index : List Addr} {entries before after : List (Addr × Item Key Value)}
  {entry : Addr × Item Key Value} {item : Item Key Value}

theorem congr (linked : Linked heap storage_ index entries) (untouched : Untouched heap new touched)
    (apart : ∀ address ∈ storage_ :: entries.map Prod.fst, address ∉ touched) :
    Linked new storage_ index entries where
  links := untouched.links linked.links apart
  indexes := linked.indexes.congr fun entry member =>
    (untouched entry.1 (apart entry.1 (List.mem_cons_of_mem _ (List.mem_map_of_mem member)))).2.2

/-- The list loses an item that the index still has. -/
theorem detach_eq (linked : Linked heap storage_ index (before ++ entry :: after)) :
    ∃ new, detach heap entry.1 = .ok new ∧ Links new storage_ ((before ++ after).map Prod.fst) ∧
      Indexes new index (before ++ entry :: after) ∧
      (nextOf new entry.1 = none ∧ prevOf new entry.1 = none) ∧
      Untouched heap new (storage_ :: (before ++ entry :: after).map Prod.fst) ∧ new.fresh = heap.fresh := by
  have links := linked.links
  rw [List.map_append, List.map_cons] at links
  obtain ⟨new, detached, left, cut, frames⟩ := detach_links links
  rw [← List.map_append] at left
  rw [← List.map_cons, ← List.map_append] at frames
  exact ⟨new, detached, left, linked.indexes.congr fun entry _ => itemAt_congr (frames.objects entry.1),
    cut, Frames.untouched frames, frames.fresh⟩

/-- An item that is in no list is linked at the front. -/
theorem pushFront_eq (links : Links heap storage_ (entries.map Prod.fst))
    (indexes : Indexes heap index (entry :: entries)) (outside : entry.1 ∉ storage_ :: entries.map Prod.fst) :
    ∃ new, pushFront heap storage_ entry.1 = .ok new ∧ Linked new storage_ index (entry :: entries) ∧
      Untouched heap new (storage_ :: (entry :: entries).map Prod.fst) ∧ new.fresh = heap.fresh := by
  obtain ⟨node, live, _⟩ := exists_of_itemAt (indexes.items entry List.mem_cons_self)
  obtain ⟨new, pushed, linked, frames⟩ := pushFront_links links live outside
  exact ⟨new, pushed, ⟨linked, indexes.congr fun entry _ => itemAt_congr (frames.objects entry.1)⟩,
    Frames.untouched frames, frames.fresh⟩

theorem outside_of_middle (linked : Linked heap storage_ index (before ++ entry :: after)) :
    entry.1 ∉ storage_ :: (before ++ after).map Prod.fst := by
  have links := linked.links
  rw [List.map_append, List.map_cons] at links
  rw [List.map_append]
  exact links.outside_of_middle.2

/-- The last item leaves the list, and the index still has it. -/
theorem popBack_cut (linked : Linked heap storage_ index (before ++ [entry])) :
    ∃ new, popBack heap storage_ = .ok (new, some entry.1) ∧ Links new storage_ (before.map Prod.fst) ∧
      Indexes new index (before ++ [entry]) ∧
      (nextOf new entry.1 = none ∧ prevOf new entry.1 = none) ∧
      Untouched heap new (storage_ :: (before ++ [entry]).map Prod.fst) := by
  have links := linked.links
  rw [List.map_append, List.map_singleton] at links
  obtain ⟨new, popped, left, cut, frames⟩ := popBack_links links
  rw [← List.map_singleton, ← List.map_append] at frames
  exact ⟨new, popped, left, linked.indexes.congr fun entry _ => itemAt_congr (frames.objects entry.1), cut,
    Frames.untouched frames⟩

/-- The last item leaves the list, and is detached once more. -/
theorem popBack_eq (linked : Linked heap storage_ index (before ++ [entry])) :
    ∃ middle new, popBack heap storage_ = .ok (middle, some entry.1) ∧
      detach middle entry.1 = .ok new ∧ Links new storage_ (before.map Prod.fst) ∧
      Indexes new index (before ++ [entry]) ∧
      Untouched heap new (storage_ :: (before ++ [entry]).map Prod.fst) := by
  obtain ⟨middle, popped, left, indexes, ⟨nextCut, prevCut⟩, untouched⟩ := linked.popBack_cut
  have inside : entry ∈ before ++ [entry] := by simp
  obtain ⟨node, live, _⟩ := exists_of_itemAt (indexes.items entry inside)
  rw [nextOf_of_get live] at nextCut
  rw [prevOf_of_get live] at prevCut
  obtain ⟨new, detached, relinks⟩ := detach_unlinked live nextCut prevCut
  have still : Frames middle new [] :=
    ⟨fun _ _ => congrFun relinks.next _, fun _ _ => congrFun relinks.prev _, relinks.objects, relinks.fresh⟩
  have later := Frames.untouched still
  refine ⟨middle, new, popped, detached, later.links left (by simp), ?_, untouched.trans (later.mono (by simp))⟩
  exact indexes.congr fun other _ => (later other.1 (by simp)).2.2

/-- An item that left the list leaves the index. -/
theorem eraseAt_eq (links : Links heap storage_ ((before ++ after).map Prod.fst))
    (indexes : Indexes heap index (before ++ entry :: after))
    (outside : entry.1 ∉ storage_ :: (before ++ after).map Prod.fst) :
    eraseAt heap index entry.1 = .ok (heap.free entry.1, index.erase entry.1) ∧
      Linked (heap.free entry.1) storage_ (index.erase entry.1) (before ++ after) := by
  have distinct : ((before ++ entry :: after).map Prod.fst).Nodup := by
    rw [(List.perm_middle.map Prod.fst).nodup_iff, List.map_cons, List.nodup_cons]
    exact ⟨fun member => outside (List.mem_cons_of_mem _ member), (List.nodup_cons.mp links.distinct).2⟩
  obtain ⟨erased, left⟩ := indexes.eraseAt_eq distinct
  refine ⟨erased, untouched_free.links links fun address member same => ?_, left⟩
  exact ne_of_mem_of_not_mem member outside (List.mem_singleton.mp same)

variable [EquivBEq Key]

theorem promote_eq (linked : Linked heap storage_ index (before ++ entry :: after)) :
    ∃ middle new, detach heap entry.1 = .ok middle ∧ pushFront middle storage_ entry.1 = .ok new ∧
      Linked new storage_ index (entry :: (before ++ after)) ∧
      Untouched heap new (storage_ :: (before ++ entry :: after).map Prod.fst) ∧ new.fresh = heap.fresh := by
  obtain ⟨middle, detached, links, indexes, _, untouched, fresh⟩ := linked.detach_eq
  obtain ⟨new, pushed, front, pushedUntouched, pushedFresh⟩ :=
    pushFront_eq links (indexes.reorder List.perm_middle) linked.outside_of_middle
  refine ⟨middle, new, detached, pushed, front, untouched.trans (pushedUntouched.mono ?_),
    pushedFresh.trans fresh⟩
  exact List.cons_subset_cons storage_ (List.perm_middle.symm.map Prod.fst).subset

/-- An item with a new key is inserted into the index and linked at the front. -/
theorem insert_front (linked : Linked heap storage_ index entries)
    (absent : ∀ entry ∈ entries, (entry.2.key == item.key) = false) :
    ∃ new, insert heap index item none none =
        (heap.alloc { object := some item }, heap.fresh :: index, heap.fresh) ∧
      pushFront (heap.alloc { object := some item }) storage_ heap.fresh = .ok new ∧
      Linked new storage_ (heap.fresh :: index) ((heap.fresh, item) :: entries) ∧
      Untouched heap new (storage_ :: ((heap.fresh, item) :: entries).map Prod.fst) := by
  obtain ⟨inserted, indexes⟩ := linked.indexes.insert_eq absent none none
  have outside : heap.fresh ∉ storage_ :: entries.map Prod.fst := fun member =>
    ne_fresh_of_links linked.links member rfl
  have allocated : Untouched heap (heap.alloc { object := some item }) [heap.fresh] := untouched_alloc
  have links := allocated.links linked.links fun address member same =>
    ne_fresh_of_links linked.links member (List.mem_singleton.mp same)
  obtain ⟨new, pushed, front, untouched, _⟩ := pushFront_eq links indexes outside
  refine ⟨new, inserted, pushed, front, (allocated.mono ?_).trans untouched⟩
  simp

end Linked

end Dsac.Cache

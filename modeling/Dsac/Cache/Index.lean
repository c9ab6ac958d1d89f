import Dsac.Container.Intrusive.List.Links

namespace Dsac.Cache

open Dsac.Library Dsac.Intrusive

/-! The items of a cache, and the `std::unordered_set` that owns them. -/

structure Item (Key Value : Type) where
  key : Key
  value : Value
deriving DecidableEq, Repr

/-- The memory of the items and of the sentinels. -/
abbrev Items (Key Value : Type) := Heap (ListNodeBase (Item Key Value))

variable {Key Value : Type}

/-- The item at an address. -/
def itemAt (heap : Items Key Value) (address : Addr) : Option (Item Key Value) :=
  (heap.get address).bind (·.object)

/-- `*pointer` for a pointer to an item. -/
def loadItem (heap : Items Key Value) (address : Addr) : Outcome (Item Key Value) :=
  match itemAt heap address with
  | some item => .ok item
  | none => .error .destroyedNode

section

variable {heap new : Items Key Value} {item : Item Key Value} {address : Addr}

theorem exists_of_itemAt (found : itemAt heap address = some item) :
    ∃ node, heap.get address = some node ∧ node.object = some item :=
  Option.bind_eq_some_iff.mp found

theorem loadItem_of_itemAt (found : itemAt heap address = some item) :
    loadItem heap address = .ok item := by
  rw [loadItem, found]

theorem itemAt_congr (same : (new.get address).map (·.object) = (heap.get address).map (·.object)) :
    itemAt new address = itemAt heap address := by
  rw [itemAt, itemAt]
  cases newIs : new.get address <;> cases oldIs : heap.get address <;> simp_all

theorem itemAt_alloc {node : ListNodeBase (Item Key Value)} (found : itemAt heap address = some item) :
    itemAt (heap.alloc node) address = some item := by
  obtain ⟨_, live, _⟩ := exists_of_itemAt found
  rw [itemAt, Heap.get_alloc_of_ne (Heap.get_ne_fresh live)]
  exact found

theorem itemAt_free {other : Addr} (different : address ≠ other) :
    itemAt (heap.free other) address = itemAt heap address := by
  rw [itemAt, itemAt, Heap.get_free_of_ne different]

end

variable [BEq Key]

/-- `index.find(item)`; null is the end. -/
def find (heap : Items Key Value) (index : List Addr) (key : Key) : Option Addr :=
  index.find? fun address => (itemAt heap address).any (·.key == key)

/-- `index.insert(std::move(item)).first`; the links of the item are copied with it. -/
def insert (heap : Items Key Value) (index : List Addr) (item : Item Key Value)
    (prev_ next_ : Option Addr) : Items Key Value × List Addr × Addr :=
  match find heap index item.key with
  | some hit => (heap, index, hit)
  | none => (heap.alloc { prev_, next_, object := some item }, heap.fresh :: index, heap.fresh)

/-- `index.erase(iterator)`. -/
def eraseAt (heap : Items Key Value) (index : List Addr) (address : Addr) :
    Outcome (Items Key Value × List Addr) := do
  return (← destroy heap address, index.erase address)

/-- `index.erase(item)`. -/
def erase (heap : Items Key Value) (index : List Addr) (key : Key) :
    Outcome (Items Key Value × List Addr) :=
  match find heap index key with
  | some address => eraseAt heap index address
  | none => .ok (heap, index)

/-- The index owns exactly the given items, at the given addresses, with distinct keys. -/
structure Indexes (heap : Items Key Value) (index : List Addr)
    (entries : List (Addr × Item Key Value)) : Prop where
  perm : index.Perm (entries.map Prod.fst)
  items : ∀ entry ∈ entries, itemAt heap entry.1 = some entry.2
  keys : entries.Pairwise fun first second => (first.2.key == second.2.key) = false

variable {heap new : Items Key Value} {index : List Addr} {entries before after : List (Addr × Item Key Value)}
  {entry : Addr × Item Key Value} {item : Item Key Value} {key : Key} {address : Addr}

namespace Indexes

theorem congr (indexes : Indexes heap index entries)
    (same : ∀ entry ∈ entries, itemAt new entry.1 = itemAt heap entry.1) : Indexes new index entries where
  perm := indexes.perm
  items entry member := (same entry member).trans (indexes.items entry member)
  keys := indexes.keys

theorem length_eq (indexes : Indexes heap index entries) : index.length = entries.length := by
  rw [indexes.perm.length_eq, List.length_map]

theorem find_none (indexes : Indexes heap index entries)
    (absent : ∀ entry ∈ entries, (entry.2.key == key) = false) : find heap index key = none := by
  refine List.find?_eq_none.mpr fun address member => ?_
  obtain ⟨entry, inside, rfl⟩ := List.mem_map.mp (indexes.perm.mem_iff.mp member)
  rw [indexes.items entry inside, Option.any_some, absent entry inside]
  exact Bool.false_ne_true

theorem eraseAt_eq (indexes : Indexes heap index (before ++ entry :: after))
    (distinct : ((before ++ entry :: after).map Prod.fst).Nodup) :
    eraseAt heap index entry.1 = .ok (heap.free entry.1, index.erase entry.1) ∧
      Indexes (heap.free entry.1) (index.erase entry.1) (before ++ after) := by
  have middle : entry ∈ before ++ entry :: after := by simp
  obtain ⟨node, live, _⟩ := exists_of_itemAt (indexes.items entry middle)
  have sublist : (before ++ after).Sublist (before ++ entry :: after) :=
    (List.sublist_cons_self entry after).append_left before
  refine ⟨?_, ?_, fun other member => ?_, indexes.keys.sublist sublist⟩
  · simp only [eraseAt, destroy_of_get live, bind, Except.bind]
    rfl
  · have erased := indexes.perm.erase entry.1
    rw [List.map_append, List.map_cons] at erased distinct
    rw [List.nodup_middle, List.nodup_cons, List.mem_append, not_or] at distinct
    rwa [List.erase_append_right _ distinct.1.1, List.erase_cons_head, ← List.map_append] at erased
  · rw [List.map_append, List.map_cons, List.nodup_middle, List.nodup_cons, ← List.map_append] at distinct
    have elsewhere : other.1 ≠ entry.1 :=
      ne_of_mem_of_not_mem (List.mem_map_of_mem member) distinct.1
    rw [itemAt_free elsewhere]
    exact indexes.items other (sublist.subset member)

variable [EquivBEq Key]

theorem reorder {others : List (Addr × Item Key Value)} (indexes : Indexes heap index entries)
    (perm : entries.Perm others) : Indexes heap index others where
  perm := indexes.perm.trans (perm.map Prod.fst)
  items entry member := indexes.items entry (perm.mem_iff.mpr member)
  keys := (perm.pairwise_iff fun apart => BEq.comm.trans apart).mp indexes.keys

theorem find_some (indexes : Indexes heap index entries) (member : entry ∈ entries)
    (matched : (entry.2.key == key) = true) : find heap index key = some entry.1 := by
  have inside : entry.1 ∈ index := indexes.perm.mem_iff.mpr (List.mem_map_of_mem member)
  have matches_ : (itemAt heap entry.1).any (·.key == key) = true := by
    rw [indexes.items entry member, Option.any_some, matched]
  cases found : find heap index key with
  | none => exact absurd matches_ (List.find?_eq_none.mp found entry.1 inside)
  | some address =>
      obtain ⟨other, otherIn, rfl⟩ :=
        List.mem_map.mp (indexes.perm.mem_iff.mp (List.mem_of_find?_eq_some found))
      have otherMatches := List.find?_some found
      rw [indexes.items other otherIn, Option.any_some] at otherMatches
      by_contra different
      have symmetric : Std.Symm fun first second : Addr × Item Key Value =>
          (first.2.key == second.2.key) = false := ⟨fun _ _ apart => BEq.comm.trans apart⟩
      have apart := indexes.keys.forall otherIn member fun same => different (by rw [same])
      rw [BEq.trans otherMatches (BEq.symm matched)] at apart
      cases apart

/-- A search of the index finds what a search of the plain list of items finds. -/
theorem lookup (indexes : Indexes heap index entries) (key : Key) :
    (∃ before entry after, entries = before ++ entry :: after ∧ find heap index key = some entry.1 ∧
        (entries.map Prod.snd).find? (·.key == key) = some entry.2 ∧
        (entries.map Prod.snd).eraseP (·.key == entry.2.key) = (before ++ after).map Prod.snd) ∨
      (∀ entry ∈ entries, (entry.2.key == key) = false) ∧ find heap index key = none ∧
        (entries.map Prod.snd).find? (·.key == key) = none := by
  rw [List.find?_map]
  cases found : entries.find? ((fun item => item.key == key) ∘ Prod.snd) with
  | none =>
      have absent : ∀ entry ∈ entries, (entry.2.key == key) = false := fun entry member =>
        Bool.eq_false_iff.mpr (List.find?_eq_none.mp found entry member)
      exact Or.inr ⟨absent, indexes.find_none absent, rfl⟩
  | some entry =>
      obtain ⟨matched, before, after, split, _⟩ := List.find?_eq_some_iff_append.mp found
      refine Or.inl ⟨before, entry, after, split,
        indexes.find_some (List.mem_of_find?_eq_some found) matched, rfl, ?_⟩
      have keys := indexes.keys
      rw [split, List.pairwise_append] at keys
      have earlier : ∀ item ∈ before.map Prod.snd, ¬ (item.key == entry.2.key) = true := by
        intro item member
        obtain ⟨other, inside, rfl⟩ := List.mem_map.mp member
        rw [keys.2.2 other inside entry List.mem_cons_self]
        exact Bool.false_ne_true
      have here : (entry.2.key == entry.2.key) = true := BEq.rfl
      rw [split, List.map_append, List.map_cons, List.eraseP_append_right _ earlier, List.eraseP_cons,
        here, cond_true, List.map_append]

/-- An item with a new key gets a new address. -/
theorem insert_eq (indexes : Indexes heap index entries)
    (absent : ∀ entry ∈ entries, (entry.2.key == item.key) = false) (prev_ next_ : Option Addr) :
    insert heap index item prev_ next_ =
        (heap.alloc { prev_, next_, object := some item }, heap.fresh :: index, heap.fresh) ∧
      Indexes (heap.alloc { prev_, next_, object := some item }) (heap.fresh :: index)
        ((heap.fresh, item) :: entries) := by
  refine ⟨by rw [insert, indexes.find_none absent], indexes.perm.cons _, fun entry member => ?_,
    List.pairwise_cons.mpr ⟨fun entry member => ?_, indexes.keys⟩⟩
  · rcases List.mem_cons.mp member with rfl | older
    · rw [itemAt, Heap.get_alloc_fresh]
      rfl
    · exact itemAt_alloc (indexes.items entry older)
  · rw [BEq.comm]
    exact absent entry member

end Indexes

end Dsac.Cache

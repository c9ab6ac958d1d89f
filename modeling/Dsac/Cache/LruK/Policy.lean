import Dsac.Cache.LruK
import Dsac.Cache.Index.Linked

namespace Dsac.Cache

open Dsac.Library Dsac.Intrusive

/-! The policy of `lru_k` on two plain lists of items, and that the cache follows it. -/

variable {Key Value : Type}

/-- The items of the two caches, the latest first. -/
structure Residents (Key Value : Type) where
  history : List (Item Key Value) := []
  buffer : List (Item Key Value) := []
deriving DecidableEq, Repr

namespace Residents

/-- The eviction of the oldest item of one cache. -/
def evict : List (Item Key Value) → Outcome (List (Item Key Value))
  | [] => .error .nullPointer
  | first :: rest => .ok (first :: rest).dropLast

theorem evict_concat (items : List (Item Key Value)) (last : Item Key Value) :
    evict (items ++ [last]) = .ok items := by
  cases items with
  | nil => rfl
  | cons first rest =>
      rw [List.cons_append, evict, ← List.cons_append, List.dropLast_concat]

variable [BEq Key] (residents : Residents Key Value)

def evictHistory (capacity : Nat) : Outcome (Residents Key Value) := do
  if sizeSub (sizeSub capacity residents.history.length) residents.buffer.length = 0 then
    return { residents with history := ← evict residents.history }
  else return residents

def evictBuffer (k : Nat) : Outcome (Residents Key Value) := do
  if sizeSub k residents.buffer.length = 0 then
    return { residents with buffer := ← evict residents.buffer }
  else return residents

def promote (hit : Item Key Value) : Residents Key Value :=
  { residents with buffer := hit :: residents.buffer.eraseP (·.key == hit.key) }

def move (hit : Item Key Value) : Residents Key Value where
  history := residents.history.eraseP (·.key == hit.key)
  buffer := hit :: residents.buffer

def put (capacity k : Nat) (item : Item Key Value) : Outcome (Residents Key Value) := do
  match residents.history.find? (·.key == item.key) with
  | some hit => return (← residents.evictBuffer k).move hit
  | none =>
      match residents.buffer.find? (·.key == item.key) with
      | some hit => return residents.promote hit
      | none =>
          let residents ← residents.evictHistory capacity
          return { residents with history := item :: residents.history }

def get (key : Key) : Residents Key Value × Option Value :=
  match residents.history.find? (·.key == key) with
  | some hit => (residents.move hit, some hit.value)
  | none =>
      match residents.buffer.find? (·.key == key) with
      | some hit => (residents.promote hit, some hit.value)
      | none => (residents, none)

def call (capacity k : Nat) : LruKCall Key Value → Outcome (Residents Key Value)
  | .put key value => residents.put capacity k { key, value }
  | .get key => .ok (residents.get key).1

end Residents

namespace LruK

/-- The cache with the given items at the given addresses. -/
structure Holds [BEq Key] (cache : LruK Key Value) (history buffer : List (Addr × Item Key Value)) : Prop where
  historyLinked : Linked cache.heap cache.history_cache_ cache.history_index_ history
  bufferLinked : Linked cache.heap cache.buffer_cache_ cache.buffer_index_ buffer
  addresses : ∀ address ∈ cache.history_cache_ :: history.map Prod.fst,
    address ∉ cache.buffer_cache_ :: buffer.map Prod.fst
  keys : ∀ first ∈ history, ∀ second ∈ buffer, (first.2.key == second.2.key) = false

variable [BEq Key] {cache : LruK Key Value} {history buffer before after : List (Addr × Item Key Value)}
  {entry : Addr × Item Key Value} {item : Item Key Value} {key : Key}

section

variable {heap : Items Key Value} {storage_ : Addr} {index : List Addr}

theorem popItem_nil (linked : Linked heap storage_ index []) :
    popItem heap storage_ index = .error .nullPointer := by
  simp only [popItem, popBack_nil linked.links, bind, Except.bind]

theorem popItem_eq [EquivBEq Key] (linked : Linked heap storage_ index (before ++ [entry])) :
    ∃ new, popItem heap storage_ index = .ok (new, index.erase entry.1) ∧
      Linked new storage_ (index.erase entry.1) before ∧
      Untouched heap new (storage_ :: (before ++ [entry]).map Prod.fst) := by
  obtain ⟨middle, left, popped, detached, links, indexes, untouched⟩ := linked.popBack_eq
  have outside := linked.outside_of_middle
  have inside : entry ∈ before ++ [entry] := List.mem_append_right before List.mem_cons_self
  rw [← List.append_nil before] at links
  obtain ⟨erased, linkedAfter⟩ := Linked.eraseAt_eq links indexes outside
  rw [List.append_nil] at linkedAfter
  refine ⟨_, ?_, linkedAfter, untouched.trans (untouched_free.mono ?_)⟩
  · simp only [popItem, popped, bind, Except.bind, detached, loadItem_of_itemAt (indexes.items entry inside),
      erase, indexes.find_some inside BEq.rfl, erased]
  · exact List.cons_subset.mpr
      ⟨List.mem_cons_of_mem _ (List.mem_map_of_mem inside), List.nil_subset _⟩

end

namespace Holds

theorem addresses_symm (holds : cache.Holds history buffer) :
    ∀ address ∈ cache.buffer_cache_ :: buffer.map Prod.fst,
      address ∉ cache.history_cache_ :: history.map Prod.fst :=
  fun address inBuffer inHistory => holds.addresses address inHistory inBuffer

variable [EquivBEq Key]

/-- The eviction of the oldest item of the history. -/
theorem popHistory (holds : cache.Holds (before ++ [entry]) buffer) :
    ∃ heap index, popItem cache.heap cache.history_cache_ cache.history_index_ = .ok (heap, index) ∧
      { cache with heap, history_index_ := index }.Holds before buffer := by
  obtain ⟨heap, popped, linked, untouched⟩ := popItem_eq holds.historyLinked
  have fewer : before ⊆ before ++ [entry] := List.subset_append_left before [entry]
  refine ⟨heap, _, popped, linked, holds.bufferLinked.congr untouched holds.addresses_symm, ?_, ?_⟩
  · exact fun address member =>
      holds.addresses address (List.cons_subset_cons _ (List.map_subset Prod.fst fewer) member)
  · exact fun first one => holds.keys first (fewer one)

/-- The eviction of the oldest item of the buffer. -/
theorem popBuffer (holds : cache.Holds history (before ++ [entry])) :
    ∃ heap index, popItem cache.heap cache.buffer_cache_ cache.buffer_index_ = .ok (heap, index) ∧
      { cache with heap, buffer_index_ := index }.Holds history before := by
  obtain ⟨heap, popped, linked, untouched⟩ := popItem_eq holds.bufferLinked
  have fewer : before ⊆ before ++ [entry] := List.subset_append_left before [entry]
  refine ⟨heap, _, popped, holds.historyLinked.congr untouched holds.addresses, linked, ?_, ?_⟩
  · exact fun address one two =>
      holds.addresses address one (List.cons_subset_cons _ (List.map_subset Prod.fst fewer) two)
  · exact fun first one second two => holds.keys first one second (fewer two)

theorem promote (holds : cache.Holds history (before ++ entry :: after)) :
    ∃ heap, cache.promote (some entry.1) = .ok { cache with heap } ∧
      { cache with heap }.Holds history (entry :: (before ++ after)) := by
  obtain ⟨middle, heap, detached, pushed, linked, untouched, _⟩ := holds.bufferLinked.promote_eq
  have same : (entry :: (before ++ after)).Perm (before ++ entry :: after) := List.perm_middle.symm
  refine ⟨heap, ?_, holds.historyLinked.congr untouched holds.addresses, linked, ?_, ?_⟩
  · simp only [LruK.promote, detached, bind, Except.bind, pushed]
    rfl
  · exact fun address one two => holds.addresses address one
      (List.cons_subset_cons _ (same.map Prod.fst).subset two)
  · exact fun first one second two => holds.keys first one second (same.subset two)

/-- A new item in the history. -/
theorem insert (holds : cache.Holds history buffer)
    (newInHistory : ∀ entry ∈ history, (entry.2.key == item.key) = false)
    (newInBuffer : ∀ entry ∈ buffer, (entry.2.key == item.key) = false) :
    ∃ heap, Cache.insert cache.heap cache.history_index_ item none none =
        (cache.heap.alloc { object := some item }, cache.heap.fresh :: cache.history_index_, cache.heap.fresh) ∧
      pushFront (cache.heap.alloc { object := some item }) cache.history_cache_ cache.heap.fresh = .ok heap ∧
      { cache with heap, history_index_ := cache.heap.fresh :: cache.history_index_ }.Holds
        ((cache.heap.fresh, item) :: history) buffer := by
  obtain ⟨heap, inserted, pushed, linked, untouched⟩ := holds.historyLinked.insert_front newInHistory
  have apart : ∀ address ∈ cache.history_cache_ :: ((cache.heap.fresh, item) :: history).map Prod.fst,
      address ∉ cache.buffer_cache_ :: buffer.map Prod.fst := by
    intro address member
    rw [List.map_cons, List.mem_cons, List.mem_cons] at member
    rcases member with rfl | rfl | member
    · exact holds.addresses _ List.mem_cons_self
    · exact fun inside => ne_fresh_of_links holds.bufferLinked.links inside rfl
    · exact holds.addresses _ (List.mem_cons_of_mem _ member)
  refine ⟨heap, inserted, pushed, linked, ?_, apart, ?_⟩
  · exact holds.bufferLinked.congr untouched fun address two one => apart address one two
  · intro first one second two
    rcases List.mem_cons.mp one with rfl | older
    · rw [BEq.comm]
      exact newInBuffer second two
    · exact holds.keys first older second two

/-- The move of an item from the history to the buffer, to a new address. -/
theorem move (holds : cache.Holds (before ++ entry :: after) buffer) :
    ∃ next address, cache.moveToBufferCacheWithPromote (some entry.1) = .ok (next, address) ∧
      next.Holds (before ++ after) ((address, entry.2) :: buffer) ∧
      next.capacity_ = cache.capacity_ ∧ next.k_ = cache.k_ := by
  obtain ⟨first, detached, links, indexes, ⟨nextCut, prevCut⟩, detachedUntouched, sameFresh⟩ :=
    holds.historyLinked.detach_eq
  have outside := holds.historyLinked.outside_of_middle
  have inside : entry ∈ before ++ entry :: after := List.mem_append_right before List.mem_cons_self
  have found := indexes.items entry inside
  obtain ⟨node, live, _⟩ := exists_of_itemAt found
  rw [nextOf_of_get live] at nextCut
  rw [prevOf_of_get live] at prevCut
  have apart : ∀ address ∈ cache.history_cache_ :: (before ++ entry :: after).map Prod.fst,
      address ∉ cache.buffer_cache_ :: ((first.fresh, entry.2) :: buffer).map Prod.fst := by
    intro address member
    rw [List.map_cons, List.mem_cons, List.mem_cons, not_or, not_or]
    have others := holds.addresses address member
    rw [List.mem_cons, not_or] at others
    exact ⟨others.1, sameFresh ▸ ne_fresh_of_links holds.historyLinked.links member, others.2⟩
  have fewer : (before ++ after) ⊆ before ++ entry :: after :=
    ((List.sublist_cons_self entry after).append_left before).subset
  have fewerAddresses := List.cons_subset_cons cache.history_cache_ (List.map_subset Prod.fst fewer)
  have addressIn : entry.1 ∈ cache.history_cache_ :: (before ++ entry :: after).map Prod.fst :=
    List.mem_cons_of_mem _ (List.mem_map_of_mem inside)
  have buffered := holds.bufferLinked.congr detachedUntouched holds.addresses_symm
  obtain ⟨second, inserted, pushed, linked, untouched⟩ := buffered.insert_front
    fun other member => BEq.comm.trans (holds.keys entry inside other member)
  have linksLater := untouched.links links fun address member => apart address (fewerAddresses member)
  have indexesLater := indexes.congr fun other member =>
    (untouched other.1 (apart other.1 (List.mem_cons_of_mem _ (List.mem_map_of_mem member)))).2.2
  obtain ⟨erased, historyLinked⟩ := Linked.eraseAt_eq linksLater indexesLater outside
  have bufferLinked : Linked (second.free entry.1) _ _ _ := linked.congr untouched_free fun address member same => by
    rw [List.mem_singleton.mp same] at member
    exact apart entry.1 addressIn member
  let next : LruK Key Value := { cache with
    heap := second.free entry.1
    buffer_index_ := first.fresh :: cache.buffer_index_
    history_index_ := cache.history_index_.erase entry.1 }
  refine ⟨next, first.fresh, ?_, ⟨historyLinked, bufferLinked, fun address member => ?_, ?_⟩, rfl, rfl⟩
  · simp only [moveToBufferCacheWithPromote, detached, bind, Except.bind, load_of_get live,
      loadItem_of_itemAt found, nextCut, prevCut, inserted, pushed, erased]
    rfl
  · exact apart address (fewerAddresses member)
  · intro one oneIn two twoIn
    rcases List.mem_cons.mp twoIn with rfl | older
    · have split := holds.historyLinked.indexes.reorder List.perm_middle
      rw [BEq.comm]
      exact List.rel_of_pairwise_cons split.keys oneIn
    · exact holds.keys one (fewer oneIn) two older

end Holds

/-- The items of the two caches without their addresses. -/
def itemsOf (history buffer : List (Addr × Item Key Value)) : Residents Key Value :=
  ⟨history.map Prod.snd, buffer.map Prod.snd⟩

structure Represents (capacity k : Nat) (cache : LruK Key Value) (residents : Residents Key Value) :
    Prop where
  capacity : cache.capacity_ = capacity
  limit : cache.k_ = k
  holds : ∃ history buffer, cache.Holds history buffer ∧ itemsOf history buffer = residents

/-- The cache ends like the policy. -/
def Follows (capacity k : Nat) (outcome : Outcome (LruK Key Value)) :
    Outcome (Residents Key Value) → Prop
  | .error reason => outcome = .error reason
  | .ok residents => ∃ cache, outcome = .ok cache ∧ Represents capacity k cache residents

theorem Holds.represents (holds : cache.Holds history buffer) :
    Represents cache.capacity_ cache.k_ cache (itemsOf history buffer) :=
  ⟨rfl, rfl, history, buffer, holds, rfl⟩

theorem popAtHistoryCacheWhileOverflow_cases [EquivBEq Key] (holds : cache.Holds history buffer) :
    (itemsOf history buffer).evictHistory cache.capacity_ = .error .nullPointer ∧
        cache.popAtHistoryCacheWhileOverflow = .error .nullPointer ∨
      ∃ next kept, (itemsOf history buffer).evictHistory cache.capacity_ = .ok (itemsOf kept buffer) ∧
        cache.popAtHistoryCacheWhileOverflow = .ok next ∧ next.Holds kept buffer ∧ kept ⊆ history ∧
        next.capacity_ = cache.capacity_ ∧ next.k_ = cache.k_ := by
  simp only [Residents.evictHistory, popAtHistoryCacheWhileOverflow, itemsOf, List.length_map,
    holds.historyLinked.indexes.length_eq, holds.bufferLinked.indexes.length_eq]
  split
  · rcases List.eq_nil_or_concat' history with rfl | ⟨kept, last, rfl⟩
    · left
      simp only [popItem_nil holds.historyLinked, bind, Except.bind, List.map_nil, Residents.evict, and_self]
    · right
      obtain ⟨heap, index, popped, next⟩ := holds.popHistory
      refine ⟨_, kept, ?_, ?_, next, List.subset_append_left kept [last], rfl, rfl⟩
      · simp only [List.map_append, List.map_singleton, Residents.evict_concat, bind, Except.bind]
        rfl
      · simp only [popped, bind, Except.bind]
        rfl
  · exact Or.inr ⟨cache, history, rfl, rfl, holds, List.Subset.refl history, rfl, rfl⟩

theorem popAtBufferCacheWhileOverflow_cases [EquivBEq Key] (holds : cache.Holds history buffer) :
    (itemsOf history buffer).evictBuffer cache.k_ = .error .nullPointer ∧
        cache.popAtBufferCacheWhileOverflow = .error .nullPointer ∨
      ∃ next kept, (itemsOf history buffer).evictBuffer cache.k_ = .ok (itemsOf history kept) ∧
        cache.popAtBufferCacheWhileOverflow = .ok next ∧ next.Holds history kept ∧
        next.capacity_ = cache.capacity_ ∧ next.k_ = cache.k_ := by
  simp only [Residents.evictBuffer, popAtBufferCacheWhileOverflow, itemsOf, List.length_map,
    holds.bufferLinked.indexes.length_eq]
  split
  · rcases List.eq_nil_or_concat' buffer with rfl | ⟨kept, last, rfl⟩
    · left
      simp only [popItem_nil holds.bufferLinked, bind, Except.bind, List.map_nil, Residents.evict, and_self]
    · right
      obtain ⟨heap, index, popped, next⟩ := holds.popBuffer
      refine ⟨_, kept, ?_, ?_, next, rfl, rfl⟩
      · simp only [List.map_append, List.map_singleton, Residents.evict_concat, bind, Except.bind]
        rfl
      · simp only [popped, bind, Except.bind]
        rfl
  · exact Or.inr ⟨cache, buffer, rfl, rfl, holds, rfl, rfl⟩

theorem insert_holds [EquivBEq Key] (holds : cache.Holds history buffer)
    (newInHistory : ∀ entry ∈ history, (entry.2.key == item.key) = false)
    (newInBuffer : ∀ entry ∈ buffer, (entry.2.key == item.key) = false) :
    ∃ next address, (do
        let (heap, history_index_, historyHit) := Cache.insert cache.heap cache.history_index_ item none none
        let heap ← pushFront heap cache.history_cache_ historyHit
        return { cache with heap, history_index_ } : Outcome (LruK Key Value)) = .ok next ∧
      next.Holds ((address, item) :: history) buffer ∧
      next.capacity_ = cache.capacity_ ∧ next.k_ = cache.k_ := by
  obtain ⟨heap, inserted, pushed, next⟩ := holds.insert newInHistory newInBuffer
  refine ⟨_, _, ?_, next, rfl, rfl⟩
  simp only [inserted, pushed, bind, Except.bind]
  rfl

theorem put_follows [EquivBEq Key] {capacity k : Nat} {residents : Residents Key Value}
    (represents : Represents capacity k cache residents) (key : Key) (value : Value) :
    Follows capacity k (cache.put key value) (residents.put capacity k { key, value }) := by
  obtain ⟨rfl, rfl, history, buffer, holds, rfl⟩ := represents
  rcases holds.historyLinked.indexes.lookup key with
    ⟨before, entry, after, rfl, hit, policyHit, rest⟩ | ⟨newInHistory, miss, policyMiss⟩
  · simp only [LruK.put, hit, Residents.put, itemsOf, policyHit]
    rcases popAtBufferCacheWhileOverflow_cases holds with
      ⟨policyStops, stops⟩ | ⟨popped, kept, policyPops, pops, poppedHolds, sameCapacity, sameLimit⟩
    · simp only [itemsOf] at policyStops
      simp only [policyStops, stops, bind, Except.bind, Follows]
    · obtain ⟨next, address, moved, nextHolds, nextCapacity, nextLimit⟩ := poppedHolds.move
      simp only [itemsOf] at policyPops
      simp only [policyPops, pops, moved, bind, Except.bind, Residents.move, rest, Follows]
      refine ⟨next, rfl, nextCapacity.trans sameCapacity, nextLimit.trans sameLimit, _, _, nextHolds, rfl⟩
  · rcases holds.bufferLinked.indexes.lookup key with
      ⟨before, entry, after, rfl, hit, policyHit, rest⟩ | ⟨newInBuffer, missAgain, policyMissAgain⟩
    · obtain ⟨heap, promoted, next⟩ := holds.promote
      simp only [LruK.put, miss, hit, promoted, Residents.put, itemsOf, policyMiss, policyHit,
        Residents.promote, rest]
      exact ⟨_, rfl, rfl, rfl, _, _, next, rfl⟩
    · simp only [LruK.put, miss, missAgain, Residents.put, itemsOf, policyMiss, policyMissAgain]
      rcases popAtHistoryCacheWhileOverflow_cases holds with
        ⟨policyStops, stops⟩ | ⟨popped, kept, policyPops, pops, poppedHolds, fewer, sameCapacity, sameLimit⟩
      · simp only [itemsOf] at policyStops
        simp only [policyStops, stops, bind, Except.bind, Follows]
      · obtain ⟨next, address, inserted, nextHolds, nextCapacity, nextLimit⟩ :=
          @insert_holds _ _ _ _ _ _ { key, value } _ poppedHolds
            (fun entry member => newInHistory entry (fewer member)) newInBuffer
        simp only [itemsOf] at policyPops
        simp only [bind, Except.bind] at inserted
        simp only [policyPops, pops, inserted, bind, Except.bind, Follows]
        refine ⟨next, rfl, nextCapacity.trans sameCapacity, nextLimit.trans sameLimit, _, _, nextHolds, rfl⟩

theorem get_follows [EquivBEq Key] {capacity k : Nat} {residents : Residents Key Value}
    (represents : Represents capacity k cache residents) (key : Key) :
    ∃ next, cache.get key = .ok (next, (residents.get key).2) ∧
      Represents capacity k next (residents.get key).1 := by
  obtain ⟨rfl, rfl, history, buffer, holds, rfl⟩ := represents
  rcases holds.historyLinked.indexes.lookup key with
    ⟨before, entry, after, rfl, hit, policyHit, rest⟩ | ⟨_, miss, policyMiss⟩
  · obtain ⟨next, address, moved, nextHolds, nextCapacity, nextLimit⟩ := holds.move
    have front := nextHolds.bufferLinked.indexes.items _ List.mem_cons_self
    simp only [LruK.get, hit, moved, bind, Except.bind, loadItem_of_itemAt front, Residents.get, itemsOf,
      policyHit, Residents.move, rest]
    exact ⟨next, rfl, nextCapacity, nextLimit, _, _, nextHolds, rfl⟩
  · rcases holds.bufferLinked.indexes.lookup key with
      ⟨before, entry, after, rfl, hit, policyHit, rest⟩ | ⟨_, missAgain, policyMissAgain⟩
    · obtain ⟨heap, promoted, next⟩ := holds.promote
      have front := next.bufferLinked.indexes.items _ List.mem_cons_self
      simp only [LruK.get, miss, hit, promoted, bind, Except.bind, loadItem_of_itemAt front, Residents.get,
        itemsOf, policyMiss, policyHit, Residents.promote, rest]
      exact ⟨_, rfl, rfl, rfl, _, _, next, rfl⟩
    · simp only [LruK.get, miss, missAgain, Residents.get, itemsOf, policyMiss, policyMissAgain]
      exact ⟨cache, rfl, rfl, rfl, _, _, holds, rfl⟩

/-- **The cache follows the policy**, call by call and fault by fault. -/
theorem call_follows [EquivBEq Key] {capacity k : Nat} {residents : Residents Key Value}
    (represents : Represents capacity k cache residents) (call : LruKCall Key Value) :
    Follows capacity k (cache.call call) (residents.call capacity k call) := by
  cases call with
  | put key value => exact put_follows represents key value
  | get key =>
      obtain ⟨next, got, nextRepresents⟩ := get_follows represents key
      refine ⟨next, ?_, nextRepresents⟩
      simp only [LruK.call, got, bind, Except.bind]
      rfl

theorem construct_represents (capacity k : Nat) :
    ∃ cache : LruK Key Value, construct capacity k = .ok cache ∧ Represents capacity k cache {} := by
  refine ⟨_, rfl, rfl, rfl, [], [], ⟨⟨?_, ?_⟩, ⟨?_, ?_⟩, ?_, nofun⟩, rfl⟩
  · exact Ring.nil rfl rfl
  · exact ⟨List.Perm.nil, nofun, List.Pairwise.nil⟩
  · exact Ring.nil rfl rfl
  · exact ⟨List.Perm.nil, nofun, List.Pairwise.nil⟩
  · simp

end LruK

end Dsac.Cache

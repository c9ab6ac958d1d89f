import Dsac.Cache.Lru
import Dsac.Cache.Index.Linked
import Dsac.Library.Recency

namespace Dsac.Cache

open Dsac.Library Dsac.Intrusive

/-! The abstract map of the `capacity` most recently used keys, and that `lru` is one. -/

variable {Key Value : Type}

/-- The items, the most recently used first, and the keys in the order of all uses so far. -/
structure LruMap (Key Value : Type) where
  items : List (Item Key Value) := []
  uses : List Key := []

variable [BEq Key]

namespace LruMap

def promote (map : LruMap Key Value) (hit : Item Key Value) (key : Key) : LruMap Key Value where
  items := hit :: map.items.eraseP (·.key == hit.key)
  uses := key :: map.uses

/-- A new key pushes the least recently used one out of a full map. -/
def put (capacity : Nat) (map : LruMap Key Value) (item : Item Key Value) : LruMap Key Value :=
  match map.items.find? (·.key == item.key) with
  | some hit => map.promote hit item.key
  | none =>
      { items := item :: if map.items.length = capacity then map.items.dropLast else map.items
        uses := item.key :: map.uses }

def get (map : LruMap Key Value) (key : Key) : LruMap Key Value × Option Value :=
  match map.items.find? (·.key == key) with
  | some hit => (map.promote hit key, some hit.value)
  | none => (map, none)

def call (capacity : Nat) (map : LruMap Key Value) : LruCall Key Value → LruMap Key Value × Option Value
  | .put key value => (map.put capacity { key, value }, none)
  | .get key => map.get key

/-- The keys of the map are the `capacity` most recently used ones. -/
def MostRecent (capacity : Nat) (map : LruMap Key Value) : Prop :=
  SameKeys (map.items.map (·.key)) ((recent map.uses).take capacity)

variable {capacity : Nat} {map : LruMap Key Value} {item hit : Item Key Value} {key : Key}

theorem MostRecent.empty (capacity : Nat) : ({} : LruMap Key Value).MostRecent capacity := by
  rw [MostRecent, recent, List.take_nil]
  exact .nil

theorem MostRecent.length_le (mostRecent : map.MostRecent capacity) : map.items.length ≤ capacity := by
  have length := mostRecent.length_eq
  rw [List.length_map, List.length_take] at length
  omega

theorem MostRecent.promote [EquivBEq Key] (mostRecent : map.MostRecent capacity)
    (found : map.items.find? (·.key == key) = some hit) : (map.promote hit key).MostRecent capacity := by
  obtain ⟨matched, before, after, split, absent⟩ := List.find?_eq_some_iff_append.mp found
  rw [MostRecent, split, List.map_append, List.map_cons] at mostRecent
  have earlier : ∀ item ∈ before, ¬ (item.key == hit.key) = true := by
    intro item member same
    have apart := absent item member
    rw [BEq.congr_right matched] at same
    simp [same] at apart
  have here : (hit.key == hit.key) = true := BEq.rfl
  have erased : map.items.eraseP (·.key == hit.key) = before ++ after := by
    rw [split, List.eraseP_append_right _ earlier, List.eraseP_cons, here, cond_true]
  rw [MostRecent, LruMap.promote, erased, List.map_cons, List.map_append]
  exact recent_hit mostRecent matched

omit [BEq Key] in
theorem kept_eq_take {items : List (Item Key Value)} (bounded : items.length ≤ capacity) (positive : 1 ≤ capacity) :
    (if items.length = capacity then items.dropLast else items) = items.take (capacity - 1) := by
  split
  next full => rw [List.dropLast_eq_take, full]
  next room => rw [List.take_of_length_le (by omega)]

theorem MostRecent.put [EquivBEq Key] (mostRecent : map.MostRecent capacity) (positive : 1 ≤ capacity)
    (item : Item Key Value) : (map.put capacity item).MostRecent capacity := by
  cases found : map.items.find? (·.key == item.key) with
  | some hit =>
      rw [LruMap.put, found]
      exact mostRecent.promote found
  | none =>
      simp only [LruMap.put, found]
      rw [MostRecent, kept_eq_take mostRecent.length_le positive, List.map_cons, List.map_take]
      apply recent_miss positive mostRecent
      intro key member
      obtain ⟨item, inside, rfl⟩ := List.mem_map.mp member
      simpa using List.find?_eq_none.mp found item inside

theorem MostRecent.call [EquivBEq Key] (mostRecent : map.MostRecent capacity) (positive : 1 ≤ capacity)
    (call : LruCall Key Value) : (map.call capacity call).1.MostRecent capacity := by
  cases call with
  | put key value => exact mostRecent.put positive { key, value }
  | get key =>
      cases found : map.items.find? (·.key == key) with
      | some hit =>
          simp only [LruMap.call, get, found]
          exact mostRecent.promote found
      | none =>
          simp only [LruMap.call, get, found]
          exact mostRecent

end LruMap

namespace Lru

/-- The list links every item of the index once, in the order of the map. -/
structure Represents (capacity : Nat) (cache : Lru Key Value) (map : LruMap Key Value) : Prop where
  capacity : cache.capacity_ = capacity
  linked : ∃ entries, Linked cache.heap cache.cache_ cache.index_ entries ∧ entries.map Prod.snd = map.items

variable {capacity : Nat} {cache : Lru Key Value} {map : LruMap Key Value}
  {entries before after : List (Addr × Item Key Value)} {entry : Addr × Item Key Value} {item : Item Key Value}

theorem construct_represents (capacity : Nat) :
    ∃ cache : Lru Key Value, construct capacity = .ok cache ∧ Represents capacity cache {} := by
  refine ⟨_, rfl, rfl, [], ⟨?_, ?_⟩, rfl⟩
  · exact Ring.nil rfl rfl
  · exact ⟨List.Perm.nil, nofun, List.Pairwise.nil⟩

variable [EquivBEq Key]

theorem evict_eq (linked : Linked cache.heap cache.cache_ cache.index_ (before ++ [entry])) :
    ∃ heap index, cache.evict = .ok { cache with heap, index_ := index } ∧
      Linked heap cache.cache_ index before := by
  obtain ⟨middle, popped, links, indexes, _, _⟩ := linked.popBack_cut
  have inside : entry ∈ before ++ [entry] := by simp
  rw [← List.append_nil before] at links
  obtain ⟨erased, left⟩ := Linked.eraseAt_eq links indexes linked.outside_of_middle
  rw [List.append_nil] at left
  refine ⟨_, _, ?_, left⟩
  simp only [evict, popped, bind, Except.bind, loadItem_of_itemAt (indexes.items entry inside),
    indexes.find_some inside BEq.rfl, erased]
  rfl

/-- What the eviction before an insertion leaves. -/
theorem evictWhenFull_eq (linked : Linked cache.heap cache.cache_ cache.index_ entries) (positive : 1 ≤ cache.capacity_) :
    ∃ heap index kept, cache.evictWhenFull =
        .ok { cache with heap, index_ := index } ∧ Linked heap cache.cache_ index kept ∧ kept ⊆ entries ∧
      kept.map Prod.snd = if (entries.map Prod.snd).length = cache.capacity_ then (entries.map Prod.snd).dropLast
        else entries.map Prod.snd := by
  rw [evictWhenFull, size, linked.indexes.length_eq, List.length_map]
  by_cases full : entries.length = cache.capacity_
  · rw [if_pos full, if_pos full]
    rcases List.eq_nil_or_concat' entries with rfl | ⟨kept, last, rfl⟩
    · rw [List.length_nil] at full
      omega
    · obtain ⟨heap, index, evicted, left⟩ := evict_eq linked
      refine ⟨heap, index, kept, evicted, left, List.subset_append_left kept [last], ?_⟩
      rw [List.map_append, List.map_singleton, List.dropLast_concat]
  · rw [if_neg full, if_neg full]
    exact ⟨cache.heap, cache.index_, entries, rfl, linked, List.Subset.refl entries, rfl⟩

theorem promote_eq (linked : Linked cache.heap cache.cache_ cache.index_ (before ++ entry :: after)) :
    ∃ heap, cache.promote entry.1 = .ok { cache with heap } ∧
      Linked heap cache.cache_ cache.index_ (entry :: (before ++ after)) := by
  obtain ⟨middle, heap, detached, pushed, front, _, _⟩ := linked.promote_eq
  refine ⟨heap, ?_, front⟩
  simp only [promote, detached, bind, Except.bind, pushed]
  rfl

theorem put_follows (represents : Represents capacity cache map) (positive : 1 ≤ capacity) (key : Key)
    (value : Value) : ∃ next, cache.put key value = .ok next ∧
      Represents capacity next (map.put capacity { key, value }) := by
  obtain ⟨rfl, entries, linked, items⟩ := represents
  rcases linked.indexes.lookup key with
    ⟨before, entry, after, rfl, hit, mapHit, rest⟩ | ⟨absent, miss, mapMiss⟩
  · obtain ⟨heap, promoted, front⟩ := promote_eq linked
    rw [items] at mapHit rest
    refine ⟨{ cache with heap }, ?_, rfl, _, front, ?_⟩
    · simp only [put, hit]
      exact promoted
    · simp only [LruMap.put, mapHit, LruMap.promote, rest]
      rfl
  · obtain ⟨heap, index, kept, evicted, left, fewer, keptItems⟩ := evictWhenFull_eq linked positive
    have absentKept : ∀ entry ∈ kept, (entry.2.key == key) = false :=
      fun entry member => absent entry (fewer member)
    obtain ⟨pushedHeap, inserted, pushed, front, _⟩ := @Linked.insert_front _ _ _ _ _ _ _ { key, value } _ left absentKept
    rw [items] at mapMiss keptItems
    refine ⟨{ cache with heap := pushedHeap, index_ := heap.fresh :: index }, ?_, rfl, _, front, ?_⟩
    · simp only [put, miss, evicted, bind, Except.bind, inserted, pushed]
      rfl
    · simp only [LruMap.put, mapMiss]
      rw [List.map_cons, keptItems]

theorem get_follows (represents : Represents capacity cache map) (key : Key) :
    ∃ next, cache.get key = .ok (next, (map.get key).2) ∧ Represents capacity next (map.get key).1 := by
  obtain ⟨rfl, entries, linked, items⟩ := represents
  rcases linked.indexes.lookup key with
    ⟨before, entry, after, rfl, hit, mapHit, rest⟩ | ⟨_, miss, mapMiss⟩
  · obtain ⟨heap, promoted, front⟩ := promote_eq linked
    have found := front.indexes.items _ List.mem_cons_self
    rw [items] at mapHit rest
    refine ⟨{ cache with heap }, ?_, ?_⟩
    · simp only [get, hit, promoted, bind, Except.bind, loadItem_of_itemAt found, LruMap.get, mapHit]
      rfl
    · refine ⟨rfl, _, front, ?_⟩
      simp only [LruMap.get, mapHit, LruMap.promote, rest]
      rfl
  · rw [items] at mapMiss
    simp only [get, miss, LruMap.get, mapMiss]
    exact ⟨cache, rfl, rfl, entries, linked, items⟩

theorem call_follows (represents : Represents capacity cache map) (positive : 1 ≤ capacity)
    (call : LruCall Key Value) :
    ∃ next, cache.call call = .ok (next, (map.call capacity call).2) ∧
      Represents capacity next (map.call capacity call).1 := by
  cases call with
  | put key value =>
      obtain ⟨next, done, nextRepresents⟩ := put_follows represents positive key value
      refine ⟨next, ?_, nextRepresents⟩
      simp only [Lru.call, done, bind, Except.bind]
      rfl
  | get key => exact get_follows represents key

omit [EquivBEq Key] in
/-- Call by call the cache returns what the map returns, and holds what the map holds: the
most recently used keys. -/
def Conforms (capacity : Nat) : LruMap Key Value → Lru Key Value → List (LruCall Key Value) → Prop
  | map, cache, [] => Represents capacity cache map ∧ map.MostRecent capacity
  | map, cache, call :: calls =>
      (Represents capacity cache map ∧ map.MostRecent capacity) ∧
        ∃ next, cache.call call = .ok (next, (map.call capacity call).2) ∧
          Conforms capacity (map.call capacity call).1 next calls

theorem Represents.conforms (represents : Represents capacity cache map) (mostRecent : map.MostRecent capacity)
    (positive : 1 ≤ capacity) (calls : List (LruCall Key Value)) : Conforms capacity map cache calls := by
  induction calls generalizing map cache with
  | nil => exact ⟨represents, mostRecent⟩
  | cons call calls ih =>
      obtain ⟨next, called, nextRepresents⟩ := call_follows represents positive call
      exact ⟨⟨represents, mostRecent⟩, next, called, ih nextRepresents (mostRecent.call positive call)⟩

/-- **`lru` is the abstract map.** -/
theorem calls_follow_map (positive : 1 ≤ capacity) (calls : List (LruCall Key Value)) :
    ∃ cache, construct capacity = .ok cache ∧ Conforms capacity {} cache calls := by
  obtain ⟨cache, constructed, represents⟩ := @construct_represents Key Value _ capacity
  exact ⟨cache, constructed, represents.conforms (.empty capacity) positive calls⟩

theorem calls_follow_map_eviction : ∃ cache, construct 2 = .ok cache ∧
    Conforms 2 {} cache [LruCall.put 1 10, .put 2 20, .get 1, .put 3 30, .get 2, .put 1 11] :=
  calls_follow_map (by decide) _

end Lru

end Dsac.Cache

import Dsac.Cache.LruK.Policy

namespace Dsac.Cache

open Dsac.Library Dsac.Intrusive

/-! When the two caches of `lru_k` stay within their bounds. -/

variable {Key Value : Type}

/-- `left - right` is exact when it does not wrap. -/
theorem sizeSub_eq {left right : Nat} (bounded : left < sizeRange) (ordered : right ≤ left) :
    sizeSub left right = left - right := by
  have shifted : left + (sizeRange - right) = left - right + sizeRange := by omega
  rw [sizeSub, Nat.mod_eq_of_lt (Nat.lt_of_le_of_lt ordered bounded), shifted, Nat.add_mod_right,
    Nat.mod_eq_of_lt (by omega)]

namespace Residents

structure Within (capacity k : Nat) (residents : Residents Key Value) : Prop where
  buffer : residents.buffer.length ≤ k
  total : residents.history.length + residents.buffer.length ≤ capacity

variable {capacity k : Nat} {residents : Residents Key Value} {item : Item Key Value} {key : Key}

theorem evict_length {items : List (Item Key Value)} (some : 0 < items.length) :
    ∃ left, evict items = .ok left ∧ left.length + 1 = items.length := by
  cases items with
  | nil => cases some
  | cons first rest => exact ⟨_, rfl, by simp⟩

theorem evictBuffer_within (positive : 1 ≤ k) (bounded : k < sizeRange)
    (within : residents.Within capacity k) :
    ∃ buffer, residents.evictBuffer k = .ok { residents with buffer } ∧ buffer.length < k ∧
      buffer.length ≤ residents.buffer.length := by
  have full := sizeSub_eq bounded within.buffer
  have limit := within.buffer
  by_cases overflow : sizeSub k residents.buffer.length = 0
  · obtain ⟨left, evicted, shorter⟩ := evict_length (show 0 < residents.buffer.length by omega)
    refine ⟨left, ?_, by omega, by omega⟩
    simp only [evictBuffer, if_pos overflow, evicted, bind, Except.bind]
    rfl
  · refine ⟨residents.buffer, ?_, by omega, Nat.le_refl _⟩
    rw [evictBuffer, if_neg overflow]
    rfl

theorem evictHistory_within (below : k < capacity) (bounded : capacity < sizeRange)
    (within : residents.Within capacity k) :
    ∃ history, residents.evictHistory capacity = .ok { residents with history } ∧
      history.length + residents.buffer.length < capacity := by
  have limit := within.buffer
  have total := within.total
  have outer := sizeSub_eq bounded (show residents.history.length ≤ capacity by omega)
  have inner : sizeSub (capacity - residents.history.length) residents.buffer.length =
      capacity - residents.history.length - residents.buffer.length :=
    sizeSub_eq (by omega) (by omega)
  rw [← outer] at inner
  by_cases overflow : sizeSub (sizeSub capacity residents.history.length) residents.buffer.length = 0
  · obtain ⟨left, evicted, shorter⟩ := evict_length (show 0 < residents.history.length by omega)
    refine ⟨left, ?_, by omega⟩
    simp only [evictHistory, if_pos overflow, evicted, bind, Except.bind]
    rfl
  · refine ⟨residents.history, ?_, by omega⟩
    rw [evictHistory, if_neg overflow]
    rfl

variable [BEq Key]

theorem get_overfull (hit : residents.history.find? (·.key == key) ≠ none)
    (full : k ≤ residents.buffer.length) : k < (residents.get key).1.buffer.length := by
  obtain ⟨item, inHistory⟩ := Option.ne_none_iff_exists'.mp hit
  simp only [get, inHistory, move, List.length_cons]
  omega

variable [EquivBEq Key]

theorem length_eraseP_of_find {items : List (Item Key Value)} {hit : Item Key Value}
    (found : items.find? (·.key == key) = some hit) :
    (items.eraseP (·.key == hit.key)).length + 1 = items.length := by
  have member := List.mem_of_find?_eq_some found
  have here : (hit.key == hit.key) = true := BEq.rfl
  have shorter := List.length_eraseP_of_mem (p := fun item : Item Key Value => item.key == hit.key) member here
  have some := List.length_pos_of_mem member
  omega

theorem put_within (positive : 1 ≤ k) (below : k < capacity) (bounded : capacity < sizeRange)
    (within : residents.Within capacity k) (item : Item Key Value) :
    ∃ after, residents.put capacity k item = .ok after ∧ after.Within capacity k := by
  have limit := within.buffer
  have total := within.total
  cases inHistory : residents.history.find? (·.key == item.key) with
  | some hit =>
      obtain ⟨buffer, evicted, room, fewer⟩ :=
        evictBuffer_within positive (by omega) within
      have shorter := length_eraseP_of_find inHistory
      refine ⟨_, by simp only [put, inHistory, evicted, bind, Except.bind]; rfl, ?_, ?_⟩
      · simp only [move, List.length_cons]
        omega
      · simp only [move, List.length_cons]
        omega
  | none =>
      cases inBuffer : residents.buffer.find? (·.key == item.key) with
      | some hit =>
          have shorter := length_eraseP_of_find inBuffer
          refine ⟨_, by simp only [put, inHistory, inBuffer]; rfl, ?_, ?_⟩
          · simp only [promote, List.length_cons]
            omega
          · simp only [promote, List.length_cons]
            omega
      | none =>
          obtain ⟨history, evicted, room⟩ := evictHistory_within below bounded within
          refine ⟨{ residents with history := item :: history }, ?_, limit, ?_⟩
          · simp only [put, inHistory, inBuffer, evicted, bind, Except.bind]
            rfl
          · simp only [List.length_cons]
            omega

/-- A `get` moves a key without an eviction. -/
theorem get_within (within : residents.Within capacity k)
    (room : residents.history.find? (·.key == key) ≠ none → residents.buffer.length < k) :
    (residents.get key).1.Within capacity k := by
  have limit := within.buffer
  have total := within.total
  cases inHistory : residents.history.find? (·.key == key) with
  | some hit =>
      have room := room (by rw [inHistory]; nofun)
      have shorter := length_eraseP_of_find inHistory
      simp only [get, inHistory, move]
      refine ⟨?_, ?_⟩
      · simp only [List.length_cons]
        omega
      · simp only [List.length_cons]
        omega
  | none =>
      cases inBuffer : residents.buffer.find? (·.key == key) with
      | some hit =>
          have shorter := length_eraseP_of_find inBuffer
          simp only [get, inHistory, inBuffer, promote]
          refine ⟨?_, ?_⟩
          · simp only [List.length_cons]
            omega
          · simp only [List.length_cons]
            omega
      | none => simpa only [get, inHistory, inBuffer] using within

end Residents

namespace LruK

variable [BEq Key] {capacity k : Nat}

/-- The bounds on the two caches. -/
structure Within (capacity k : Nat) (cache : LruK Key Value) : Prop where
  buffer : cache.buffer_index_.length ≤ k
  total : cache.size ≤ capacity

/-- A `get` that hits the history finds room in the buffer. -/
def Roomy (cache : LruK Key Value) : LruKCall Key Value → Prop
  | .put _ _ => True
  | .get key => find cache.heap cache.history_index_ key ≠ none → cache.buffer_index_.length < cache.k_

instance (cache : LruK Key Value) (call : LruKCall Key Value) : Decidable (cache.Roomy call) := by
  unfold Roomy
  split <;> infer_instance

/-- The condition on a sequence of calls on a new cache. -/
def RoomyCalls (capacity k : Nat) (calls : List (LruKCall Key Value)) : Prop :=
  ∀ cache, construct capacity k = .ok cache → Meets LruK.call Roomy cache calls

theorem Represents.within_iff {cache : LruK Key Value} {residents : Residents Key Value}
    (represents : Represents capacity k cache residents) :
    cache.Within capacity k ↔ residents.Within capacity k := by
  obtain ⟨_, _, history, buffer, holds, rfl⟩ := represents
  have historySize := holds.historyLinked.indexes.length_eq
  have bufferSize := holds.bufferLinked.indexes.length_eq
  constructor
  · rintro ⟨limit, total⟩
    rw [size] at total
    exact ⟨by simpa only [itemsOf, List.length_map, ← bufferSize] using limit,
      by simpa only [itemsOf, List.length_map, ← bufferSize, ← historySize] using total⟩
  · rintro ⟨limit, total⟩
    simp only [itemsOf, List.length_map, ← bufferSize, ← historySize] at limit total
    exact ⟨limit, total⟩

variable [EquivBEq Key]

theorem Represents.roomy_get_iff {cache : LruK Key Value} {residents : Residents Key Value}
    (represents : Represents capacity k cache residents) (key : Key) :
    cache.Roomy (.get key) ↔
      (residents.history.find? (·.key == key) ≠ none → residents.buffer.length < k) := by
  obtain ⟨_, rfl, history, buffer, holds, rfl⟩ := represents
  have bufferSize := holds.bufferLinked.indexes.length_eq
  rw [Roomy, itemsOf, List.length_map, bufferSize]
  rcases holds.historyLinked.indexes.lookup key with ⟨_, _, _, _, hit, policyHit, _⟩ | ⟨_, miss, policyMiss⟩
  · rw [hit, policyHit]
    simp
  · rw [miss, policyMiss]
    simp

theorem call_within (positive : 1 ≤ k) (below : k < capacity) (bounded : capacity < sizeRange)
    {cache : LruK Key Value} {residents : Residents Key Value}
    (represents : Represents capacity k cache residents) (within : residents.Within capacity k)
    (call : LruKCall Key Value) (roomy : cache.Roomy call) :
    ∃ next, cache.call call = .ok next ∧
      ∃ after, Represents capacity k next after ∧ after.Within capacity k := by
  cases call with
  | put key value =>
      obtain ⟨after, stepped, afterWithin⟩ := Residents.put_within positive below bounded within ⟨key, value⟩
      have follows := put_follows represents key value
      rw [stepped] at follows
      obtain ⟨next, called, nextRepresents⟩ := follows
      exact ⟨next, called, after, nextRepresents, afterWithin⟩
  | get key =>
      have follows := call_follows represents (.get key)
      obtain ⟨next, called, nextRepresents⟩ := follows
      have room := (represents.roomy_get_iff key).mp roomy
      exact ⟨next, called, _, nextRepresents, Residents.get_within within room⟩

theorem call_overfull {cache next : LruK Key Value} {residents : Residents Key Value}
    (represents : Represents capacity k cache residents) {call : LruKCall Key Value}
    (crowded : ¬ cache.Roomy call) (called : cache.call call = .ok next) : ¬ next.Within capacity k := by
  cases call with
  | put key value => exact absurd trivial crowded
  | get key =>
      rw [represents.roomy_get_iff key, Classical.not_imp, Nat.not_lt] at crowded
      have follows := call_follows represents (.get key)
      obtain ⟨after, calledAgain, afterRepresents⟩ := follows
      cases called.symm.trans calledAgain
      rw [afterRepresents.within_iff]
      intro within
      have limit := within.buffer
      have full := Residents.get_overfull crowded.1 crowded.2
      omega

/-- **The bounds of `lru_k`.** After every call the buffer holds at most `k` items and both
caches at most `capacity`, and no call dereferences null, if and only if every `get` that hits
the history finds room in the buffer. -/
theorem calls_within_iff (positive : 1 ≤ k) (below : k < capacity) (bounded : capacity < sizeRange)
    (calls : List (LruKCall Key Value)) :
    (∀ first rest, calls = first ++ rest →
        ∃ cache, LruK.calls capacity k first = .ok cache ∧ cache.Within capacity k) ↔
      RoomyCalls capacity k calls := by
  obtain ⟨start, constructed, represents⟩ := @construct_represents Key Value _ capacity k
  have empty : ({} : Residents Key Value).Within capacity k := ⟨Nat.zero_le _, Nat.zero_le _⟩
  have same : RoomyCalls capacity k calls ↔ Meets LruK.call Roomy start calls :=
    ⟨fun roomy => roomy start constructed, fun meets cache other => by
      cases constructed.symm.trans other
      exact meets⟩
  rw [same]
  simp only [LruK.calls, constructed, bind, Except.bind]
  refine run_prefixes_iff LruK.call (fun cache => ∃ residents,
    Represents capacity k cache residents ∧ residents.Within capacity k) ?_ ?_ ?_ ⟨{}, represents, empty⟩ calls
  · rintro cache ⟨residents, represents, within⟩
    exact represents.within_iff.mpr within
  · rintro cache call ⟨residents, represents, within⟩ roomy
    exact call_within positive below bounded represents within call roomy
  · rintro cache call next ⟨residents, represents, _⟩ crowded called
    exact call_overfull represents crowded called

/-- Gets that hit the history while the buffer is not full. -/
theorem calls_within_iff_roomy :
    ∃ cache, (LruK.calls 3 1 [.put 1 1, .put 2 2, .get 1, .put 3 3, .put 2 2, .put 4 4] :
      Outcome (LruK Nat Nat)) = .ok cache ∧ cache.Within 3 1 := by
  have roomy : RoomyCalls 3 1
      [LruKCall.put 1 1, .put 2 2, .get 1, .put 3 3, .put 2 2, .put 4 4] := by
    intro cache constructed
    cases constructed
    decide +kernel
  exact (calls_within_iff (by decide) (by decide) (by decide) _).mpr roomy _ [] (List.append_nil _).symm

/-- With capacity 3 and k = 1, two gets leave two items in the buffer; after a third the next
new key finds the history empty. -/
theorem calls_outgrow_buffer :
    (∃ cache, (LruK.calls 3 1 [.put 1 1, .get 1, .put 2 2, .get 2] : Outcome (LruK Nat Nat)) = .ok cache ∧
        ¬ cache.Within 3 1) ∧
      (LruK.calls 3 1 [.put 1 1, .get 1, .put 2 2, .get 2, .put 3 3, .get 3, .put 4 4] :
        Outcome (LruK Nat Nat)) = .error .nullPointer := by
  refine ⟨⟨_, rfl, fun within => ?_⟩, rfl⟩
  exact absurd within.buffer (by decide)

end LruK

end Dsac.Cache

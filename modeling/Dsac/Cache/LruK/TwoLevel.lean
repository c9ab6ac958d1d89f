import Dsac.Cache.LruK.Bounds

namespace Dsac.Cache

open Dsac.Library Dsac.Intrusive

/-! The two-level policy for keys, and that `lru_k` follows it in every sequence of puts. -/

variable {Key Value : Type}

/-- The keys of the two levels: the history by age and the buffer by the last put, the latest
first. -/
structure TwoLevel (Key : Type) where
  history : List Key := []
  buffer : List Key := []
deriving DecidableEq, Repr

namespace TwoLevel

variable [BEq Key]

def put (capacity k : Nat) (levels : TwoLevel Key) (key : Key) : TwoLevel Key :=
  match levels.history.find? (· == key) with
  | some known =>
      { history := levels.history.eraseP (· == key)
        buffer := known :: if levels.buffer.length = k then levels.buffer.dropLast else levels.buffer }
  | none =>
      match levels.buffer.find? (· == key) with
      | some known => { levels with buffer := known :: levels.buffer.eraseP (· == key) }
      | none =>
          { levels with history := key ::
              if levels.history.length + levels.buffer.length = capacity then levels.history.dropLast
              else levels.history }

/-- The keys after some puts on an empty cache. -/
def puts (capacity k : Nat) (keys : List Key) : TwoLevel Key := keys.foldl (put capacity k) {}

def retains (levels : TwoLevel Key) (key : Key) : Bool :=
  levels.history.any (· == key) || levels.buffer.any (· == key)

end TwoLevel

namespace Residents

/-- The keys of the items. -/
def levels (residents : Residents Key Value) : TwoLevel Key :=
  ⟨residents.history.map (·.key), residents.buffer.map (·.key)⟩

variable {capacity k : Nat} {residents : Residents Key Value}

theorem evict_map {items left : List (Item Key Value)} (evicted : evict items = .ok left) : left = items.dropLast := by
  cases items with
  | nil => cases evicted
  | cons first rest =>
      cases evicted
      rfl

/-- The buffer loses its oldest item exactly when it holds `k`. -/
theorem evictBuffer_eq (bounded : k < sizeRange) (within : residents.Within capacity k) {after : Residents Key Value}
    (evicted : residents.evictBuffer k = .ok after) : after = { residents with
      buffer := if residents.buffer.length = k then residents.buffer.dropLast else residents.buffer } := by
  have limit := within.buffer
  have exact_ : sizeSub k residents.buffer.length = 0 ↔ residents.buffer.length = k := by
    rw [sizeSub_eq bounded limit]
    omega
  rw [evictBuffer] at evicted
  by_cases full : residents.buffer.length = k
  · rw [if_pos (exact_.mpr full)] at evicted
    obtain ⟨left, popped, evicted⟩ := Outcome.of_bind evicted
    cases evicted
    rw [if_pos full, evict_map popped]
  · rw [if_neg (mt exact_.mp full)] at evicted
    cases evicted
    rw [if_neg full]

/-- The history loses its oldest item exactly when `capacity` items are resident. -/
theorem evictHistory_eq (bounded : capacity < sizeRange) (within : residents.Within capacity k)
    {after : Residents Key Value} (evicted : residents.evictHistory capacity = .ok after) :
    after = { residents with
      history := if residents.history.length + residents.buffer.length = capacity then residents.history.dropLast
        else residents.history } := by
  have total := within.total
  have exact_ : sizeSub (sizeSub capacity residents.history.length) residents.buffer.length = 0 ↔
      residents.history.length + residents.buffer.length = capacity := by
    rw [sizeSub_eq bounded (show residents.history.length ≤ capacity by omega), sizeSub_eq (by omega) (by omega)]
    omega
  rw [evictHistory] at evicted
  by_cases full : residents.history.length + residents.buffer.length = capacity
  · rw [if_pos (exact_.mpr full)] at evicted
    obtain ⟨left, popped, evicted⟩ := Outcome.of_bind evicted
    cases evicted
    rw [if_pos full, evict_map popped]
  · rw [if_neg (mt exact_.mp full)] at evicted
    cases evicted
    rw [if_neg full]

variable [BEq Key]

theorem find?_levels (items : List (Item Key Value)) (key : Key) :
    (items.map (·.key)).find? (· == key) = (items.find? (·.key == key)).map (·.key) := by
  rw [List.find?_map]
  rfl

/-- An item is retained exactly when a `get` finds it. -/
theorem isSome_get (key : Key) : (residents.get key).2.isSome = residents.levels.retains key := by
  have any : ∀ items : List (Item Key Value),
      (items.map (·.key)).any (· == key) = (items.find? (·.key == key)).isSome := by
    intro items
    rw [List.any_map, List.isSome_find?]
    rfl
  rw [TwoLevel.retains, levels, any, any, get]
  cases residents.history.find? (·.key == key) with
  | some hit => rfl
  | none => cases residents.buffer.find? (·.key == key) <;> rfl

variable [EquivBEq Key]

theorem eraseP_levels {items : List (Item Key Value)} {hit : Item Key Value} {key : Key}
    (found : items.find? (·.key == key) = some hit) :
    (items.eraseP (·.key == hit.key)).map (·.key) = (items.map (·.key)).eraseP (· == key) := by
  have matched := List.find?_some found
  have same : (fun item : Item Key Value => item.key == hit.key) = (· == key) ∘ (·.key) := by
    funext item
    exact BEq.congr_right (show (hit.key == key) = true from matched)
  rw [List.eraseP_map, same]

/-- **A put follows the policy.** -/
theorem put_levels (bounded : capacity < sizeRange) (limit : k < sizeRange) (within : residents.Within capacity k)
    {item : Item Key Value} {after : Residents Key Value} (putIs : residents.put capacity k item = .ok after) :
    after.levels = residents.levels.put capacity k item.key := by
  rw [put] at putIs
  rw [TwoLevel.put]
  simp only [levels, find?_levels, List.length_map]
  cases inHistory : residents.history.find? (·.key == item.key) with
  | some hit =>
      simp only [inHistory] at putIs
      obtain ⟨roomy, evicted, putIs⟩ := Outcome.of_bind putIs
      cases putIs
      rw [evictBuffer_eq limit within evicted]
      simp only [move, Option.map_some, eraseP_levels inHistory, List.map_cons]
      split <;> simp
  | none =>
      simp only [inHistory] at putIs
      cases inBuffer : residents.buffer.find? (·.key == item.key) with
      | some hit =>
          simp only [inBuffer] at putIs
          cases putIs
          simp only [promote, Option.map_none, Option.map_some, eraseP_levels inBuffer, List.map_cons]
      | none =>
          simp only [inBuffer] at putIs
          obtain ⟨roomy, evicted, putIs⟩ := Outcome.of_bind putIs
          cases putIs
          rw [evictHistory_eq bounded within evicted]
          simp only [Option.map_none, List.map_cons]
          split <;> simp

end Residents

namespace LruK

variable [BEq Key] [EquivBEq Key] {capacity k : Nat}

theorem puts_follow (positive : 1 ≤ k) (below : k < capacity) (bounded : capacity < sizeRange)
    {cache : LruK Key Value} {residents : Residents Key Value} (represents : Represents capacity k cache residents)
    (within : residents.Within capacity k) (puts : List (Key × Value)) :
    ∃ next after, run LruK.call cache (puts.map fun put => .put put.1 put.2) = .ok next ∧
      Represents capacity k next after ∧
      after.levels = (puts.map Prod.fst).foldl (TwoLevel.put capacity k) residents.levels := by
  induction puts generalizing cache residents with
  | nil => exact ⟨cache, residents, rfl, represents, rfl⟩
  | cons put puts ih =>
      obtain ⟨key, value⟩ := put
      obtain ⟨middle, stepped, middleWithin⟩ := Residents.put_within positive below bounded within ⟨key, value⟩
      have follows := put_follows represents key value
      rw [stepped] at follows
      obtain ⟨called, calledIs, middleRepresents⟩ := follows
      obtain ⟨next, after, ran, nextRepresents, levels⟩ := ih middleRepresents middleWithin
      refine ⟨next, after, ?_, nextRepresents, ?_⟩
      · rw [List.map_cons, run, LruK.call, calledIs]
        exact ran
      · rw [levels, Residents.put_levels bounded (below.trans bounded) within stepped]
        rfl

/-- **`lru_k` is the two-level policy.** After every sequence of puts the lists hold the keys of
the two levels in their order, and exactly the retained keys are resident. -/
theorem puts_follow_policy (positive : 1 ≤ k) (below : k < capacity) (bounded : capacity < sizeRange)
    (puts : List (Key × Value)) :
    ∃ cache residents, LruK.calls capacity k (puts.map fun put => .put put.1 put.2) = .ok cache ∧
      Represents capacity k cache residents ∧
      residents.levels = TwoLevel.puts capacity k (puts.map Prod.fst) ∧
      ∀ key, ∃ next found, cache.get key = .ok (next, found) ∧
        found.isSome = (TwoLevel.puts capacity k (puts.map Prod.fst)).retains key := by
  obtain ⟨start, constructed, represents⟩ := @construct_represents Key Value _ capacity k
  have empty : ({} : Residents Key Value).Within capacity k := ⟨Nat.zero_le _, Nat.zero_le _⟩
  obtain ⟨cache, residents, ran, cacheRepresents, levels⟩ :=
    puts_follow positive below bounded represents empty puts
  refine ⟨cache, residents, ?_, cacheRepresents, levels, ?_⟩
  · rw [LruK.calls, constructed, Outcome.ok_bind]
    exact ran
  · intro key
    obtain ⟨next, got, _⟩ := get_follows cacheRepresents key
    refine ⟨next, _, got, ?_⟩
    rw [Residents.isSome_get, levels]
    rfl

/-- Puts that fill both levels, and evict from both. -/
theorem puts_follow_policy_mixed : ∃ (cache : LruK Nat Nat) (residents : Residents Nat Nat),
    LruK.calls 3 2 ([(1, 0), (2, 0), (3, 0), (1, 1), (2, 1), (3, 1), (2, 2), (4, 0), (5, 0)].map fun put =>
      .put put.1 put.2) = .ok cache ∧
      Represents 3 2 cache residents ∧ residents.levels = ⟨[5], [2, 3]⟩ ∧ ∃ next, cache.get 4 = .ok (next, none) := by
  obtain ⟨cache, residents, ran, represents, levels, retained⟩ := puts_follow_policy
    (show 1 ≤ 2 by decide) (show 2 < 3 by decide) (by decide)
    [(1, 0), (2, 0), (3, 0), (1, 1), (2, 1), (3, 1), (2, 2), (4, 0), (5, 0)]
  obtain ⟨next, found, got, absent⟩ := retained 4
  refine ⟨cache, residents, ran, represents, levels, next, ?_⟩
  have nothing : found = none := Option.not_isSome_iff_eq_none.mp (by rw [absent]; decide)
  rw [got, nothing]

end LruK

end Dsac.Cache

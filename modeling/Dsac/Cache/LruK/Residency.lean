import Dsac.Cache.LruK.Bounds

namespace Dsac.Cache

open Dsac.Library Dsac.Intrusive

/-! What every sequence of calls on `lru_k` keeps as long as it dereferences no null pointer. -/

variable {Key Value : Type}

namespace Residents

def items (residents : Residents Key Value) : List (Item Key Value) := residents.history ++ residents.buffer

variable [BEq Key]

/-- What a call does to the items. -/
structure Moves (capacity : Nat) (call : LruKCall Key Value) (before after : Residents Key Value) : Prop where
  /-- an item was there before, or its key is new -/
  source : ∀ item ∈ after.items, item ∈ before.items ∨
    call = .put item.key item.value ∧ ∀ other ∈ before.items, (other.key == item.key) = false
  total : before.items.length ≤ capacity → after.items.length ≤ capacity

/-- Two items of the cache have different keys. -/
def Distinct (residents : Residents Key Value) : Prop :=
  residents.items.Pairwise fun first second => (first.key == second.key) = false

variable {capacity k : Nat} {residents after : Residents Key Value} {item : Item Key Value} {key : Key}

theorem Moves.of_subperm {call : LruKCall Key Value} (fewer : after.items.Subperm residents.items) :
    Moves capacity call residents after where
  source _ member := .inl (fewer.subset member)
  total := fewer.length_le.trans

omit [BEq Key] in
theorem evict_cases (items : List (Item Key Value)) :
    evict items = .error .nullPointer ∨ ∃ left, evict items = .ok left ∧ left.Sublist items ∧
      left.length + 1 = items.length := by
  cases items with
  | nil => exact .inl rfl
  | cons first rest => exact .inr ⟨_, rfl, List.dropLast_sublist _, by simp⟩

omit [BEq Key] in
theorem evictBuffer_cases (k : Nat) : residents.evictBuffer k = .error .nullPointer ∨
    ∃ buffer, residents.evictBuffer k = .ok { residents with buffer } ∧ buffer.Sublist residents.buffer := by
  rw [evictBuffer]
  split
  · rcases evict_cases residents.buffer with stops | ⟨left, evicted, fewer, _⟩
    · exact .inl (by rw [stops]; rfl)
    · exact .inr ⟨left, by rw [evicted]; rfl, fewer⟩
  · exact .inr ⟨residents.buffer, rfl, .refl _⟩

omit [BEq Key] in
/-- After the eviction there is room for one item. -/
theorem evictHistory_cases (bounded : capacity < sizeRange) :
    residents.evictHistory capacity = .error .nullPointer ∨
    ∃ history, residents.evictHistory capacity = .ok { residents with history } ∧
      history.Sublist residents.history ∧
      (residents.items.length ≤ capacity → history.length + residents.buffer.length < capacity) := by
  rw [evictHistory, items, List.length_append]
  split
  next full =>
    rcases evict_cases residents.history with stops | ⟨left, evicted, fewer, length⟩
    · exact .inl (by rw [stops]; rfl)
    · refine .inr ⟨left, by rw [evicted]; rfl, fewer, ?_⟩
      omega
  next room =>
    refine .inr ⟨residents.history, rfl, .refl _, ?_⟩
    intro total
    by_contra full
    rw [sizeSub_eq bounded (show residents.history.length ≤ capacity by omega),
      sizeSub_eq (by omega) (by omega)] at room
    omega

variable [EquivBEq Key]

theorem eraseP_perm {items : List (Item Key Value)} {hit : Item Key Value}
    (found : items.find? (·.key == key) = some hit) : (hit :: items.eraseP (·.key == hit.key)).Perm items := by
  obtain ⟨matched, before, after, rfl, earlier⟩ := List.find?_eq_some_iff_append.mp found
  have skipped : ∀ item ∈ before, ¬ (item.key == hit.key) = true := by
    intro item member same
    have apart := earlier item member
    rw [BEq.trans same matched] at apart
    cases apart
  have here : (hit.key == hit.key) = true := BEq.rfl
  rw [List.eraseP_append_right _ skipped, List.eraseP_cons, here]
  exact List.perm_middle.symm

theorem promote_perm {hit : Item Key Value} (found : residents.buffer.find? (·.key == key) = some hit) :
    (residents.promote hit).items.Perm residents.items :=
  (eraseP_perm found).append_left residents.history

theorem move_perm {hit : Item Key Value} (found : residents.history.find? (·.key == key) = some hit) :
    (residents.move hit).items.Perm residents.items :=
  List.perm_middle.trans ((eraseP_perm found).append_right residents.buffer)

theorem put_moves (bounded : capacity < sizeRange) (item : Item Key Value) :
    residents.put capacity k item = .error .nullPointer ∨
    ∃ after, residents.put capacity k item = .ok after ∧
      Moves capacity (.put item.key item.value) residents after := by
  cases inHistory : residents.history.find? (·.key == item.key) with
  | some hit =>
      rcases @evictBuffer_cases _ _ residents k with stops | ⟨buffer, evicted, fewer⟩
      · left
        simp only [put, inHistory, stops]
        rfl
      · right
        refine ⟨_, by simp only [put, inHistory, evicted]; rfl, Moves.of_subperm ?_⟩
        have moved : (Residents.move { residents with buffer } hit).items.Perm _ := move_perm inHistory
        exact moved.subperm.trans (fewer.append_left residents.history).subperm
  | none =>
      cases inBuffer : residents.buffer.find? (·.key == item.key) with
      | some hit =>
          right
          exact ⟨_, by simp only [put, inHistory, inBuffer]; rfl, Moves.of_subperm (promote_perm inBuffer).subperm⟩
      | none =>
          rcases @evictHistory_cases _ _ _ residents bounded with stops | ⟨history, evicted, fewer, room⟩
          · left
            simp only [put, inHistory, inBuffer, stops]
            rfl
          · right
            refine ⟨{ residents with history := item :: history }, ?_, ?_, ?_⟩
            · simp only [put, inHistory, inBuffer, evicted]
              rfl
            · intro other member
              rcases List.mem_cons.mp (show other ∈ item :: (history ++ residents.buffer) from member) with rfl | old
              · right
                refine ⟨rfl, ?_⟩
                intro first inside
                rcases List.mem_append.mp inside with one | two
                · exact Bool.eq_false_iff.mpr (List.find?_eq_none.mp inHistory first one)
                · exact Bool.eq_false_iff.mpr (List.find?_eq_none.mp inBuffer first two)
              · left
                exact (fewer.append_right residents.buffer).subset old
            · intro total
              have room := room total
              simp only [items, List.length_append, List.length_cons]
              omega

theorem get_moves (key : Key) : Moves capacity (.get key) residents (residents.get key).1 := by
  apply Moves.of_subperm
  rw [get]
  cases inHistory : residents.history.find? (·.key == key) with
  | some hit => exact (move_perm inHistory).subperm
  | none =>
      cases inBuffer : residents.buffer.find? (·.key == key) with
      | some hit => exact (promote_perm inBuffer).subperm
      | none => exact List.Subperm.refl _

/-- A call dereferences null, or moves the items. -/
theorem call_moves (bounded : capacity < sizeRange) (call : LruKCall Key Value) :
    residents.call capacity k call = .error .nullPointer ∨
    ∃ after, residents.call capacity k call = .ok after ∧ Moves capacity call residents after := by
  cases call with
  | put key value => exact put_moves bounded ⟨key, value⟩
  | get key => exact .inr ⟨_, rfl, get_moves key⟩

/-- A `get` finds the item with the key. -/
theorem get_found (distinct : residents.Distinct) {value : Value} :
    (residents.get key).2 = some value ↔ ∃ item ∈ residents.items, (item.key == key) = true ∧ item.value = value := by
  have finds : (residents.get key).2 = (residents.items.find? (·.key == key)).map (·.value) := by
    rw [items, List.find?_append, get]
    cases residents.history.find? (·.key == key) with
    | some hit => rfl
    | none => cases residents.buffer.find? (·.key == key) <;> rfl
  rw [finds, Option.map_eq_some_iff]
  constructor
  · rintro ⟨item, found, rfl⟩
    have matched := List.find?_some found
    exact ⟨item, List.mem_of_find?_eq_some found, matched, rfl⟩
  · rintro ⟨item, member, matched, rfl⟩
    refine ⟨item, ?_, rfl⟩
    obtain ⟨before, later, split⟩ := List.append_of_mem member
    rw [Distinct, split, List.pairwise_append] at distinct
    rw [split]
    apply List.find?_eq_some_iff_append.mpr
    refine ⟨matched, before, later, rfl, ?_⟩
    intro other earlier
    have apart := distinct.2.2 other earlier item List.mem_cons_self
    rw [Bool.not_eq_true', ← BEq.congr_right matched]
    exact apart

end Residents

namespace LruK

variable [BEq Key] {capacity k : Nat} {cache : LruK Key Value} {residents : Residents Key Value} {key : Key}
  {value : Value}

/-- What `get` finds. -/
def lookup (cache : LruK Key Value) (key : Key) : Outcome (Option Value) := do
  return (← cache.get key).2

/-- The key is resident since a put of it, with the value of that put. -/
def ResidentSince (capacity k : Nat) (calls : List (LruKCall Key Value)) (key : Key) (value : Value) : Prop :=
  ∃ earlier spelled later, calls = earlier ++ .put spelled value :: later ∧ (spelled == key) = true ∧
    (∃ cache, LruK.calls capacity k earlier = .ok cache ∧ cache.lookup key = .ok none) ∧
    ∀ middle rest, later = middle ++ rest →
      ∃ cache, LruK.calls capacity k (earlier ++ .put spelled value :: middle) = .ok cache ∧
        cache.lookup key = .ok (some value)

variable [EquivBEq Key]

theorem Represents.lookup_eq (represents : Represents capacity k cache residents) (key : Key) :
    cache.lookup key = .ok (residents.get key).2 := by
  obtain ⟨next, got, _⟩ := get_follows represents key
  rw [lookup, got]
  rfl

omit [EquivBEq Key] in
theorem Represents.distinct (represents : Represents capacity k cache residents) : residents.Distinct := by
  obtain ⟨_, _, history, buffer, holds, rfl⟩ := represents
  rw [Residents.Distinct, Residents.items, itemsOf, ← List.map_append, List.pairwise_map, List.pairwise_append]
  exact ⟨holds.historyLinked.indexes.keys, holds.bufferLinked.indexes.keys, holds.keys⟩

omit [EquivBEq Key] in
theorem Represents.size_eq (represents : Represents capacity k cache residents) :
    cache.size = residents.items.length := by
  obtain ⟨_, _, history, buffer, holds, rfl⟩ := represents
  rw [size, holds.historyLinked.indexes.length_eq, holds.bufferLinked.indexes.length_eq, Residents.items, itemsOf,
    List.length_append, List.length_map, List.length_map]

/-- What holds after some calls that dereference no null pointer. -/
structure Consistent (capacity k : Nat) (calls : List (LruKCall Key Value)) (cache : LruK Key Value) : Prop where
  represents : ∃ residents, Represents capacity k cache residents
  size : cache.size ≤ capacity
  ran : LruK.calls capacity k calls = .ok cache
  since : ∀ key value, cache.lookup key = .ok (some value) → ResidentSince capacity k calls key value

omit [EquivBEq Key] in
theorem calls_concat (calls : List (LruKCall Key Value)) (ran : LruK.calls capacity k calls = .ok cache)
    (call : LruKCall Key Value) : LruK.calls capacity k (calls ++ [call]) = cache.call call := by
  obtain ⟨start, constructed, ran⟩ := Outcome.of_bind ran
  rw [LruK.calls, constructed, Outcome.ok_bind, run_append, ran]
  simp only [run]
  cases cache.call call <;> rfl

omit [EquivBEq Key] in
theorem ResidentSince.extend {calls : List (LruKCall Key Value)} {call : LruKCall Key Value} {next : LruK Key Value}
    (since : ResidentSince capacity k calls key value) (ran : LruK.calls capacity k (calls ++ [call]) = .ok next)
    (found : next.lookup key = .ok (some value)) : ResidentSince capacity k (calls ++ [call]) key value := by
  obtain ⟨earlier, spelled, later, rfl, same, absent, present⟩ := since
  refine ⟨earlier, spelled, later ++ [call], by rw [List.append_assoc]; rfl, same, absent, ?_⟩
  intro middle rest split
  rcases List.eq_nil_or_concat' rest with rfl | ⟨shorter, last, rfl⟩
  · rw [List.append_nil] at split
    subst split
    rw [List.append_assoc] at ran
    exact ⟨next, ran, found⟩
  · rw [← List.append_assoc] at split
    exact present middle shorter (List.append_inj_left' split rfl)

theorem Consistent.call (bounded : capacity < sizeRange) {calls : List (LruKCall Key Value)}
    (consistent : Consistent capacity k calls cache) (call : LruKCall Key Value) :
    (∃ next, cache.call call = .ok next ∧ Consistent capacity k (calls ++ [call]) next) ∨
      ∃ reason, cache.call call = .error reason ∧ reason = .nullPointer := by
  obtain ⟨⟨residents, represents⟩, size, ran, since⟩ := consistent
  have follows := call_follows represents call
  rcases @Residents.call_moves _ _ _ _ k residents _ bounded call with stops | ⟨after, moved, moves⟩
  · rw [stops] at follows
    exact .inr ⟨_, follows, rfl⟩
  · left
    rw [moved] at follows
    obtain ⟨next, called, nextRepresents⟩ := follows
    have nextRan : LruK.calls capacity k (calls ++ [call]) = .ok next := by rw [calls_concat calls ran, called]
    refine ⟨next, called, ⟨after, nextRepresents⟩, ?_, nextRan, ?_⟩
    · rw [nextRepresents.size_eq]
      rw [represents.size_eq] at size
      exact moves.total size
    · intro key value found
      have inAfter := found
      rw [nextRepresents.lookup_eq, Except.ok.injEq, Residents.get_found nextRepresents.distinct] at inAfter
      obtain ⟨item, member, matched, rfl⟩ := inAfter
      rcases moves.source item member with old | ⟨rfl, fresh⟩
      · apply (since key item.value ?_).extend nextRan found
        rw [represents.lookup_eq, Except.ok.injEq, Residents.get_found represents.distinct]
        exact ⟨item, old, matched, rfl⟩
      · refine ⟨calls, item.key, [], rfl, matched, ⟨cache, ran, ?_⟩, ?_⟩
        · rw [represents.lookup_eq, Except.ok.injEq, Option.eq_none_iff_forall_ne_some]
          intro value here
          obtain ⟨other, inside, alike, _⟩ := (Residents.get_found represents.distinct).mp here
          have apart := fresh other inside
          rw [BEq.trans alike (BEq.symm matched)] at apart
          cases apart
        · intro middle rest split
          obtain ⟨rfl, _⟩ := List.append_eq_nil_iff.mp split.symm
          exact ⟨next, nextRan, found⟩

/-- **The caches stay consistent.** Unless some call dereferences null, every sequence of calls
returns, with no key in both indexes, with each list linking the items of its index once, and with
at most `capacity` items; a key that `get` finds has the value of the put since which it is resident. -/
theorem calls_stay_consistent (bounded : capacity < sizeRange) (calls : List (LruKCall Key Value))
    (defined : (LruK.calls capacity k calls : Outcome (LruK Key Value)) ≠ .error .nullPointer) :
    ∃ cache history buffer, LruK.calls capacity k calls = .ok cache ∧ cache.Holds history buffer ∧
      cache.size ≤ capacity ∧
      ∀ key, cache.lookup key = .ok none ∨
        ∃ value, cache.lookup key = .ok (some value) ∧ ResidentSince capacity k calls key value := by
  obtain ⟨start, constructed, represents⟩ := @construct_represents Key Value _ capacity k
  have first : Consistent capacity k [] start := by
    refine ⟨⟨{}, represents⟩, ?_, ?_, ?_⟩
    · rw [represents.size_eq]
      exact Nat.zero_le _
    · rw [LruK.calls, constructed]
      rfl
    · intro key value found
      rw [represents.lookup_eq] at found
      cases found
  rcases run_outcome LruK.call (Consistent capacity k) (· = .nullPointer)
      (fun past cache call consistent _ => consistent.call bounded call) first
      (Meets.of_forall LruK.call (fun _ _ => trivial) start calls) with ⟨cache, ran, consistent⟩ | ⟨reason, ends, rfl⟩
  · obtain ⟨⟨residents, represents⟩, size, ran, since⟩ := consistent
    have whole := represents
    obtain ⟨_, _, history, buffer, holds, rfl⟩ := represents
    refine ⟨cache, history, buffer, ran, holds, size, ?_⟩
    intro key
    have looked := whole.lookup_eq key
    cases found : (Residents.get (itemsOf history buffer) key).2 with
    | none => exact .inl (by rw [looked, found])
    | some value =>
        rw [found] at looked
        exact .inr ⟨value, looked, since key value looked⟩
  · refine absurd ?_ defined
    rw [LruK.calls, constructed, Outcome.ok_bind]
    exact ends

/-- A key that is evicted and put again has its second value, and one put twice its first. -/
theorem calls_stay_consistent_again : ∃ (cache : LruK Nat Nat) (history buffer : List (Addr × Item Nat Nat)),
    LruK.calls 2 1 [.put 1 10, .put 2 20, .put 3 30, .put 1 11, .put 1 12, .get 1, .get 3] = .ok cache ∧
      cache.Holds history buffer ∧ cache.size ≤ 2 ∧
      ∃ value, cache.lookup 1 = .ok (some value) ∧ ResidentSince 2 1
        [.put 1 10, .put 2 20, .put 3 30, .put 1 11, .put 1 12, .get 1, .get 3] 1 value := by
  obtain ⟨cache, history, buffer, ran, holds, size, values⟩ :=
    @calls_stay_consistent Nat Nat _ 2 1 _ (by decide)
      [.put 1 10, .put 2 20, .put 3 30, .put 1 11, .put 1 12, .get 1, .get 3] (by decide +kernel)
  refine ⟨cache, history, buffer, ran, holds, size, ?_⟩
  rcases values 1 with absent | present
  · cases ran
    cases absent
  · exact present

end LruK

end Dsac.Cache

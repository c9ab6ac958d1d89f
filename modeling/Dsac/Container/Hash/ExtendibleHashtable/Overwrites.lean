import Dsac.Container.Hash.ExtendibleHashtable.Insertions

namespace Dsac.Hash.ExtendibleHashtableDirectory

open Dsac.Library

/-! Insertions of keys that the table contains already. -/

variable {K V : Type} [LinearOrder K] {hash : K → UInt64} {size : Nat}
  {directory after : ExtendibleHashtableDirectory K V} {bucket : ExtendibleHashtableBucket K V}

def bucketByKey (hash : K → UInt64) (directory : ExtendibleHashtableDirectory K V) (key : K) :
    Outcome (ExtendibleHashtableBucket K V) := do
  load directory.heap (← directory.getBucketByKey hash key)

/-- The insertion returns, and leaves the directory size and the set of keys as they were. -/
def Overwrites (hash : K → UInt64) (directory : ExtendibleHashtableDirectory K V) (key : K) (value : V) :
    Prop :=
  ∃ fuel after, directory.insert hash fuel key value = .ok after ∧
    after.buckets.length = directory.buckets.length ∧
    ∀ other, after.contains hash other = directory.contains hash other

/-- The bucket has room, or the directory need not be doubled for it and one of its keys
belongs to another entry than the key. -/
def parts (hash : K → UInt64) (directory : ExtendibleHashtableDirectory K V) (key : K)
    (bucket : ExtendibleHashtableBucket K V) : Bool :=
  bucket.hasCapacity || (decide (bucket.localDepth < directory.globalDepth) &&
    bucket.chain.entries.any fun entry => directory.indexOf hash entry.1 ≠ directory.indexOf hash key)

theorem get_of_load {heap : Heap (ExtendibleHashtableBucket K V)} {address : Addr}
    (loaded : load heap address = .ok bucket) : heap.get address = some bucket := by
  rw [load] at loaded
  cases live : heap.get address with
  | none => simp only [live, reduceCtorEq] at loaded
  | some node =>
      simp only [live, Except.ok.injEq] at loaded
      rw [loaded]

theorem split_length {address index : Nat} (splits : directory.split address index = .ok after) :
    after.buckets.length = directory.buckets.length := by
  rw [split] at splits
  obtain ⟨original, -, splits⟩ := Outcome.of_bind splits
  obtain ⟨heap, -, splits⟩ := Outcome.of_bind splits
  obtain ⟨image, -, splits⟩ := Outcome.of_bind splits
  split_ifs at splits
  cases splits
  simp only [List.length_set]

theorem expand_length (depth : Nat) :
    directory.buckets.length ≤ (directory.expand depth).buckets.length := by
  rw [expand]
  split_ifs
  · rw [List.length_append]
    omega
  · exact le_rfl

theorem located_mem {key : K} {address index : Nat}
    (located : directory.getBucketWithIndexByKey hash key = .ok (address, index)) :
    address ∈ directory.buckets := by
  rw [getBucketWithIndexByKey] at located
  split_ifs at located
  obtain ⟨found, entered, returned⟩ := Outcome.of_bind located
  cases returned
  rw [entry] at entered
  cases reached : directory.buckets[(hash key).toNat &&& ((1 <<< directory.globalDepth) - 1)]? with
  | none => simp only [reached, reduceCtorEq] at entered
  | some bucket =>
      simp only [reached, Except.ok.injEq] at entered
      exact entered ▸ List.mem_of_getElem? reached

theorem insert_cases {fuel : Nat} {key : K} {value : V}
    (inserted : directory.insert hash (fuel + 1) key value = .ok after) :
    ∃ address index bucket, directory.getBucketWithIndexByKey hash key = .ok (address, index) ∧
      load directory.heap address = .ok bucket ∧
      (bucket.hasCapacity = true ∧ after.buckets.length = directory.buckets.length ∨
        bucket.hasCapacity = false ∧ bucket.localDepth ≤ directory.globalDepth ∧
        ∃ splitted refilled, (directory.expand bucket.localDepth).split address index = .ok splitted ∧
          bucket.chain.entries.foldlM (fun directory entry =>
            ExtendibleHashtableDirectory.insert hash fuel directory entry.1 entry.2) splitted = .ok refilled ∧
          refilled.insert hash fuel key value = .ok after) := by
  rw [ExtendibleHashtableDirectory.insert] at inserted
  obtain ⟨⟨address, index⟩, located, inserted⟩ := Outcome.of_bind inserted
  obtain ⟨bucket, loaded, inserted⟩ := Outcome.of_bind inserted
  refine ⟨address, index, bucket, located, loaded, ?_⟩
  split_ifs at inserted with full deep
  · dsimp only at inserted
    split_ifs at inserted
    obtain ⟨splitted, splits, inserted⟩ := Outcome.of_bind inserted
    obtain ⟨refilled, folded, inserted⟩ := Outcome.of_bind inserted
    exact Or.inr ⟨by simpa using full, deep, splitted, refilled, splits, folded, inserted⟩
  · obtain ⟨target, -, inserted⟩ := Outcome.of_bind inserted
    obtain ⟨loaded, -, inserted⟩ := Outcome.of_bind inserted
    obtain ⟨filled, -, inserted⟩ := Outcome.of_bind inserted
    obtain ⟨heap, -, inserted⟩ := Outcome.of_bind inserted
    cases inserted
    exact Or.inl ⟨by simpa using full, rfl⟩

theorem refill_length_le {fuel : Nat}
    (grows : ∀ {directory after : ExtendibleHashtableDirectory K V} {key : K} {value : V},
      directory.insert hash fuel key value = .ok after → directory.buckets.length ≤ after.buckets.length)
    {entries : List (K × V)}
    (folded : entries.foldlM (fun directory entry =>
      ExtendibleHashtableDirectory.insert hash fuel directory entry.1 entry.2) directory = .ok after) :
    directory.buckets.length ≤ after.buckets.length := by
  induction entries generalizing directory with
  | nil =>
      cases folded
      exact le_rfl
  | cons entry rest ih =>
      rw [List.foldlM_cons] at folded
      obtain ⟨next, first, folded⟩ := Outcome.of_bind folded
      exact (grows first).trans (ih folded)

theorem insert_length_le {fuel : Nat} {key : K} {value : V}
    (inserted : directory.insert hash fuel key value = .ok after) :
    directory.buckets.length ≤ after.buckets.length := by
  induction fuel generalizing directory after key value with
  | zero => cases inserted
  | succ fuel ih =>
      obtain ⟨address, index, bucket, -, -,
        ⟨-, same⟩ | ⟨-, -, splitted, refilled, splits, folded, again⟩⟩ := insert_cases inserted
      · exact same.ge
      · calc directory.buckets.length
          _ ≤ (directory.expand bucket.localDepth).buckets.length := expand_length _
          _ = splitted.buckets.length := (split_length splits).symm
          _ ≤ refilled.buckets.length := refill_length_le ih folded
          _ ≤ after.buckets.length := ih again

/-- A full bucket of the directory's own depth doubles the directory, whatever the key. -/
theorem insert_full_grows {fuel : Nat} {key : K} {value : V} {address index : Nat}
    (located : directory.getBucketWithIndexByKey hash key = .ok (address, index))
    (loaded : load directory.heap address = .ok bucket) (full : bucket.hasCapacity = false)
    (deep : ¬ bucket.localDepth < directory.globalDepth)
    (inserted : directory.insert hash fuel key value = .ok after) :
    directory.buckets.length < after.buckets.length := by
  cases fuel with
  | zero => cases inserted
  | succ fuel =>
      obtain ⟨other, otherIndex, otherBucket, otherLocated, otherLoaded, outcome⟩ := insert_cases inserted
      cases located.symm.trans otherLocated
      cases loaded.symm.trans otherLoaded
      rcases outcome with ⟨room, -⟩ | ⟨-, shallow, splitted, refilled, splits, folded, again⟩
      · cases full.symm.trans room
      have positive : 0 < directory.buckets.length := List.length_pos_of_mem (located_mem located)
      have doubled : (directory.expand bucket.localDepth).buckets.length =
          directory.buckets.length + directory.buckets.length := by
        rw [expand, if_pos (by omega), List.length_append]
      calc directory.buckets.length
        _ < (directory.expand bucket.localDepth).buckets.length := by omega
        _ = splitted.buckets.length := (split_length splits).symm
        _ ≤ refilled.buckets.length := refill_length_le insert_length_le folded
        _ ≤ after.buckets.length := insert_length_le again

/-- The insertion into a full bucket calls itself for the keys of the bucket. -/
theorem insert_full_fuel {fuel : Nat} {key : K} {value : V} {address index : Nat}
    (located : directory.getBucketWithIndexByKey hash key = .ok (address, index))
    (loaded : load directory.heap address = .ok bucket) (full : bucket.hasCapacity = false)
    (occupied : bucket.chain.entries ≠ [])
    (inserted : directory.insert hash fuel key value = .ok after) : ∃ rest, fuel = rest + 2 := by
  match fuel with
  | 0 => cases inserted
  | 1 =>
      obtain ⟨other, otherIndex, otherBucket, otherLocated, otherLoaded, outcome⟩ := insert_cases inserted
      cases located.symm.trans otherLocated
      cases loaded.symm.trans otherLoaded
      rcases outcome with ⟨room, -⟩ | ⟨-, -, splitted, refilled, -, folded, -⟩
      · cases full.symm.trans room
      · obtain ⟨entry, rest, entries⟩ := List.exists_cons_of_ne_nil occupied
        rw [entries, List.foldlM_cons] at folded
        cases folded
  | rest + 2 => exact ⟨rest, rfl⟩

/-- A contained key whose bucket has room. -/
theorem insert_room_contains {key : K} (value : V) (member : directory.contains hash key = .ok true)
    (found : directory.bucketByKey hash key = .ok bucket) (room : bucket.hasCapacity = true) (fuel : Nat) :
    ∃ after, directory.insert hash (fuel + 1) key value = .ok after ∧
      after.buckets.length = directory.buckets.length ∧
      ∀ other, after.contains hash other = directory.contains hash other := by
  rw [bucketByKey] at found
  obtain ⟨address, gotten, loaded⟩ := Outcome.of_bind found
  obtain ⟨⟨address, index⟩, located, returned⟩ := Outcome.of_bind gotten
  cases returned
  dsimp only at gotten loaded
  have live := get_of_load loaded
  have holdsKey : bucket.chain.contains key = true := by
    rw [contains, gotten, Outcome.ok_bind, loaded] at member
    exact Except.ok.inj member
  set filled := { bucket with chain := bucket.chain.insertOrAssign key value } with filledDef
  refine ⟨{ directory with heap := directory.heap.set address filled }, ?_, rfl, ?_⟩
  · simp only [ExtendibleHashtableDirectory.insert, located, gotten, Outcome.ok_bind, loaded, room,
      store_of_get live, ExtendibleHashtableBucket.insert, Bool.not_true, Bool.false_eq_true, if_false,
      if_true, pure, Except.pure, filledDef]
  · intro other
    have sameBucket : getBucketByKey hash { directory with heap := directory.heap.set address filled } other =
        directory.getBucketByKey hash other := rfl
    rw [contains, contains, sameBucket]
    cases reached : directory.getBucketByKey hash other with
    | error reason => rfl
    | ok target =>
        simp only [Outcome.ok_bind]
        by_cases same : target = address
        · subst same
          rw [load_of_get (Heap.get_set_self (Heap.lt_fresh_of_get live)), loaded]
          have unchanged : filled.chain.contains other = bucket.chain.contains other := by
            rw [Bool.eq_iff_iff, filledDef, OrderedMap.contains_insertOrAssign]
            exact or_iff_right_of_imp fun equal => equal ▸ holdsKey
          simp only [Outcome.ok_bind, unchanged]
        · rw [load, Heap.get_set_of_ne same, load]

namespace WellFormed

variable {address : Addr} {key : K}

theorem contains_eq_decide [∀ other, Decidable (Stores hash directory other)]
    (wellFormed : WellFormed hash size directory)
    (narrow : directory.globalDepth < maskWidth) (other : K) :
    directory.contains hash other = .ok (decide (Stores hash directory other)) := by
  obtain ⟨found, contained, iff⟩ := wellFormed.contains_eq narrow other
  rw [contained, Bool.eq_iff_iff.mpr (iff.trans decide_eq_true_iff.symm)]

theorem bucketByKey_eq (narrow : directory.globalDepth < maskWidth)
    (found : directory.buckets[directory.indexOf hash key]? = some address)
    (holds : EntryHolds hash size directory (directory.indexOf hash key) address bucket) :
    directory.bucketByKey hash key = .ok bucket := by
  have gotten : directory.getBucketByKey hash key = .ok address := by
    rw [getBucketByKey, getBucketWithIndexByKey_eq narrow found]
    rfl
  rw [bucketByKey, gotten, Outcome.ok_bind, load_of_get holds.live]

theorem stores_of_index {other : K} (same : directory.indexOf hash other = directory.indexOf hash key)
    (found : directory.buckets[directory.indexOf hash key]? = some address)
    (live : directory.heap.get address = some bucket) :
    Stores hash directory other ↔ bucket.chain.contains other = true := by
  constructor
  · rintro ⟨otherAddress, otherBucket, otherFound, otherLive, member⟩
    rw [same] at otherFound
    obtain rfl := Option.some.inj (found.symm.trans otherFound)
    obtain rfl := Option.some.inj (live.symm.trans otherLive)
    exact member
  · intro member
    exact ⟨address, bucket, same ▸ found, live, member⟩

/-- After the split of a full bucket that two entries share, the bucket of the key has room
exactly when some key went to the split image. -/
theorem split_full (wellFormed : WellFormed hash size directory)
    (narrow : directory.globalDepth < maskWidth)
    (found : directory.buckets[directory.indexOf hash key]? = some address)
    (holds : EntryHolds hash size directory (directory.indexOf hash key) address bucket)
    (deepest : directory.globalDepth = bucket.localDepth + 1) (full : ¬ bucket.chain.size < size)
    (fuel : Nat) (value : V) :
    ∃ refilled next nextBucket,
      directory.insert hash (fuel + 2) key value = refilled.insert hash (fuel + 1) key value ∧
      WellFormed hash size refilled ∧ refilled.globalDepth = directory.globalDepth ∧
      (∀ other, Stores hash refilled other ↔ Stores hash directory other) ∧
      refilled.buckets[refilled.indexOf hash key]? = some next ∧
      EntryHolds hash size refilled (refilled.indexOf hash key) next nextBucket ∧
      nextBucket.localDepth = directory.globalDepth ∧
      (nextBucket.chain.size < size ↔
        ∃ entry ∈ bucket.chain.entries, directory.indexOf hash entry.1 ≠ directory.indexOf hash key) := by
  have unexpanded : directory.expand bucket.localDepth = directory := if_neg (by omega)
  have capacity : bucket.hasCapacity = false := by
    simpa [ExtendibleHashtableBucket.hasCapacity, holds.sized] using full
  obtain ⟨splitted, splits, splitAt⟩ := wellFormed.splitAt found holds.live deepest
  have splittedWellFormed := splitAt.wellFormed wellFormed holds deepest
  nth_rewrite 1 [← unexpanded] at splits
  nth_rewrite 1 [← unexpanded] at splitAt
  obtain ⟨refilled, folded, refilledWellFormed, refilledDepth, sameDepth, stores⟩ :=
    wellFormed.split_reinserted holds deepest.le (deepest ▸ narrow) splitAt splittedWellFormed fuel
  obtain ⟨next, nextBucket, nextFound, nextHolds⟩ := refilledWellFormed.bucketOf key
  have nextDepth := sameDepth next nextBucket nextFound nextHolds.live
  have sameIndex : ∀ other, refilled.indexOf hash other = directory.indexOf hash other := by
    intro other
    rw [indexOf, indexOf, refilledDepth, deepest]
  -- The new bucket holds the keys of the old one that agree with `key` on one more bit.
  have nextContains : ∀ other, nextBucket.chain.contains other = true ↔
      bucket.chain.contains other = true ∧ directory.indexOf hash other = directory.indexOf hash key := by
    intro other
    have moved : directory.indexOf hash other = directory.indexOf hash key →
        (nextBucket.chain.contains other = true ↔ bucket.chain.contains other = true) := by
      intro same
      have nextSame : refilled.indexOf hash other = refilled.indexOf hash key := by
        rw [sameIndex, sameIndex, same]
      rw [← stores_of_index nextSame nextFound nextHolds.live, stores,
        stores_of_index same found holds.live]
    constructor
    · intro member
      have agree := nextHolds.agree other member
      rw [nextDepth, ← deepest, sameIndex, Nat.ModEq, indexOf, Nat.mod_mod] at agree
      exact ⟨(moved agree).mp member, agree⟩
    · rintro ⟨member, same⟩
      exact (moved same).mpr member
  refine ⟨refilled, next, nextBucket, ?_, refilledWellFormed, refilledDepth.trans deepest.symm, stores,
    nextFound, nextHolds, nextDepth.trans deepest.symm, ?_⟩
  · rw [insert_full (getBucketWithIndexByKey_eq narrow found) holds.live capacity holds.shallow
      (by rw [unexpanded]; omega) splits, folded, Outcome.ok_bind]
  · constructor
    · intro room
      by_contra together
      push Not at together
      have kept : bucket.chain.size ≤ nextBucket.chain.size := by
        apply OrderedMap.size_le_of_contains
        intro other member
        obtain ⟨entry, entryMember, rfl⟩ := List.mem_map.mp (of_decide_eq_true member)
        exact (nextContains entry.1).mpr ⟨member, together entry entryMember⟩
      omega
    · rintro ⟨entry, member, apart⟩
      have fewer : nextBucket.chain.size < bucket.chain.size := by
        apply OrderedMap.size_lt_of_contains
        · exact fun other held => ((nextContains other).mp held).1
        · exact decide_eq_true (List.mem_map_of_mem member)
        · exact fun held => apart ((nextContains entry.1).mp held).2
      exact fewer.trans_le holds.bounded

/-- The exact condition for a contained key, in a directory whose bucket at the key is
shared by at most two entries. -/
theorem overwrites_iff (wellFormed : WellFormed hash size directory) (positive : 1 ≤ size)
    (narrow : directory.globalDepth < maskWidth) (member : directory.contains hash key = .ok true)
    (isCovered : directory.covered hash key = true) (value : V) :
    directory.Overwrites hash key value ↔
      ∃ bucket, directory.bucketByKey hash key = .ok bucket ∧ directory.parts hash key bucket = true := by
  obtain ⟨address, bucket, found, holds⟩ := wellFormed.bucketOf key
  have reached := bucketByKey_eq narrow found holds
  have located := getBucketWithIndexByKey_eq narrow found
  have condition : (∃ other, directory.bucketByKey hash key = .ok other ∧ directory.parts hash key other = true) ↔
      directory.parts hash key bucket = true := by
    constructor
    · rintro ⟨other, otherReached, parted⟩
      cases reached.symm.trans otherReached
      exact parted
    · exact fun parted => ⟨bucket, reached, parted⟩
  rw [condition, parts]
  cases capacity : bucket.hasCapacity with
  | true =>
      obtain ⟨after, inserted, kept⟩ := insert_room_contains value member reached capacity 0
      simp only [Bool.true_or, iff_true]
      exact ⟨1, after, inserted, kept⟩
  | false =>
      have full : ¬ bucket.chain.size < size := by
        simpa [ExtendibleHashtableBucket.hasCapacity, holds.sized] using capacity
      simp only [Bool.false_or, Bool.and_eq_true, decide_eq_true_eq, List.any_eq_true]
      by_cases deeper : bucket.localDepth < directory.globalDepth
      swap
      · simp only [deeper, false_and, iff_false]
        rintro ⟨fuel, after, inserted, same, -⟩
        have grown := insert_full_grows located (load_of_get holds.live) capacity deeper inserted
        omega
      have deepest : directory.globalDepth = bucket.localDepth + 1 := by
        rw [bucketByKey] at reached
        rw [covered, reached] at isCovered
        simp only [capacity, Bool.false_or, decide_eq_true_eq] at isCovered
        omega
      simp only [deeper, true_and]
      constructor
      · rintro ⟨fuel, after, inserted, same, -⟩
        have occupied : bucket.chain.entries ≠ [] := by
          intro none
          rw [OrderedMap.size, none] at full
          exact full positive
        obtain ⟨fuel, rfl⟩ := insert_full_fuel located (load_of_get holds.live) capacity occupied inserted
        obtain ⟨refilled, next, nextBucket, unfolded, refilledWellFormed, refilledDepth, -, nextFound,
          nextHolds, nextDepth, parted⟩ := wellFormed.split_full narrow found holds deepest full fuel value
        by_contra together
        have nextFull : nextBucket.hasCapacity = false := by
          simpa [ExtendibleHashtableBucket.hasCapacity, nextHolds.sized] using parted.not.mpr (by simpa using together)
        rw [unfolded] at inserted
        have grown := insert_full_grows
          (getBucketWithIndexByKey_eq (refilledDepth ▸ narrow) nextFound) (load_of_get nextHolds.live)
          nextFull (by omega) inserted
        rw [refilledWellFormed.entries, refilledDepth, ← wellFormed.entries] at grown
        omega
      · intro apart
        obtain ⟨refilled, next, nextBucket, unfolded, refilledWellFormed, refilledDepth, stores, nextFound,
          nextHolds, nextDepth, parted⟩ := wellFormed.split_full narrow found holds deepest full 0 value
        have refilledNarrow : refilled.globalDepth < maskWidth := refilledDepth ▸ narrow
        have sameContains : ∀ other, refilled.contains hash other = directory.contains hash other := by
          classical
          intro other
          rw [refilledWellFormed.contains_eq_decide refilledNarrow, wellFormed.contains_eq_decide narrow,
            decide_eq_decide.mpr (stores other)]
        have room : nextBucket.hasCapacity = true := by
          simpa [ExtendibleHashtableBucket.hasCapacity, nextHolds.sized] using parted.mpr (by simpa using apart)
        obtain ⟨after, inserted, sameLength, kept⟩ := insert_room_contains value
          ((sameContains key).trans member) (bucketByKey_eq refilledNarrow nextFound nextHolds) room 0
        refine ⟨2, after, unfolded.trans inserted, ?_, fun other => (kept other).trans (sameContains other)⟩
        rw [sameLength, refilledWellFormed.entries, refilledDepth, wellFormed.entries]

end WellFormed

end Dsac.Hash.ExtendibleHashtableDirectory

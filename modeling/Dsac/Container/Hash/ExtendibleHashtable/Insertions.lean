import Dsac.Library.Run
import Dsac.Container.Hash.ExtendibleHashtable.WellFormed

namespace Dsac.Hash.ExtendibleHashtableDirectory

open Dsac.Library

/-! Runs of insertions that split no bucket shared by more than two entries. -/

variable {K V : Type} [LinearOrder K] {hash : K → UInt64} {size : Nat}
  {directory : ExtendibleHashtableDirectory K V} {index : Nat} {address : Addr}
  {bucket : ExtendibleHashtableBucket K V}

theorem insert_overflow (wide : ¬ directory.globalDepth < maskWidth) (fuel : Nat) (key : K) (value : V) :
    directory.insert hash (fuel + 1) key value = .error .overflow := by
  simp only [ExtendibleHashtableDirectory.insert, getBucketWithIndexByKey_overflow wide key, bind, Except.bind]

namespace WellFormed

/-- A bucket with room takes the key. -/
theorem insert_room (narrow : directory.globalDepth < maskWidth) {key : K} (value : V)
    (found : directory.buckets[directory.indexOf hash key]? = some address)
    (holds : EntryHolds hash size directory index address bucket) (room : bucket.chain.size < size)
    (fuel : Nat) :
    directory.insert hash (fuel + 1) key value = .ok { directory with
      heap := directory.heap.set address { bucket with chain := bucket.chain.insertOrAssign key value } } := by
  have capacity : bucket.hasCapacity = true := by
    simpa [ExtendibleHashtableBucket.hasCapacity, holds.sized] using room
  simp only [ExtendibleHashtableDirectory.insert, getBucketByKey, getBucketWithIndexByKey_eq narrow found,
    load_of_get holds.live, store_of_get holds.live, ExtendibleHashtableBucket.insert, capacity,
    Bool.not_true, Bool.false_eq_true, if_false, if_true, bind, Except.bind, pure, Except.pure]

/-- The keys of a bucket that was split fit into the empty buckets that replace it. -/
theorem reinserted (wellFormed : WellFormed hash size directory)
    (narrow : directory.globalDepth < maskWidth) (rest : List (K × V)) (fuel : Nat)
    (room : ∀ entry ∈ rest, ∀ address bucket,
      directory.buckets[directory.indexOf hash entry.1]? = some address →
      directory.heap.get address = some bucket → bucket.chain.size + rest.length ≤ size) :
    ∃ after, rest.foldlM (fun directory entry =>
        ExtendibleHashtableDirectory.insert hash (fuel + 1) directory entry.1 entry.2) directory = .ok after ∧
      WellFormed hash size after ∧ after.globalDepth = directory.globalDepth ∧
      after.buckets = directory.buckets ∧
      (∀ address bucket, directory.heap.get address = some bucket →
        ∃ filled, after.heap.get address = some filled ∧ filled.localDepth = bucket.localDepth) ∧
      ∀ key, Stores hash after key ↔ key ∈ rest.map Prod.fst ∨ Stores hash directory key := by
  induction rest generalizing directory with
  | nil => exact ⟨directory, rfl, wellFormed, rfl, rfl, fun _ bucket live => ⟨bucket, live, rfl⟩, by simp⟩
  | cons entry rest ih =>
      obtain ⟨address, bucket, found, holds⟩ := wellFormed.bucketOf entry.1
      have space := room entry (List.mem_cons_self ..) address bucket found holds.live
      rw [List.length_cons] at space
      have inserted := insert_room narrow entry.2 found holds (by omega) fuel
      obtain ⟨nextWellFormed, nextStores⟩ := wellFormed.stored entry.2 found holds.live (by omega)
      set filled := { bucket with chain := bucket.chain.insertOrAssign entry.1 entry.2 } with filledDef
      set next := { directory with heap := directory.heap.set address filled } with nextDef
      have written : next.heap.get address = some filled :=
        Heap.get_set_self (Heap.lt_fresh_of_get holds.live)
      obtain ⟨after, folded, afterWellFormed, depth, buckets, kept, stores⟩ := ih nextWellFormed narrow (by
        intro later member otherAddress otherBucket otherFound otherLive
        by_cases same : otherAddress = address
        · subst same
          obtain rfl := Option.some.inj (written.symm.trans otherLive)
          have grown := OrderedMap.size_insertOrAssign_le bucket.chain entry.1 entry.2
          simp only [filledDef]
          omega
        · rw [Heap.get_set_of_ne same] at otherLive
          have old := room later (List.mem_cons_of_mem _ member) otherAddress otherBucket otherFound otherLive
          rw [List.length_cons] at old
          omega)
      refine ⟨after, ?_, afterWellFormed, depth, buckets, ?_, ?_⟩
      · rw [List.foldlM_cons, inserted]
        exact folded
      · intro otherAddress otherBucket live
        by_cases same : otherAddress = address
        · subst same
          obtain rfl := Option.some.inj (holds.live.symm.trans live)
          exact kept otherAddress filled written
        · exact kept otherAddress otherBucket (by rw [Heap.get_set_of_ne same]; exact live)
      · intro key
        rw [stores, nextStores, List.map_cons, List.mem_cons]
        tauto

/-- A key that agrees with the entry on the low bits can be only in its bucket. -/
theorem stores_iff (wellFormed : WellFormed hash size directory)
    (holds : EntryHolds hash size directory index address bucket) {key : K}
    (agree : (hash key).toNat ≡ index [MOD 2 ^ bucket.localDepth]) :
    Stores hash directory key ↔ bucket.chain.contains key = true := by
  obtain ⟨other, otherBucket, found, otherHolds⟩ := wellFormed.bucketOf key
  have low : directory.indexOf hash key ≡ (hash key).toNat [MOD 2 ^ bucket.localDepth] :=
    (Nat.mod_modEq _ _).of_dvd (Nat.pow_dvd_pow 2 holds.shallow)
  obtain rfl := (holds.shared _ _ found).mpr (low.trans agree)
  constructor
  · rintro ⟨third, thirdBucket, thirdFound, live, member⟩
    obtain rfl := Option.some.inj (found.symm.trans thirdFound)
    obtain rfl := Option.some.inj (holds.live.symm.trans live)
    exact member
  · exact fun member => ⟨other, bucket, found, holds.live, member⟩

theorem expand_depth (holds : EntryHolds hash size directory index address bucket)
    (covered : directory.globalDepth ≤ bucket.localDepth + 1) :
    (directory.expand bucket.localDepth).globalDepth = bucket.localDepth + 1 := by
  rw [expand]
  split_ifs with same
  · exact congrArg (· + 1) same.symm
  · have shallow := holds.shallow
    omega

theorem expand_entry (wellFormed : WellFormed hash size directory)
    (found : directory.buckets[index]? = some address)
    (holds : EntryHolds hash size directory index address bucket) (depth : Nat) :
    (directory.expand depth).buckets[index]? = some address ∧
      EntryHolds hash size (directory.expand depth) index address bucket := by
  have expandedFound : (directory.expand depth).buckets[index]? = some address := by
    rw [expand]
    split_ifs
    · rw [List.getElem?_append_left (List.getElem?_eq_some_iff.mp found).1, found]
    · exact found
  have expandedLive : (directory.expand depth).heap.get address = some bucket := by
    rw [expand]
    split_ifs <;> exact holds.live
  exact ⟨expandedFound, (wellFormed.expanded depth).1.sameBucket expandedFound expandedLive⟩

/-- The directory after the split of the full bucket of a key, its keys reinserted. -/
theorem split_reinserted (wellFormed : WellFormed hash size directory) {key : K}
    (holds : EntryHolds hash size directory (directory.indexOf hash key) address bucket)
    (covered : directory.globalDepth ≤ bucket.localDepth + 1)
    (narrow : bucket.localDepth + 1 < maskWidth)
    {splitted : ExtendibleHashtableDirectory K V}
    (splitAt : SplitAt size (directory.expand bucket.localDepth) splitted (directory.indexOf hash key)
      bucket.localDepth)
    (splittedWellFormed : WellFormed hash size splitted) (fuel : Nat) :
    ∃ after, bucket.chain.entries.foldlM (fun directory entry =>
        ExtendibleHashtableDirectory.insert hash (fuel + 1) directory entry.1 entry.2) splitted = .ok after ∧
      WellFormed hash size after ∧ after.globalDepth = bucket.localDepth + 1 ∧
      (∀ other otherBucket, after.buckets[after.indexOf hash key]? = some other →
        after.heap.get other = some otherBucket → otherBucket.localDepth = bucket.localDepth + 1) ∧
      ∀ other, Stores hash after other ↔ Stores hash directory other := by
  obtain ⟨expanded, sameStores⟩ := wellFormed.expanded bucket.localDepth
  have depth := expand_depth holds covered
  have splittedDepth : splitted.globalDepth = bucket.localDepth + 1 := splitAt.globalDepth.trans depth
  have keyAgrees : ∀ other, (hash other).toNat ≡ directory.indexOf hash key [MOD 2 ^ bucket.localDepth] →
      splitted.indexOf hash other ≡ directory.indexOf hash key [MOD 2 ^ bucket.localDepth] := by
    intro other agree
    rw [indexOf, splittedDepth]
    exact ((Nat.mod_modEq _ _).of_dvd (Nat.pow_dvd_pow 2 (Nat.le_succ _))).trans agree
  obtain ⟨after, folded, afterWellFormed, afterDepth, afterBuckets, kept, stores⟩ :=
    splittedWellFormed.reinserted (splittedDepth ▸ narrow) bucket.chain.entries fuel (by
      intro entry member other otherBucket otherFound otherLive
      have agree := holds.agree entry.1 (decide_eq_true (List.mem_map_of_mem member))
      have empty := (splitAt.empty _ _ otherFound (keyAgrees entry.1 agree)).1
      cases otherLive.symm.trans empty
      have bounded := holds.bounded
      rw [OrderedMap.size] at bounded
      simpa [ExtendibleHashtableBucket.make, OrderedMap.size] using bounded)
  refine ⟨after, folded, afterWellFormed, afterDepth.trans splittedDepth, ?_, ?_⟩
  · intro other otherBucket otherFound otherLive
    have sameIndex : after.indexOf hash key = splitted.indexOf hash key := by
      rw [indexOf, indexOf, afterDepth]
    rw [afterBuckets, sameIndex] at otherFound
    have ownIndex : (hash key).toNat ≡ directory.indexOf hash key [MOD 2 ^ bucket.localDepth] :=
      ((Nat.mod_modEq _ _).of_dvd (Nat.pow_dvd_pow 2 holds.shallow)).symm
    have empty := (splitAt.empty _ _ otherFound (keyAgrees key ownIndex)).1
    obtain ⟨filled, filledLive, sameDepth⟩ := kept _ _ empty
    obtain rfl := Option.some.inj (otherLive.symm.trans filledLive)
    exact sameDepth
  · intro other
    rw [stores, splitAt.stores_iff expanded depth, sameStores]
    by_cases agree : (hash other).toNat ≡ directory.indexOf hash key [MOD 2 ^ bucket.localDepth]
    · rw [wellFormed.stores_iff holds agree, OrderedMap.contains, decide_eq_true_iff]
      simp [agree]
    · have absent : other ∉ bucket.chain.entries.map Prod.fst := fun member =>
        agree (holds.agree other (decide_eq_true member))
      simp [agree, absent]

theorem insert_full {key : K} {splitted : ExtendibleHashtableDirectory K V}
    (located : directory.getBucketWithIndexByKey hash key = .ok (address, index))
    (live : directory.heap.get address = some bucket) (full : bucket.hasCapacity = false)
    (shallow : bucket.localDepth ≤ directory.globalDepth)
    (deeper : bucket.localDepth < (directory.expand bucket.localDepth).globalDepth)
    (splits : (directory.expand bucket.localDepth).split address index = .ok splitted)
    (fuel : Nat) (value : V) :
    directory.insert hash (fuel + 1) key value =
      (bucket.chain.entries.foldlM (fun directory entry =>
        ExtendibleHashtableDirectory.insert hash fuel directory entry.1 entry.2) splitted >>=
        fun refilled => ExtendibleHashtableDirectory.insert hash fuel refilled key value) := by
  rw [ExtendibleHashtableDirectory.insert]
  simp only [located, load_of_get live, full, Bool.not_false, if_true, shallow, deeper, not_true_eq_false,
    if_false, splits, Outcome.ok_bind]

/-- An insertion whose bucket has room, or is shared by at most two entries, adds its key
unless the directory outgrows the index mask. -/
theorem inserted {fuel : Nat} (wellFormed : WellFormed hash size directory) (positive : 1 ≤ size) {key : K}
    (value : V) (found : directory.buckets[directory.indexOf hash key]? = some address)
    (holds : EntryHolds hash size directory (directory.indexOf hash key) address bucket)
    (covered : bucket.chain.size < size ∨ directory.globalDepth ≤ bucket.localDepth + 1)
    (deep : maskWidth + 2 ≤ fuel + 1 + bucket.localDepth) :
    (∃ after, directory.insert hash (fuel + 1) key value = .ok after ∧ WellFormed hash size after ∧
      after.globalDepth < maskWidth ∧
      ∀ other, Stores hash after other ↔ other = key ∨ Stores hash directory other) ∨
    directory.insert hash (fuel + 1) key value = .error .overflow := by
  induction fuel generalizing directory address bucket with
  | zero =>
      refine Or.inr (insert_overflow ?_ 0 key value)
      have shallow := holds.shallow
      omega
  | succ fuel ih =>
      by_cases narrow : directory.globalDepth < maskWidth
      swap
      · exact Or.inr (insert_overflow narrow _ key value)
      by_cases room : bucket.chain.size < size
      · obtain ⟨after, stores⟩ := wellFormed.stored value found holds.live room
        exact Or.inl ⟨_, insert_room narrow value found holds room _, after, narrow, stores⟩
      have deepest : directory.globalDepth ≤ bucket.localDepth + 1 := covered.resolve_left room
      have full : bucket.hasCapacity = false := by
        simpa [ExtendibleHashtableBucket.hasCapacity, holds.sized] using room
      obtain ⟨expandedFound, origin⟩ := wellFormed.expand_entry found holds bucket.localDepth
      have expanded := (wellFormed.expanded bucket.localDepth).1
      have depth := expand_depth holds deepest
      have deeper : bucket.localDepth < (directory.expand bucket.localDepth).globalDepth := by
        rw [depth]
        exact Nat.lt_succ_self _
      obtain ⟨splitted, splits, splitAt⟩ := expanded.splitAt expandedFound origin.live depth
      have splittedWellFormed := splitAt.wellFormed expanded origin depth
      rw [insert_full (getBucketWithIndexByKey_eq narrow found) holds.live full holds.shallow deeper splits]
      by_cases wider : bucket.localDepth + 1 < maskWidth
      · obtain ⟨refilled, folded, refilledWellFormed, refilledDepth, sameDepth, stores⟩ :=
          wellFormed.split_reinserted holds deepest wider splitAt splittedWellFormed fuel
        obtain ⟨next, nextBucket, nextFound, nextHolds⟩ := refilledWellFormed.bucketOf key
        have nextDepth := sameDepth next nextBucket nextFound nextHolds.live
        simp only [folded, bind, Except.bind]
        rcases ih refilledWellFormed nextFound nextHolds (Or.inr (by omega)) (by omega) with
          ⟨after, insertion, afterWellFormed, afterNarrow, afterStores⟩ | overflow
        · refine Or.inl ⟨after, insertion, afterWellFormed, afterNarrow, fun other => ?_⟩
          rw [afterStores, stores]
        · exact Or.inr overflow
      · refine Or.inr ?_
        cases entries : bucket.chain.entries with
        | nil =>
            rw [OrderedMap.size, entries] at room
            exact absurd positive room
        | cons entry rest =>
            have wide : ¬ splitted.globalDepth < maskWidth := by rwa [splitAt.globalDepth, depth]
            simp only [List.foldlM_cons, insert_overflow wide, bind, Except.bind]

end WellFormed

theorem foldl_pushBack (depth bucketSize count : Nat) :
    (List.range count).foldl (fun directory _ => directory.pushBack depth bucketSize)
      ({ globalDepth := depth } : ExtendibleHashtableDirectory K V) =
      ⟨depth, ⟨List.replicate count (some (.make depth bucketSize))⟩, List.range count⟩ := by
  induction count with
  | zero => rfl
  | succ count ih =>
      rw [List.range_succ, List.foldl_append, ih]
      simp [pushBack, Heap.alloc, Heap.fresh, List.replicate_succ']

theorem make_eq (depth bucketSize : Nat) :
    (make depth bucketSize : ExtendibleHashtableDirectory K V) =
      ⟨depth, ⟨List.replicate (2 ^ depth) (some (.make depth bucketSize))⟩, List.range (2 ^ depth)⟩ := by
  rw [make, foldl_pushBack, Nat.one_shiftLeft]

theorem make_get {depth bucketSize : Nat} (inside : address < 2 ^ depth) :
    (make depth bucketSize : ExtendibleHashtableDirectory K V).heap.get address =
      some (.make depth bucketSize) := by
  rw [make_eq, Heap.get, List.getElem?_replicate, if_pos inside]
  rfl

/-- A new directory has an empty bucket of its own at every entry. -/
theorem make_wellFormed (hash : K → UInt64) (depth bucketSize : Nat) :
    WellFormed hash bucketSize (make depth bucketSize : ExtendibleHashtableDirectory K V) ∧
      ∀ key, ¬ Stores hash (make depth bucketSize : ExtendibleHashtableDirectory K V) key := by
  have entries : ∀ {index : Nat} {address : Addr},
      (make depth bucketSize : ExtendibleHashtableDirectory K V).buckets[index]? = some address →
      index < 2 ^ depth ∧ address = index := by
    intro index address found
    rw [make_eq] at found
    obtain ⟨inside, same⟩ := List.getElem?_eq_some_iff.mp found
    exact ⟨by simpa using inside, by simpa using same.symm⟩
  refine ⟨⟨by simp [make_eq], ?_⟩, ?_⟩
  · intro index address found
    obtain ⟨inside, rfl⟩ := entries found
    refine ⟨_, make_get inside, by simp [make_eq, ExtendibleHashtableBucket.make], rfl, Nat.zero_le _,
      (fun key member => by cases member), ?_⟩
    intro other otherAddress otherFound
    obtain ⟨otherInside, rfl⟩ := entries otherFound
    rw [Nat.ModEq, ExtendibleHashtableBucket.make, Nat.mod_eq_of_lt inside, Nat.mod_eq_of_lt otherInside]
  · rintro key ⟨address, bucket, found, live, member⟩
    obtain ⟨inside, rfl⟩ := entries found
    cases live.symm.trans (make_get inside)
    cases member

/-- The bucket of the key has room, or has at most two entries. -/
def covered (hash : K → UInt64) (directory : ExtendibleHashtableDirectory K V) (key : K) : Bool :=
  match directory.getBucketByKey hash key >>= load directory.heap with
  | .ok bucket => bucket.hasCapacity || directory.globalDepth ≤ bucket.localDepth + 1
  | .error _ => true

/-- The directory is well formed and stores exactly the keys of the calls. -/
structure Holds (hash : K → UInt64) (size : Nat) (calls : List (K × V))
    (directory : ExtendibleHashtableDirectory K V) : Prop where
  wellFormed : WellFormed hash size directory
  narrow : directory.globalDepth < maskWidth
  stores : ∀ key, Stores hash directory key ↔ key ∈ calls.map Prod.fst

theorem Holds.insertCall {fuel : Nat} {calls : List (K × V)} (holds : Holds hash size calls directory)
    (positive : 1 ≤ size) (deep : maskWidth + 2 ≤ fuel) {call : K × V}
    (isCovered : directory.covered hash call.1 = true) :
    (∃ after, directory.insertCall hash fuel call = .ok after ∧ Holds hash size (calls ++ [call]) after) ∨
      ∃ reason, directory.insertCall hash fuel call = .error reason ∧ reason = .overflow := by
  obtain ⟨address, bucket, found, entry⟩ := holds.wellFormed.bucketOf call.1
  have room : bucket.chain.size < size ∨ directory.globalDepth ≤ bucket.localDepth + 1 := by
    simpa [covered, getBucketByKey, getBucketWithIndexByKey_eq holds.narrow found, load_of_get entry.live,
      bind, Except.bind, pure, Except.pure, ExtendibleHashtableBucket.hasCapacity, entry.sized]
      using isCovered
  obtain ⟨fuel, rfl⟩ : ∃ rest, fuel = rest + 1 := ⟨fuel - 1, by omega⟩
  rcases holds.wellFormed.inserted positive call.2 found entry room (Nat.le_add_right_of_le deep) with
    ⟨after, inserted, wellFormed, narrow, stores⟩ | overflow
  · refine Or.inl ⟨after, inserted, wellFormed, narrow, fun key => ?_⟩
    rw [stores, holds.stores, List.map_append, List.mem_append, List.map_singleton, List.mem_singleton,
      or_comm]
  · exact Or.inr ⟨_, overflow, rfl⟩

theorem covered_outcome (hash : K → UInt64) {globalDepth bucketSize fuel : Nat}
    (narrow : globalDepth < maskWidth) (positive : 1 ≤ bucketSize) (deep : maskWidth + 2 ≤ fuel)
    {calls : List (K × V)}
    (isCovered : Meets (insertCall hash fuel) (fun directory call => directory.covered hash call.1 = true)
      (make globalDepth bucketSize) calls) :
    (∃ table, run (insertCall hash fuel) (make globalDepth bucketSize) calls = .ok table ∧
      Holds hash bucketSize calls table) ∨
    ∃ reason, run (insertCall hash fuel) (make globalDepth bucketSize) calls = .error reason ∧
      reason = .overflow := by
  obtain ⟨made, nothing⟩ := make_wellFormed (V := V) hash globalDepth bucketSize
  have start : Holds hash bucketSize [] (make globalDepth bucketSize : ExtendibleHashtableDirectory K V) :=
    ⟨made, by rwa [make_eq], fun key => by simp [nothing key]⟩
  exact run_outcome (insertCall hash fuel) (fun past table => Holds hash bucketSize past table)
    (fun reason => reason = .overflow)
    (fun past table call holds met => holds.insertCall positive deep met) start isCovered

/-- Along every run of insertions whose splits are covered, the only way not to return is
to outgrow the index mask, and the directory stays well formed with exactly the inserted keys. -/
theorem covered_insertions_keep_directory (hash : K → UInt64) {globalDepth bucketSize fuel : Nat}
    (narrow : globalDepth < maskWidth) (positive : 1 ≤ bucketSize) (deep : maskWidth + 2 ≤ fuel)
    {calls : List (K × V)}
    (isCovered : Meets (insertCall hash fuel) (fun directory call => directory.covered hash call.1 = true)
      (make globalDepth bucketSize) calls) :
    (∃ table, run (insertCall hash fuel) (make globalDepth bucketSize) calls = .ok table ∧
      WellFormed hash bucketSize table ∧
      ∀ key, table.contains hash key = .ok (decide (key ∈ calls.map Prod.fst))) ∨
    run (insertCall hash fuel) (make globalDepth bucketSize) calls = .error .overflow := by
  rcases covered_outcome hash narrow positive deep isCovered with
    ⟨table, ran, holds⟩ | ⟨reason, ran, rfl⟩
  · refine Or.inl ⟨table, ran, holds.wellFormed, fun key => ?_⟩
    obtain ⟨found, contained, iff⟩ := holds.wellFormed.contains_eq holds.narrow key
    rw [contained, Bool.eq_iff_iff.mpr (iff.trans ((holds.stores key).trans decide_eq_true_iff.symm))]
  · exact Or.inr ran

/-- A cascade of three splits, and a bucket that four entries share but that has room. -/
theorem covered_insertions_keep_directory_cascade :
    (∃ table, run (insertCall (fun key : Nat => key.toUInt64) 33)
        (make 0 1 : ExtendibleHashtableDirectory Nat Nat) [(0, 0), (4, 0), (1, 0), (2, 0)] = .ok table ∧
      ∀ key, table.contains (fun key : Nat => key.toUInt64) key = .ok (decide (key ∈ [0, 4, 1, 2]))) ∨
    run (insertCall (fun key : Nat => key.toUInt64) 33) (make 0 1 : ExtendibleHashtableDirectory Nat Nat)
      [(0, 0), (4, 0), (1, 0), (2, 0)] = .error .overflow := by
  rcases @covered_insertions_keep_directory Nat Nat _ (fun key : Nat => key.toUInt64) 0 1 33
    (by decide) (by decide) (by decide) [(0, 0), (4, 0), (1, 0), (2, 0)] (by decide +kernel) with ⟨table, ran, _, contains⟩ | overflow
  · exact Or.inl ⟨table, ran, contains⟩
  · exact Or.inr overflow

/-- The split of a bucket that four entries share redirects two of them; the next insertion
through one of the others meets the old bucket again, which is not its own split image. -/
theorem insert_misses_alias :
    run (insertCall (fun key : Nat => key.toUInt64) 33) (make 0 1 : ExtendibleHashtableDirectory Nat Nat)
      [(0, 0), (4, 0), (1, 0), (3, 0), (5, 0)] = .error .assertion := by
  decide +kernel

end Dsac.Hash.ExtendibleHashtableDirectory

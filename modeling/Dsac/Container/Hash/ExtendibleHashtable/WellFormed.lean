import Dsac.Library.SplitImage
import Dsac.Container.Hash.ExtendibleHashtable

namespace Dsac.Hash.ExtendibleHashtableDirectory

open Dsac.Library

/-! The invariant of the directory and what each step of an insertion does to it. -/

variable {K V : Type} [LinearOrder K] {hash : K → UInt64} {size : Nat}
  {directory : ExtendibleHashtableDirectory K V} {index : Nat} {address : Addr}
  {bucket : ExtendibleHashtableBucket K V}

/-- What holds of the bucket at one entry of the directory. -/
structure EntryHolds (hash : K → UInt64) (size : Nat) (directory : ExtendibleHashtableDirectory K V)
    (index : Nat) (address : Addr) (bucket : ExtendibleHashtableBucket K V) : Prop where
  live : directory.heap.get address = some bucket
  shallow : bucket.localDepth ≤ directory.globalDepth
  sized : bucket.bucketSize = size
  bounded : bucket.chain.size ≤ size
  agree : ∀ key, bucket.chain.contains key = true →
    (hash key).toNat ≡ index [MOD 2 ^ bucket.localDepth]
  shared : ∀ other otherAddress, directory.buckets[other]? = some otherAddress →
    (otherAddress = address ↔ other ≡ index [MOD 2 ^ bucket.localDepth])

/-- There are `2 ^ D` entries, and two of them share a bucket of depth `d` exactly when
they agree on their low `d` bits, as all keys of the bucket do. -/
structure WellFormed (hash : K → UInt64) (size : Nat) (directory : ExtendibleHashtableDirectory K V) :
    Prop where
  entries : directory.buckets.length = 2 ^ directory.globalDepth
  entry : ∀ index address, directory.buckets[index]? = some address →
    ∃ bucket, EntryHolds hash size directory index address bucket

def indexOf (hash : K → UInt64) (directory : ExtendibleHashtableDirectory K V) (key : K) : Nat :=
  (hash key).toNat % 2 ^ directory.globalDepth

/-- The key is found in the bucket at the entry of its index. -/
def Stores (hash : K → UInt64) (directory : ExtendibleHashtableDirectory K V) (key : K) : Prop :=
  ∃ address bucket, directory.buckets[directory.indexOf hash key]? = some address ∧
    directory.heap.get address = some bucket ∧ bucket.chain.contains key = true

theorem getBucketWithIndexByKey_eq (narrow : directory.globalDepth < maskWidth) {key : K}
    (found : directory.buckets[directory.indexOf hash key]? = some address) :
    directory.getBucketWithIndexByKey hash key = .ok (address, directory.indexOf hash key) := by
  have masked : (hash key).toNat &&& ((1 <<< directory.globalDepth) - 1) =
      directory.indexOf hash key := by
    rw [Nat.one_shiftLeft, Nat.and_two_pow_sub_one_eq_mod, indexOf]
  simp only [getBucketWithIndexByKey, if_pos narrow, masked, entry, found, bind, Except.bind, pure,
    Except.pure]

theorem getBucketWithIndexByKey_overflow (wide : ¬ directory.globalDepth < maskWidth) (key : K) :
    directory.getBucketWithIndexByKey hash key = .error .overflow := if_neg wide

namespace WellFormed

theorem bucketOf (wellFormed : WellFormed hash size directory) (key : K) :
    ∃ address bucket, directory.buckets[directory.indexOf hash key]? = some address ∧
      EntryHolds hash size directory (directory.indexOf hash key) address bucket := by
  have inside : directory.indexOf hash key < directory.buckets.length := by
    rw [wellFormed.entries]
    exact Nat.mod_lt _ (Nat.two_pow_pos _)
  have found := List.getElem?_eq_getElem inside
  obtain ⟨bucket, holds⟩ := wellFormed.entry _ _ found
  exact ⟨_, bucket, found, holds⟩

theorem contains_eq (wellFormed : WellFormed hash size directory)
    (narrow : directory.globalDepth < maskWidth) (key : K) :
    ∃ found, directory.contains hash key = .ok found ∧ (found = true ↔ Stores hash directory key) := by
  obtain ⟨address, bucket, found, holds⟩ := wellFormed.bucketOf key
  refine ⟨bucket.chain.contains key, ?_, ?_⟩
  · simp only [contains, getBucketByKey, getBucketWithIndexByKey_eq narrow found,
      load_of_get holds.live, bind, Except.bind, pure, Except.pure]
  · constructor
    · exact fun member => ⟨address, bucket, found, holds.live, member⟩
    · rintro ⟨other, otherBucket, otherFound, otherLive, member⟩
      obtain rfl : address = other := Option.some.inj (found.symm.trans otherFound)
      obtain rfl : bucket = otherBucket := Option.some.inj (holds.live.symm.trans otherLive)
      exact member

/-- Two entries with the same address see the same bucket. -/
theorem sameBucket (wellFormed : WellFormed hash size directory)
    (found : directory.buckets[index]? = some address) (live : directory.heap.get address = some bucket) :
    EntryHolds hash size directory index address bucket := by
  obtain ⟨other, holds⟩ := wellFormed.entry index address found
  obtain rfl : other = bucket := Option.some.inj (holds.live.symm.trans live)
  exact holds

/-- Storing a key in a bucket with room. -/
theorem stored (wellFormed : WellFormed hash size directory) {key : K} (value : V)
    (found : directory.buckets[directory.indexOf hash key]? = some address)
    (live : directory.heap.get address = some bucket) (room : bucket.chain.size < size) :
    let after := { directory with
      heap := directory.heap.set address { bucket with chain := bucket.chain.insertOrAssign key value } }
    WellFormed hash size after ∧ ∀ other, Stores hash after other ↔ other = key ∨ Stores hash directory other := by
  intro after
  have inside := Heap.lt_fresh_of_get live
  have written : after.heap.get address =
      some { bucket with chain := bucket.chain.insertOrAssign key value } := Heap.get_set_self inside
  have kept : ∀ other, other ≠ address → after.heap.get other = directory.heap.get other :=
    fun other different => Heap.get_set_of_ne different
  have target := wellFormed.sameBucket found live
  refine ⟨⟨wellFormed.entries, ?_⟩, ?_⟩
  · intro index other otherFound
    by_cases same : other = address
    · subst same
      have holds := wellFormed.sameBucket otherFound live
      refine ⟨_, written, holds.shallow, holds.sized, ?_, ?_, holds.shared⟩
      · exact (OrderedMap.size_insertOrAssign_le ..).trans room
      · intro inserted member
        rcases (OrderedMap.contains_insertOrAssign ..).mp member with rfl | old
        · have low : (hash inserted).toNat ≡ directory.indexOf hash inserted [MOD 2 ^ bucket.localDepth] :=
            ((Nat.mod_modEq _ _).of_dvd (Nat.pow_dvd_pow 2 holds.shallow)).symm
          exact low.trans ((holds.shared _ _ found).mp rfl)
        · exact holds.agree inserted old
    · obtain ⟨otherBucket, holds⟩ := wellFormed.entry index other otherFound
      exact ⟨otherBucket, (kept other same).trans holds.live, holds.shallow, holds.sized, holds.bounded,
        holds.agree, holds.shared⟩
  · intro other
    constructor
    · rintro ⟨otherAddress, otherBucket, otherFound, otherLive, member⟩
      by_cases same : otherAddress = address
      · subst same
        obtain rfl := Option.some.inj (written.symm.trans otherLive)
        rcases (OrderedMap.contains_insertOrAssign ..).mp member with rfl | old
        · exact Or.inl rfl
        · exact Or.inr ⟨otherAddress, bucket, otherFound, live, old⟩
      · exact Or.inr ⟨otherAddress, otherBucket, otherFound, (kept _ same).symm.trans otherLive, member⟩
    · rintro (rfl | ⟨otherAddress, otherBucket, otherFound, otherLive, member⟩)
      · exact ⟨address, _, found, written, (OrderedMap.contains_insertOrAssign ..).mpr (Or.inl rfl)⟩
      · by_cases same : otherAddress = address
        · subst same
          obtain rfl := Option.some.inj (live.symm.trans otherLive)
          exact ⟨otherAddress, _, otherFound, written,
            (OrderedMap.contains_insertOrAssign ..).mpr (Or.inr member)⟩
        · exact ⟨otherAddress, otherBucket, otherFound, (kept _ same).trans otherLive, member⟩

/-- Doubling the directory shares every bucket by one more pair of entries. -/
theorem expanded (wellFormed : WellFormed hash size directory) (depth : Nat) :
    WellFormed hash size (directory.expand depth) ∧
      ∀ key, Stores hash (directory.expand depth) key ↔ Stores hash directory key := by
  rw [expand]
  split
  · have length : (directory.buckets ++ directory.buckets).length = 2 ^ (directory.globalDepth + 1) := by
      rw [List.length_append, wellFormed.entries, Nat.pow_succ, Nat.mul_two]
    -- Entry `i` of the new directory is entry `i mod 2 ^ D` of the old one.
    have target : ∀ index, index < 2 ^ (directory.globalDepth + 1) →
        (directory.buckets ++ directory.buckets)[index]? =
          directory.buckets[index % 2 ^ directory.globalDepth]? := by
      intro index below
      rw [getElem?_append_self _ (by rwa [← List.length_append, length]), wellFormed.entries]
    have source : ∀ index address, (directory.buckets ++ directory.buckets)[index]? = some address →
        directory.buckets[index % 2 ^ directory.globalDepth]? = some address := by
      intro index address found
      rw [← target index (length ▸ (List.getElem?_eq_some_iff.mp found).1), found]
    have low : ∀ index depth, depth ≤ directory.globalDepth →
        index % 2 ^ directory.globalDepth ≡ index [MOD 2 ^ depth] := fun index depth bounded =>
      (Nat.mod_modEq _ _).of_dvd (Nat.pow_dvd_pow 2 bounded)
    have sameIndex : ∀ key, (hash key).toNat % 2 ^ (directory.globalDepth + 1) % 2 ^ directory.globalDepth =
        directory.indexOf hash key := fun key =>
      Nat.mod_mod_of_dvd _ (Nat.pow_dvd_pow 2 (Nat.le_succ _))
    refine ⟨⟨length, ?_⟩, ?_⟩
    · intro index address found
      obtain ⟨bucket, holds⟩ := wellFormed.entry _ _ (source index address found)
      refine ⟨bucket, holds.live, Nat.le_succ_of_le holds.shallow, holds.sized, holds.bounded, ?_, ?_⟩
      · exact fun key member => (holds.agree key member).trans (low index _ holds.shallow)
      · intro other otherAddress otherFound
        rw [holds.shared _ _ (source other otherAddress otherFound)]
        have first := low other _ holds.shallow
        have second := low index _ holds.shallow
        exact ⟨fun agree => first.symm.trans (agree.trans second),
          fun agree => first.trans (agree.trans second.symm)⟩
    · intro key
      constructor
      · rintro ⟨address, bucket, found, live, member⟩
        have old := source _ _ found
        simp only [indexOf, sameIndex] at old
        exact ⟨address, bucket, old, live, member⟩
      · rintro ⟨address, bucket, found, live, member⟩
        refine ⟨address, bucket, ?_, live, member⟩
        rw [indexOf, target _ (Nat.mod_lt _ (Nat.two_pow_pos _)), sameIndex, found]
  · exact ⟨wellFormed, fun key => Iff.rfl⟩

end WellFormed

/-- The directory after a split of the bucket of depth `depth` at `index`: the entries
that shared the bucket have an empty one each, all others are as before. -/
structure SplitAt (size : Nat) (directory after : ExtendibleHashtableDirectory K V) (index depth : Nat) :
    Prop where
  globalDepth : after.globalDepth = directory.globalDepth
  length : after.buckets.length = directory.buckets.length
  empty : ∀ other address, after.buckets[other]? = some address → other ≡ index [MOD 2 ^ depth] →
    after.heap.get address = some (.make (depth + 1) size) ∧
      ∀ third thirdAddress, after.buckets[third]? = some thirdAddress →
        (thirdAddress = address ↔ third = other)
  entry : ∀ other address, ¬ other ≡ index [MOD 2 ^ depth] →
    (after.buckets[other]? = some address ↔ directory.buckets[other]? = some address)
  kept : ∀ other address bucket, ¬ other ≡ index [MOD 2 ^ depth] →
    directory.buckets[other]? = some address → directory.heap.get address = some bucket →
    after.heap.get address = some bucket

/-- A split of a bucket that two entries share. -/
theorem WellFormed.splitAt (wellFormed : WellFormed hash size directory)
    (found : directory.buckets[index]? = some address) (live : directory.heap.get address = some bucket)
    (deepest : directory.globalDepth = bucket.localDepth + 1) :
    ∃ after, directory.split address index = .ok after ∧
      SplitAt size directory after index bucket.localDepth := by
  have holds := wellFormed.sameBucket found live
  obtain rfl := holds.sized
  have length : directory.buckets.length = 2 ^ (bucket.localDepth + 1) := by
    rw [wellFormed.entries, deepest]
  have inside : ∀ {other otherAddress : Nat}, directory.buckets[other]? = some otherAddress →
      other < 2 ^ (bucket.localDepth + 1) := fun entry => length ▸ (List.getElem?_eq_some_iff.mp entry).1
  set image := index ^^^ 2 ^ bucket.localDepth with imageDef
  have imageNe : image ≠ index := splitImage_ne index bucket.localDepth
  have imageAgrees : image ≡ index [MOD 2 ^ bucket.localDepth] := splitImage_modEq index bucket.localDepth
  have imageFound : directory.buckets[image]? = some address := by
    obtain ⟨other, otherFound⟩ : ∃ other, directory.buckets[image]? = some other :=
      ⟨_, List.getElem?_eq_getElem (length ▸ splitImage_lt (inside found))⟩
    rw [otherFound, (holds.shared image other otherFound).mpr imageAgrees]
  set raised : ExtendibleHashtableBucket K V := { bucket with localDepth := bucket.localDepth + 1 }
  set empty : ExtendibleHashtableBucket K V := .make (bucket.localDepth + 1) bucket.bucketSize
  set heap := ((directory.heap.set address raised).alloc empty).alloc empty with heapDef
  set first := directory.heap.fresh with firstDef
  have firstFresh : (directory.heap.set address raised).fresh = first := Heap.fresh_set
  have secondFresh : ((directory.heap.set address raised).alloc empty).fresh = first + 1 := by
    rw [Heap.fresh_alloc, firstFresh]
  have firstEmpty : heap.get first = some empty := by
    rw [heapDef, Heap.get_alloc_of_ne (by rw [secondFresh]; exact (Nat.lt_succ_self _).ne), ← firstFresh,
      Heap.get_alloc_fresh]
  have secondEmpty : heap.get (first + 1) = some empty := by
    rw [heapDef, ← secondFresh, Heap.get_alloc_fresh]
  have kept : ∀ other otherBucket, other ≠ address → directory.heap.get other = some otherBucket →
      heap.get other = some otherBucket := by
    intro other otherBucket different otherLive
    have below : other < first := Heap.lt_fresh_of_get otherLive
    rw [heapDef, Heap.get_alloc_of_ne (by rw [secondFresh]; exact (Nat.lt_succ_of_lt below).ne),
      Heap.get_alloc_of_ne (by rw [firstFresh]; exact below.ne), Heap.get_set_of_ne different, otherLive]
  set buckets := (directory.buckets.set image first).set index (first + 1) with bucketsDef
  have entryEq : ∀ other, buckets[other]? = if other = index then some (first + 1)
      else if other = image then some first else directory.buckets[other]? := by
    intro other
    rw [bucketsDef]
    by_cases isIndex : other = index
    · rw [if_pos isIndex, isIndex, List.getElem?_set_self]
      rw [List.length_set, length]
      exact inside found
    · rw [if_neg isIndex, List.getElem?_set_ne (Ne.symm isIndex)]
      by_cases isImage : other = image
      · rw [if_pos isImage, isImage, List.getElem?_set_self (length ▸ inside imageFound)]
      · rw [if_neg isImage, List.getElem?_set_ne (Ne.symm isImage)]
  have old : ∀ (other : Nat) (otherAddress : Addr), directory.buckets[other]? = some otherAddress → otherAddress < first := by
    intro other otherAddress entry
    obtain ⟨otherBucket, otherHolds⟩ := wellFormed.entry other otherAddress entry
    exact Heap.lt_fresh_of_get otherHolds.live
  have apart : ∀ other, ¬ other ≡ index [MOD 2 ^ bucket.localDepth] → other ≠ index ∧ other ≠ image :=
    fun other disagree => ⟨fun same => disagree (same ▸ rfl), fun same => disagree (same ▸ imageAgrees)⟩
  refine ⟨{ directory with heap, buckets }, ?_, rfl, by simp [bucketsDef], ?_, ?_, ?_⟩
  · have imageEntry : directory.entry image = .ok address := by
      rw [ExtendibleHashtableDirectory.entry, imageFound]
    simp only [split, load_of_get live, store_of_get live, Nat.add_sub_cancel, Nat.one_shiftLeft, ← imageDef,
      imageEntry, ne_eq, not_true_eq_false, if_false, bind, Except.bind, pure, Except.pure]
    rw [firstFresh, secondFresh]
  · intro other otherAddress entry agree
    have shape : (other = index ∧ otherAddress = first + 1) ∨ (other = image ∧ otherAddress = first) := by
      rw [entryEq] at entry
      split_ifs at entry with isIndex isImage
      · exact Or.inl ⟨isIndex, (Option.some.inj entry).symm⟩
      · exact Or.inr ⟨isImage, (Option.some.inj entry).symm⟩
      · rcases eq_or_splitImage (inside found) (inside entry) agree with same | same
        · exact absurd same isIndex
        · exact absurd same isImage
    refine ⟨by rcases shape with ⟨_, rfl⟩ | ⟨_, rfl⟩ <;> assumption, ?_⟩
    intro third thirdAddress thirdEntry
    rw [entryEq] at thirdEntry
    split_ifs at thirdEntry with isIndex isImage
    · rcases shape with ⟨rfl, rfl⟩ | ⟨rfl, rfl⟩ <;> cases thirdEntry <;> simp [isIndex, imageNe.symm]
    · rcases shape with ⟨rfl, rfl⟩ | ⟨rfl, rfl⟩ <;> cases thirdEntry <;> simp [isImage, imageNe]
    · have below := old third thirdAddress thirdEntry
      rcases shape with ⟨rfl, rfl⟩ | ⟨rfl, rfl⟩
      · simp [isIndex, (Nat.lt_succ_of_lt below).ne]
      · simp [isImage, below.ne]
  · intro other otherAddress disagree
    obtain ⟨notIndex, notImage⟩ := apart other disagree
    simp only [entryEq, if_neg notIndex, if_neg notImage]
  · intro other otherAddress otherBucket disagree entry otherLive
    exact kept otherAddress otherBucket
      (fun same => disagree ((holds.shared other otherAddress entry).mp same)) otherLive

theorem SplitAt.wellFormed {after : ExtendibleHashtableDirectory K V}
    (splitted : SplitAt size directory after index bucket.localDepth)
    (wellFormed : WellFormed hash size directory)
    (origin : EntryHolds hash size directory index address bucket)
    (deepest : directory.globalDepth = bucket.localDepth + 1) : WellFormed hash size after := by
  refine ⟨by rw [splitted.length, splitted.globalDepth, wellFormed.entries], ?_⟩
  intro other otherAddress entry
  by_cases agree : other ≡ index [MOD 2 ^ bucket.localDepth]
  · obtain ⟨live, unique⟩ := splitted.empty other otherAddress entry agree
    refine ⟨_, live, ?_, rfl, Nat.zero_le _, ?_, ?_⟩
    · rw [splitted.globalDepth, deepest]
      exact Nat.le_refl _
    · intro key member
      cases member
    · intro third thirdAddress thirdEntry
      have bounded : ∀ {i : Nat} {a : Addr}, after.buckets[i]? = some a → i < 2 ^ (bucket.localDepth + 1) := by
        intro i a found
        rw [← deepest, ← wellFormed.entries, ← splitted.length]
        exact (List.getElem?_eq_some_iff.mp found).1
      rw [unique third thirdAddress thirdEntry]
      constructor
      · rintro rfl
        rfl
      · intro agree
        rwa [Nat.ModEq, ExtendibleHashtableBucket.make, Nat.mod_eq_of_lt (bounded thirdEntry),
          Nat.mod_eq_of_lt (bounded entry)] at agree
  · have old := (splitted.entry other otherAddress agree).mp entry
    obtain ⟨otherBucket, holds⟩ := wellFormed.entry other otherAddress old
    refine ⟨otherBucket, splitted.kept other otherAddress otherBucket agree old holds.live, ?_, holds.sized,
      holds.bounded, holds.agree, ?_⟩
    · rw [splitted.globalDepth]
      exact holds.shallow
    · intro third thirdAddress thirdEntry
      by_cases thirdAgree : third ≡ index [MOD 2 ^ bucket.localDepth]
      · -- A split entry shares with no other entry, before the split as after it.
        have unique := (splitted.empty third thirdAddress thirdEntry thirdAgree).2 other otherAddress entry
        have oldThird : ∃ oldAddress, directory.buckets[third]? = some oldAddress :=
          ⟨_, List.getElem?_eq_getElem (splitted.length ▸ (List.getElem?_eq_some_iff.mp thirdEntry).1)⟩
        obtain ⟨oldAddress, oldThird⟩ := oldThird
        obtain rfl := (origin.shared third oldAddress oldThird).mpr thirdAgree
        constructor
        · intro same
          exact absurd (unique.mp same.symm ▸ thirdAgree) agree
        · intro close
          have same := (holds.shared third oldAddress oldThird).mpr close
          exact absurd ((origin.shared other otherAddress old).mp same.symm) agree
      · exact holds.shared third thirdAddress ((splitted.entry third thirdAddress thirdAgree).mp thirdEntry)

/-- The keys of the bucket that is split are no longer stored. -/
theorem SplitAt.stores_iff {after : ExtendibleHashtableDirectory K V}
    (splitted : SplitAt size directory after index bucket.localDepth)
    (wellFormed : WellFormed hash size directory)
    (deepest : directory.globalDepth = bucket.localDepth + 1) (key : K) :
    Stores hash after key ↔
      Stores hash directory key ∧ ¬ (hash key).toNat ≡ index [MOD 2 ^ bucket.localDepth] := by
  have sameIndex : after.indexOf hash key = directory.indexOf hash key := by
    rw [indexOf, indexOf, splitted.globalDepth]
  have low : directory.indexOf hash key ≡ (hash key).toNat [MOD 2 ^ bucket.localDepth] :=
    (Nat.mod_modEq _ _).of_dvd (Nat.pow_dvd_pow 2 (by omega))
  constructor
  · rintro ⟨address, held, found, live, member⟩
    rw [sameIndex] at found
    by_cases agree : directory.indexOf hash key ≡ index [MOD 2 ^ bucket.localDepth]
    · have empty := (splitted.empty _ _ found agree).1
      cases live.symm.trans empty
      cases member
    · have old := (splitted.entry _ _ agree).mp found
      obtain ⟨oldBucket, holds⟩ := wellFormed.entry _ _ old
      obtain rfl := Option.some.inj (live.symm.trans (splitted.kept _ _ _ agree old holds.live))
      exact ⟨⟨address, held, old, holds.live, member⟩, fun close => agree (low.trans close)⟩
  · rintro ⟨⟨address, held, found, live, member⟩, disagree⟩
    have agree : ¬ directory.indexOf hash key ≡ index [MOD 2 ^ bucket.localDepth] := fun close =>
      disagree (low.symm.trans close)
    refine ⟨address, held, ?_, splitted.kept _ _ _ agree found live, member⟩
    rw [sameIndex]
    exact (splitted.entry _ _ agree).mpr found

end Dsac.Hash.ExtendibleHashtableDirectory

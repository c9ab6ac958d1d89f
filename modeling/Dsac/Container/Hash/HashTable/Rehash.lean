import Dsac.Container.Hash.HashTable.Bindings

namespace Dsac.Hash.HashTable

open Dsac.Library

/-! A rehash rebuilds the chains under a new modulus and deletes the old ones. -/

variable {Key Value : Type} {heap : Heap (ChainNode Key Value)} {pointer : Option Addr}
  {entries rest : List (Entry Key Value)} {entry : Entry Key Value}

/-! The destruction of the old chains. -/

/-- The second heap has lost at most the given nodes. -/
def Frees (old new : Heap (ChainNode Key Value)) (freed : List (Entry Key Value)) : Prop :=
  ∀ address ∉ freed.map Prod.fst, new.get address = old.get address

theorem destroyNode_chain {fuel : Nat} (chain : Chain (cellOf heap) pointer (entry :: rest))
    (enough : rest.length < fuel) :
    ∃ new, destroyNode fuel heap entry.1 = .ok new ∧ Frees heap new rest := by
  induction rest generalizing pointer entry fuel with
  | nil =>
      obtain ⟨_, next, stored, rfl⟩ := chain
      cases fuel with
      | zero => cases enough
      | succ fuel =>
          refine ⟨heap, ?_, fun _ _ => rfl⟩
          simp only [destroyNode, load_of_get (exists_of_cellOf stored), bind, Except.bind]
          rfl
  | cons second rest ih =>
      obtain ⟨_, next, stored, tail⟩ := chain
      cases fuel with
      | zero => cases enough
      | succ fuel =>
          obtain ⟨middle, destroyed, frees⟩ := ih tail (Nat.lt_of_succ_lt_succ enough)
          obtain ⟨node, live⟩ := get_of_chain tail List.mem_cons_self
          have kept := frees second.1 (List.nodup_cons.mp tail.nodup).1
          refine ⟨middle.free second.1, ?_, fun address outside => ?_⟩
          · simp only [destroyNode, load_of_get (exists_of_cellOf stored), bind, Except.bind, tail.1,
              destroyed, destroy_of_get (kept.trans live)]
          · rw [List.map_cons, List.mem_cons, not_or] at outside
            exact (Heap.get_free_of_ne outside.1).trans (frees address outside.2)

/-- One bucket with its chain. -/
abbrev Bucket (Key Value : Type) := Option Addr × List (Entry Key Value)

theorem destroyImpl_chains (buckets : List (Bucket Key Value))
    (linked : ∀ bucket ∈ buckets, Chain (cellOf heap) bucket.1 bucket.2)
    (distinct : ((buckets.flatMap Prod.snd).map Prod.fst).Nodup) :
    ∃ new, destroyImpl heap (buckets.map Prod.fst) = .ok new ∧ Frees heap new (buckets.flatMap Prod.snd) := by
  induction buckets generalizing heap with
  | nil => exact ⟨heap, rfl, fun _ _ => rfl⟩
  | cons bucket buckets ih =>
      obtain ⟨pointer, entries⟩ := bucket
      have chain := linked _ List.mem_cons_self
      rw [List.flatMap_cons, List.map_append] at distinct
      have apart := List.disjoint_of_nodup_append distinct
      have others := distinct.of_append_right
      -- the first chain goes, and leaves the others as they are
      have later : ∀ {middle}, Frees heap middle entries →
          ∃ new, destroyImpl middle (buckets.map Prod.fst) = .ok new ∧
            Frees heap new (entries ++ buckets.flatMap Prod.snd) := by
        intro middle frees
        obtain ⟨new, destroyed, freesLater⟩ := ih (fun bucket member =>
          (linked bucket (List.mem_cons_of_mem _ member)).congr fun entry inside =>
            cellOf_congr (frees entry.1 fun freed => apart freed
              (List.mem_map_of_mem (List.mem_flatMap.mpr ⟨bucket, member, inside⟩)))) others
        refine ⟨new, destroyed, fun address outside => ?_⟩
        rw [List.map_append, List.mem_append, not_or] at outside
        exact (freesLater address outside.2).trans (frees address outside.1)
      cases entries with
      | nil =>
          cases chain
          exact later fun _ _ => rfl
      | cons entry rest =>
          obtain ⟨middle, destroyed, frees⟩ := destroyNode_chain chain
            (show rest.length < depthBound heap from length_le_depthBound chain)
          obtain ⟨node, live⟩ := get_of_chain chain List.mem_cons_self
          have kept := frees entry.1 (List.nodup_cons.mp chain.nodup).1
          obtain ⟨new, destroyedLater, freesAll⟩ := @later (middle.free entry.1) fun address outside => by
            rw [List.map_cons, List.mem_cons, not_or] at outside
            exact (Heap.get_free_of_ne outside.1).trans (frees address outside.2)
          refine ⟨new, ?_, freesAll⟩
          have first : pointer = some entry.1 := chain.1
          subst first
          simp only [destroyImpl, List.map_cons, List.foldlM_cons, destroyed, bind, Except.bind,
            destroy_of_get (kept.trans live)]
          exact destroyedLater

/-! The insertion of the old entries into the new chains. -/

variable [BEq Key] {hash : Key → Nat} {table : HashTable Key Value}
  {chains : Nat → List (Entry Key Value)} {map : Key → Option Value}

/-- What every insertion of an entry keeps, in terms of the entries inserted so far. -/
def Carries (hash : Key → Nat)
    (invariant : List (Entry Key Value) → HashTable Key Value → (Nat → List (Entry Key Value)) → Prop) : Prop :=
  ∀ past table chains entry, Represents hash table chains → invariant past table chains →
    ∃ next later, table.insertImpl hash entry.2.1 entry.2.2 = .ok next ∧
      Reaches hash table next chains later ∧ invariant (past ++ [entry]) next later

section

variable
  {invariant : List (Entry Key Value) → HashTable Key Value → (Nat → List (Entry Key Value)) → Prop}
  {past : List (Entry Key Value)}

theorem reinsert_reaches {fuel : Nat} (carries : Carries hash invariant)
    (represents : Represents hash table chains) (holds : invariant past table chains)
    (chain : Chain (cellOf table.heap) pointer entries)
    (outside : ∀ entry ∈ entries, ¬ Owns chains entry.1) (enough : entries.length ≤ fuel) :
    ∃ next later, reinsert hash fuel table pointer = .ok next ∧ Reaches hash table next chains later ∧
      invariant (past ++ entries) next later := by
  induction entries generalizing table chains pointer fuel past with
  | nil =>
      cases chain
      refine ⟨table, chains, ?_, .refl represents, by rwa [List.append_nil]⟩
      cases fuel <;> rfl
  | cons entry rest ih =>
      obtain ⟨rfl, next, stored, tail⟩ := chain
      cases fuel with
      | zero => cases enough
      | succ fuel =>
          have live := exists_of_cellOf stored
          obtain ⟨middle, between, inserted, reaches, held⟩ := carries past table chains entry represents holds
          have kept := reaches.frame entry.1 (outside entry List.mem_cons_self) (Heap.lt_fresh_of_get live)
          have restLive : ∀ one ∈ rest, one.1 < table.heap.fresh := fun one member => by
            obtain ⟨_, oneLive⟩ := get_of_chain tail member
            exact Heap.lt_fresh_of_get oneLive
          have tailKept := tail.congr fun one member => cellOf_congr
            (reaches.frame one.1 (outside one (List.mem_cons_of_mem _ member)) (restLive one member))
          obtain ⟨last, later, ran, reachesLater, heldLater⟩ := ih reaches.represents held tailKept
            (fun one member owns => (reaches.owned one.1 owns).elim
              (outside one (List.mem_cons_of_mem _ member)) (Nat.not_le_of_lt (restLive one member)))
            (Nat.le_of_succ_le_succ enough)
          rw [List.append_assoc, List.singleton_append] at heldLater
          refine ⟨last, later, ?_, reaches.trans reachesLater, heldLater⟩
          simp only [reinsert, load_of_get live, bind, Except.bind, inserted,
            load_of_get (kept.trans live), ran]

/-- The loops of `Rehash` insert the old entries one after the other. -/
theorem reinsertAll_reaches {fuel : Nat} (carries : Carries hash invariant)
    (buckets : List (Bucket Key Value)) (represents : Represents hash table chains)
    (holds : invariant past table chains)
    (linked : ∀ bucket ∈ buckets, Chain (cellOf table.heap) bucket.1 bucket.2)
    (outside : ∀ bucket ∈ buckets, ∀ entry ∈ bucket.2, ¬ Owns chains entry.1)
    (enough : ∀ bucket ∈ buckets, bucket.2.length ≤ fuel) :
    ∃ next later, (buckets.map Prod.fst).foldlM (reinsert hash fuel) table = .ok next ∧
      Reaches hash table next chains later ∧ invariant (past ++ buckets.flatMap Prod.snd) next later := by
  induction buckets generalizing table chains past with
  | nil => exact ⟨table, chains, rfl, .refl represents, by rwa [List.flatMap_nil, List.append_nil]⟩
  | cons bucket buckets ih =>
      obtain ⟨middle, between, ran, reaches, held⟩ := reinsert_reaches carries represents holds
        (linked bucket List.mem_cons_self) (outside bucket List.mem_cons_self)
        (enough bucket List.mem_cons_self)
      have live : ∀ other ∈ buckets, ∀ entry ∈ other.2, entry.1 < table.heap.fresh := fun other member entry inside => by
        obtain ⟨_, entryLive⟩ := get_of_chain (linked other (List.mem_cons_of_mem _ member)) inside
        exact Heap.lt_fresh_of_get entryLive
      obtain ⟨last, later, ranLater, reachesLater, heldLater⟩ := ih reaches.represents held
        (fun other member => (linked other (List.mem_cons_of_mem _ member)).congr fun entry inside =>
          cellOf_congr (reaches.frame entry.1 (outside other (List.mem_cons_of_mem _ member) entry inside)
            (live other member entry inside)))
        (fun other member entry inside owns => (reaches.owned entry.1 owns).elim
          (outside other (List.mem_cons_of_mem _ member) entry inside)
          (Nat.not_le_of_lt (live other member entry inside)))
        (fun other member => enough other (List.mem_cons_of_mem _ member))
      rw [List.append_assoc, ← List.flatMap_cons] at heldLater
      refine ⟨last, later, ?_, reaches.trans reachesLater, heldLater⟩
      simp only [List.map_cons, List.foldlM_cons, ran, bind, Except.bind]
      exact ranLater

end

def bindEntry (map : Key → Option Value) (entry : Entry Key Value) : Key → Option Value :=
  rebind map entry.2.1 (some entry.2.2)

/-- The insertions bind the entries one after the other. -/
theorem carries_bindings [EquivBEq Key]
    (consistent : ∀ first second : Key, (first == second) = true → hash first = hash second)
    (length : Nat) (map : Key → Option Value) :
    Carries hash fun past (table : HashTable Key Value) chains => table.hashtable_.length = length ∧
      contents hash length chains = past.foldl bindEntry map := by
  rintro past table chains entry represents ⟨rfl, bound⟩
  obtain ⟨next, later, inserted, reaches, rebound⟩ :=
    insertImpl_reaches consistent represents entry.2.1 entry.2.2
  refine ⟨next, later, inserted, reaches, reaches.length, ?_⟩
  rw [rebound, bound, List.foldl_append]
  rfl

/-! The old entries all have different keys, so the new table stores the same map. -/

theorem foldl_bindEntry [EquivBEq Key]
    (keys : entries.Pairwise fun first second => (first.2.1 == second.2.1) = false) :
    entries.foldl bindEntry map = fun key => (lookup entries key).or (map key) := by
  induction entries generalizing map with
  | nil => rfl
  | cons entry rest ih =>
      obtain ⟨apart, others⟩ := List.pairwise_cons.mp keys
      rw [List.foldl_cons, ih others]
      funext key
      rw [bindEntry, rebind]
      split
      next same =>
          have lacks : Lacks rest key := Lacks.of_beq (fun one member => by
            rw [BEq.comm]
            exact apart one member) same
          rw [lookup_of_lacks lacks, lookup_cons_of_pos same]
          rfl
      next different => rw [lookup_cons_of_neg (Bool.eq_false_iff.mpr different)]

section

variable (consistent : ∀ first second : Key, (first == second) = true → hash first = hash second)
include consistent

theorem Represents.lacks_of_ne (represents : Represents hash table chains) {index : Nat} {key : Key}
    (elsewhere : index ≠ hash key % table.hashtable_.length) : Lacks (chains index) key :=
  fun entry member => Bool.eq_false_iff.mpr fun same => elsewhere (by
    rw [← represents.homed index entry member, consistent entry.2.1 key same])

theorem Represents.lookup_flatMap (represents : Represents hash table chains) (key : Key)
    (indices : List Nat) :
    lookup (indices.flatMap chains) key =
      if hash key % table.hashtable_.length ∈ indices then contents hash table.hashtable_.length chains key
      else none := by
  induction indices with
  | nil => rfl
  | cons index indices ih =>
      rw [List.flatMap_cons, lookup_append, ih]
      by_cases here : hash key % table.hashtable_.length = index
      · subst here
        rw [if_pos List.mem_cons_self]
        show (contents hash table.hashtable_.length chains key).or _ = _
        split
        · exact Option.or_self
        · exact Option.or_none
      · rw [lookup_of_lacks (represents.lacks_of_ne consistent (Ne.symm here)), Option.none_or]
        simp only [List.mem_cons, here, false_or]

end

theorem Represents.pairwise_flatMap [EquivBEq Key] (represents : Represents hash table chains)
    (consistent : ∀ first second : Key, (first == second) = true → hash first = hash second) (count : Nat) :
    ((List.range count).flatMap chains).Pairwise fun first second => (first.2.1 == second.2.1) = false := by
  refine List.pairwise_flatMap.mpr ⟨fun index _ => represents.keys index,
    List.nodup_range.imp fun different one oneIn two twoIn => Bool.eq_false_iff.mpr fun same => different ?_⟩
  rw [← represents.homed _ one oneIn, ← represents.homed _ two twoIn, consistent _ _ same]

theorem Represents.nodup_flatMap (represents : Represents hash table chains) (count : Nat) :
    (((List.range count).flatMap chains).map Prod.fst).Nodup := by
  rw [List.Nodup, List.pairwise_map]
  refine List.pairwise_flatMap.mpr ⟨fun index _ => List.pairwise_map.mp (represents.linked index).nodup,
    List.nodup_range.imp fun different one oneIn two twoIn => represents.apart _ _ different one oneIn two twoIn⟩

theorem Represents.frees (represents : Represents hash table chains) {freed : List (Entry Key Value)}
    (frees : Frees table.heap heap freed) (kept : ∀ entry ∈ freed, ¬ Owns chains entry.1) :
    Represents hash { table with heap } chains where
  sized := represents.sized
  linked index := (represents.linked index).congr fun entry member => cellOf_congr (frees entry.1 fun gone => by
    obtain ⟨old, oldIn, same⟩ := List.mem_map.mp gone
    exact kept old oldIn ⟨index, entry, member, same.symm⟩)
  apart := represents.apart
  homed := represents.homed
  keys := represents.keys

theorem represents_empty (heap : Heap (ChainNode Key Value)) (buffer_size_ : Int) {count : Nat}
    (some : 0 < count) :
    Represents hash (⟨heap, buffer_size_, List.replicate count none⟩ : HashTable Key Value) fun _ => [] where
  sized := by rwa [List.length_replicate]
  linked index := by
    show (List.replicate count (none : Option Addr))[index]?.join = none
    rw [List.getElem?_replicate]
    split <;> rfl
  apart _ _ _ _ member := nomatch member
  homed _ _ member := nomatch member
  keys _ := List.Pairwise.nil

theorem map_getElem?_join (pointers : List (Option Addr)) :
    (List.range pointers.length).map (fun index => pointers[index]?.join) = pointers := by
  refine List.ext_getElem (by simp) fun index _ inside => ?_
  rw [List.getElem_map, List.getElem_range, List.getElem?_eq_getElem inside]
  rfl

/-- A rehash inserts all entries into twice as many empty buckets. -/
theorem rehash_reaches
    {invariant : List (Entry Key Value) → HashTable Key Value → (Nat → List (Entry Key Value)) → Prop}
    (carries : Carries hash invariant) (represents : Represents hash table chains)
    (holds : invariant [] { table with hashtable_ := List.replicate (table.hashtable_.length * 2) none }
      fun _ => []) :
    ∃ middle later heap, table.rehash hash = .ok { middle with heap } ∧
      middle.hashtable_.length = table.hashtable_.length * 2 ∧ Represents hash { middle with heap } later ∧
      invariant ((List.range table.hashtable_.length).flatMap chains) middle later := by
  let buckets : List (Bucket Key Value) :=
    (List.range table.hashtable_.length).map fun index => (table.hashtable_[index]?.join, chains index)
  have pointers : buckets.map Prod.fst = table.hashtable_ := by
    rw [List.map_map]
    exact map_getElem?_join table.hashtable_
  have entries : buckets.flatMap Prod.snd = (List.range table.hashtable_.length).flatMap chains :=
    List.flatMap_map ..
  have linked : ∀ bucket ∈ buckets, Chain (cellOf table.heap) bucket.1 bucket.2 := by
    intro bucket member
    obtain ⟨index, _, rfl⟩ := List.mem_map.mp member
    exact represents.linked index
  have old : ∀ entry ∈ buckets.flatMap Prod.snd, entry.1 < table.heap.fresh := by
    intro entry member
    obtain ⟨bucket, bucketIn, inside⟩ := List.mem_flatMap.mp member
    obtain ⟨_, live⟩ := get_of_chain (linked bucket bucketIn) inside
    exact Heap.lt_fresh_of_get live
  have double : 0 < table.hashtable_.length * 2 := Nat.mul_pos represents.sized Nat.two_pos
  have nobody : ∀ address, ¬ Owns (fun _ => ([] : List (Entry Key Value))) address := by
    rintro address ⟨_, _, member, _⟩
    cases member
  obtain ⟨middle, later, ran, reaches, held⟩ := reinsertAll_reaches carries buckets
    (represents_empty table.heap table.buffer_size_ double) holds linked (fun _ _ entry _ => nobody entry.1)
    fun bucket member => length_le_depthBound (linked bucket member)
  obtain ⟨heap, destroyed, frees⟩ := destroyImpl_chains buckets
    (fun bucket member => (linked bucket member).congr fun entry inside => cellOf_congr
      (reaches.frame entry.1 (nobody entry.1) (old entry (List.mem_flatMap.mpr ⟨bucket, member, inside⟩))))
    (by rw [entries]; exact represents.nodup_flatMap _)
  have kept : ∀ entry ∈ buckets.flatMap Prod.snd, ¬ Owns later entry.1 := fun entry member owns =>
    (reaches.owned entry.1 owns).elim (nobody entry.1) (Nat.not_le_of_lt (old entry member))
  rw [List.nil_append, entries] at held
  refine ⟨middle, later, heap, ?_, reaches.length.trans List.length_replicate,
    reaches.represents.frees frees kept, held⟩
  rw [pointers] at ran destroyed
  simp only [rehash, ran, destroyed, bind, Except.bind]
  rfl

/-- **A rehash keeps the map.** -/
theorem rehash_represents [EquivBEq Key]
    (consistent : ∀ first second : Key, (first == second) = true → hash first = hash second)
    (represents : Represents hash table chains) :
    ∃ next later, table.rehash hash = .ok next ∧ Represents hash next later ∧
      contents hash next.hashtable_.length later = contents hash table.hashtable_.length chains := by
  obtain ⟨middle, later, heap, ran, length, representsNext, _, bound⟩ :=
    rehash_reaches (carries_bindings consistent _ fun _ => none) represents ⟨List.length_replicate, rfl⟩
  refine ⟨{ middle with heap }, later, ran, representsNext, ?_⟩
  show contents hash middle.hashtable_.length later = _
  rw [length, bound, foldl_bindEntry (represents.pairwise_flatMap consistent _)]
  funext key
  rw [represents.lookup_flatMap consistent key, if_pos (List.mem_range.mpr (Nat.mod_lt _ represents.sized))]
  exact Option.or_none

end Dsac.Hash.HashTable

import Dsac.Container.Hash.HashTable.Chains

namespace Dsac.Hash.HashTable

open Dsac.Library

/-! The invariant of the table, and the edits of one bucket. -/

variable {Key Value : Type}

/-- An address belongs to one of the chains. -/
def Owns (chains : Nat → List (Entry Key Value)) (address : Addr) : Prop :=
  ∃ index, ∃ entry ∈ chains index, entry.1 = address

theorem owned_concat {chain : List (Entry Key Value)} {fresh : Addr} {key : Key} {value : Value}
    {one : Entry Key Value} (member : one ∈ chain ++ [(fresh, key, value)]) :
    (∃ old ∈ chain, old.1 = one.1) ∨ fresh ≤ one.1 := by
  rcases List.mem_append.mp member with old | new
  · exact Or.inl ⟨one, old, rfl⟩
  · rw [List.mem_singleton.mp new]
    exact Or.inr (Nat.le_refl fresh)

variable [BEq Key]

/-- The invariant: the buckets link disjoint chains, each of entries that hash to its index,
with distinct keys. -/
structure Represents (hash : Key → Nat) (table : HashTable Key Value)
    (chains : Nat → List (Entry Key Value)) : Prop where
  sized : 0 < table.hashtable_.length
  linked : ∀ index, Chain (cellOf table.heap) table.hashtable_[index]?.join (chains index)
  apart : ∀ first second, first ≠ second → ∀ one ∈ chains first, ∀ two ∈ chains second, one.1 ≠ two.1
  homed : ∀ index, ∀ entry ∈ chains index, hash entry.2.1 % table.hashtable_.length = index
  keys : ∀ index, (chains index).Pairwise fun first second => (first.2.1 == second.2.1) = false

/-- The map that the chains store. -/
def contents (hash : Key → Nat) (length : Nat) (chains : Nat → List (Entry Key Value)) (key : Key) :
    Option Value := lookup (chains (hash key % length)) key

/-- The map after a key is bound to a value, or unbound. -/
def rebind (map : Key → Option Value) (key : Key) (result : Option Value) (other : Key) : Option Value :=
  if key == other then result else map other

/-- A table with other chains, in memory that was the table's own or is new. -/
structure Reaches (hash : Key → Nat) (table next : HashTable Key Value)
    (chains later : Nat → List (Entry Key Value)) : Prop where
  represents : Represents hash next later
  length : next.hashtable_.length = table.hashtable_.length
  frame : ∀ address, ¬ Owns chains address → address < table.heap.fresh →
    next.heap.get address = table.heap.get address
  owned : ∀ address, Owns later address → Owns chains address ∨ table.heap.fresh ≤ address
  grown : table.heap.fresh ≤ next.heap.fresh

variable {hash : Key → Nat} {table middle next : HashTable Key Value}
  {chains between later : Nat → List (Entry Key Value)} {entries before after : List (Entry Key Value)}
  {entry : Entry Key Value} {index : Nat} {key other : Key} {value : Value} {address : Addr}

theorem Reaches.refl (represents : Represents hash table chains) : Reaches hash table table chains chains :=
  ⟨represents, rfl, fun _ _ _ => rfl, fun _ => Or.inl, Nat.le_refl _⟩

theorem Reaches.trans (first : Reaches hash table middle chains between)
    (second : Reaches hash middle next between later) : Reaches hash table next chains later where
  represents := second.represents
  length := second.length.trans first.length
  frame address outside old := by
    have still : ¬ Owns between address := fun owns =>
      (first.owned address owns).elim outside (Nat.not_le_of_lt old)
    exact (second.frame address still (Nat.lt_of_lt_of_le old first.grown)).trans
      (first.frame address outside old)
  owned address owns := by
    rcases second.owned address owns with inside | new
    · exact first.owned address inside
    · exact Or.inr (first.grown.trans new)
  grown := first.grown.trans second.grown

namespace Represents

theorem bucketAt_eq (represents : Represents hash table chains) (key : Key) :
    bucketAt table.hashtable_ (table.hashing hash key) =
      .ok table.hashtable_[table.hashing hash key]?.join := by
  have inside : table.hashing hash key < table.hashtable_.length := Nat.mod_lt _ represents.sized
  rw [bucketAt, List.getElem?_eq_getElem inside]
  rfl

theorem owns_live (represents : Represents hash table chains) (owns : Owns chains address) :
    address < table.heap.fresh := by
  obtain ⟨index, entry, member, rfl⟩ := owns
  obtain ⟨_, live⟩ := get_of_chain (represents.linked index) member
  exact Heap.lt_fresh_of_get live

/-- One chain is replaced. -/
theorem update (represents : Represents hash table chains)
    (length : next.hashtable_.length = table.hashtable_.length)
    (others : ∀ other, other ≠ index → next.hashtable_[other]? = table.hashtable_[other]?)
    (frame : ∀ address, (∀ entry ∈ chains index, entry.1 ≠ address) → address < table.heap.fresh →
      next.heap.get address = table.heap.get address)
    (grown : table.heap.fresh ≤ next.heap.fresh)
    (chain : Chain (cellOf next.heap) next.hashtable_[index]?.join entries)
    (owned : ∀ entry ∈ entries, (∃ old ∈ chains index, old.1 = entry.1) ∨ table.heap.fresh ≤ entry.1)
    (homed : ∀ entry ∈ entries, hash entry.2.1 % table.hashtable_.length = index)
    (keys : entries.Pairwise fun first second => (first.2.1 == second.2.1) = false) :
    Reaches hash table next chains (Function.update chains index entries) := by
  have elsewhere : ∀ other, other ≠ index → ∀ one ∈ chains other, ∀ two ∈ entries, one.1 ≠ two.1 := by
    intro other different one oneIn two twoIn
    rcases owned two twoIn with ⟨old, oldIn, same⟩ | new
    · rw [← same]
      exact represents.apart other index different one oneIn old oldIn
    · exact Nat.ne_of_lt (Nat.lt_of_lt_of_le (represents.owns_live ⟨other, one, oneIn, rfl⟩) new)
  refine ⟨⟨by rw [length]; exact represents.sized, fun other => ?_, fun first second different => ?_,
    fun other => ?_, fun other => ?_⟩, length, fun address outside old => ?_, fun address owns => ?_, grown⟩
  · by_cases here : other = index
    · subst here
      rwa [Function.update_self]
    · rw [Function.update_of_ne here, others other here]
      refine (represents.linked other).congr fun one oneIn => cellOf_congr (frame one.1 ?_ ?_)
      · exact fun two twoIn => represents.apart index other (Ne.symm here) two twoIn one oneIn
      · exact represents.owns_live ⟨other, one, oneIn, rfl⟩
  · by_cases firstHere : first = index
    · subst firstHere
      rw [Function.update_self, Function.update_of_ne (Ne.symm different)]
      exact fun one oneIn two twoIn => (elsewhere second (Ne.symm different) two twoIn one oneIn).symm
    · rw [Function.update_of_ne firstHere]
      by_cases secondHere : second = index
      · subst secondHere
        rw [Function.update_self]
        exact elsewhere first firstHere
      · rw [Function.update_of_ne secondHere]
        exact represents.apart first second different
  · rw [length]
    by_cases here : other = index
    · subst here
      rwa [Function.update_self]
    · rw [Function.update_of_ne here]
      exact represents.homed other
  · by_cases here : other = index
    · subst here
      rwa [Function.update_self]
    · rw [Function.update_of_ne here]
      exact represents.keys other
  · exact frame address (fun entry member same => outside ⟨index, entry, member, same⟩) old
  · obtain ⟨other, entry, member, rfl⟩ := owns
    by_cases here : other = index
    · subst here
      rw [Function.update_self] at member
      rcases owned entry member with ⟨old, oldIn, same⟩ | new
      · exact Or.inl ⟨other, old, oldIn, same⟩
      · exact Or.inr new
    · rw [Function.update_of_ne here] at member
      exact Or.inl ⟨other, entry, member, rfl⟩

end Represents

/-- What a key of another bucket, or an unequal key of the same bucket, maps to stays. -/
theorem contents_update {length : Nat} {result : Option Value}
    (consistent : ∀ first second : Key, (first == second) = true → hash first = hash second)
    (changed : ∀ other, lookup entries other =
      if key == other then result else lookup (chains (hash key % length)) other) :
    contents hash length (Function.update chains (hash key % length) entries) =
      rebind (contents hash length chains) key result := by
  funext other
  rw [contents, rebind, contents]
  by_cases here : hash other % length = hash key % length
  · rw [here, Function.update_self, changed]
  · have apart : ¬ (key == other) = true := fun same => here (by rw [consistent key other same])
    rw [Function.update_of_ne here, if_neg apart]

section

variable [EquivBEq Key]

theorem Lacks.of_beq (lacks : Lacks entries key) (same : (key == other) = true) : Lacks entries other :=
  fun entry member => by
    rw [BEq.congr_right (BEq.symm same)]
    exact lacks entry member

theorem lookup_setValue (matched : (entry.2.1 == key) = true) (lacks : Lacks before key) (other : Key) :
    lookup (before ++ (entry.1, entry.2.1, value) :: after) other =
      if key == other then some value else lookup (before ++ entry :: after) other := by
  rw [lookup_append, lookup_append]
  split
  next same =>
      rw [lookup_of_lacks (lacks.of_beq same), Option.none_or]
      exact lookup_cons_of_pos (BEq.trans matched same)
  next different =>
      have apart : (entry.2.1 == other) = false :=
        Bool.eq_false_iff.mpr fun same => different (BEq.trans (BEq.symm matched) same)
      rw [@lookup_cons_of_neg _ _ after other (entry.1, entry.2.1, value) _ apart, lookup_cons_of_neg apart]

theorem lookup_concat (lacks : Lacks entries key) (address : Addr) (other : Key) :
    lookup (entries ++ [(address, key, value)]) other =
      if key == other then some value else lookup entries other := by
  rw [lookup_append]
  split
  next same =>
      rw [lookup_of_lacks (lacks.of_beq same), Option.none_or]
      exact lookup_cons_of_pos same
  next different =>
      rw [lookup_cons_of_neg (Bool.eq_false_iff.mpr different)]
      exact Option.or_none

theorem lookup_remove (matched : (entry.2.1 == key) = true)
    (keys : (before ++ entry :: after).Pairwise fun first second => (first.2.1 == second.2.1) = false)
    (other : Key) :
    lookup (before ++ after) other =
      if key == other then none else lookup (before ++ entry :: after) other := by
  split
  next same =>
      have entrySame := BEq.trans matched same
      rw [List.pairwise_append, List.pairwise_cons] at keys
      refine lookup_of_lacks fun one member => Bool.eq_false_iff.mpr fun oneSame => ?_
      rcases List.mem_append.mp member with earlier | later
      · have apart := keys.2.2 one earlier entry List.mem_cons_self
        rw [BEq.trans oneSame (BEq.symm entrySame)] at apart
        cases apart
      · have apart := keys.2.1.1 one later
        rw [BEq.trans entrySame (BEq.symm oneSame)] at apart
        cases apart
  next different =>
      have apart : (entry.2.1 == other) = false :=
        Bool.eq_false_iff.mpr fun same => different (BEq.trans (BEq.symm matched) same)
      rw [lookup_append, lookup_append, lookup_cons_of_neg apart]

end

namespace Represents

/-- The value of a stored key is overwritten. -/
theorem overwrite (represents : Represents hash table chains)
    (split : chains index = before ++ entry :: after) (value : Value) :
    ∃ node, table.heap.get entry.1 = some node ∧
      Reaches hash table { table with heap := table.heap.set entry.1 { node with value_ := value } } chains
        (Function.update chains index (before ++ (entry.1, entry.2.1, value) :: after)) := by
  have chain := represents.linked index
  have homed := represents.homed index
  have keys := represents.keys index
  rw [split] at chain homed keys
  obtain ⟨node, live, written⟩ := chain_setValue chain value
  have stays : ∀ one ∈ before ++ (entry.1, entry.2.1, value) :: after,
      ∃ old ∈ before ++ entry :: after, old.1 = one.1 ∧ old.2.1 = one.2.1 := by
    intro one member
    simp only [List.mem_append, List.mem_cons] at member
    rcases member with earlier | rfl | later
    · exact ⟨one, by simp [earlier], rfl, rfl⟩
    · exact ⟨entry, by simp, rfl, rfl⟩
    · exact ⟨one, by simp [later], rfl, rfl⟩
  refine ⟨node, live, represents.update rfl (fun _ _ => rfl) (fun address outside _ => ?_) ?_ written
    (fun one member => ?_) (fun one member => ?_) ?_⟩
  · exact Heap.get_set_of_ne fun same => outside entry (by rw [split]; simp) same.symm
  · exact Nat.le_of_eq Heap.fresh_set.symm
  · obtain ⟨old, oldIn, same, _⟩ := stays one member
    exact Or.inl ⟨old, by rwa [split], same⟩
  · obtain ⟨old, oldIn, _, same⟩ := stays one member
    rw [← same]
    exact homed old oldIn
  · rw [List.pairwise_append, List.pairwise_cons] at keys ⊢
    refine ⟨keys.1, keys.2.1, fun one oneIn two twoIn => ?_⟩
    rcases List.mem_cons.mp twoIn with rfl | later
    · exact keys.2.2 one oneIn entry List.mem_cons_self
    · exact keys.2.2 one oneIn two (List.mem_cons_of_mem _ later)

theorem homed_concat (represents : Represents hash table chains)
    (here : hash key % table.hashtable_.length = index) {one : Entry Key Value}
    (member : one ∈ chains index ++ [(address, key, value)]) :
    hash one.2.1 % table.hashtable_.length = index := by
  rcases List.mem_append.mp member with old | new
  · exact represents.homed index one old
  · rwa [List.mem_singleton.mp new]

theorem keys_concat (represents : Represents hash table chains) (lacks : Lacks (chains index) key) :
    (chains index ++ [(address, key, value)]).Pairwise
      fun first second => (first.2.1 == second.2.1) = false := by
  refine List.pairwise_append.mpr ⟨represents.keys index, List.pairwise_singleton _ _,
    fun one oneIn two twoIn => ?_⟩
  rw [List.mem_singleton.mp twoIn]
  exact lacks one oneIn

/-- A new node becomes the first of an empty bucket. -/
theorem append_first (represents : Represents hash table chains) (empty : chains index = [])
    (here : hash key % table.hashtable_.length = index) (value : Value) (buffer_size_ : Int) :
    Reaches hash table
      ⟨table.heap.alloc ⟨key, value, none⟩, buffer_size_, table.hashtable_.set index (some table.heap.fresh)⟩
      chains (Function.update chains index (chains index ++ [(table.heap.fresh, key, value)])) := by
  have inside : index < table.hashtable_.length := here ▸ Nat.mod_lt _ represents.sized
  refine represents.update List.length_set (fun other different => ?_) (fun address _ old => ?_) ?_ ?_
    (fun one => owned_concat) (fun one => represents.homed_concat here)
    (represents.keys_concat (by rw [empty]; nofun))
  · exact List.getElem?_set_ne (Ne.symm different)
  · exact Heap.get_alloc_of_ne (Nat.ne_of_lt old)
  · exact Heap.fresh_alloc ▸ Nat.le_succ _
  · rw [empty]
    show Chain _ ((table.hashtable_.set index (some table.heap.fresh))[index]?.join) _
    rw [List.getElem?_set_self inside]
    refine ⟨rfl, none, ?_, rfl⟩
    rw [cellOf, Heap.get_alloc_fresh]
    rfl

/-- A new node is linked to the last of a bucket. -/
theorem append_last (represents : Represents hash table chains) (split : chains index = before ++ [entry])
    (here : hash key % table.hashtable_.length = index) (lacks : Lacks (chains index) key) (value : Value)
    (buffer_size_ : Int) :
    ∃ node, (table.heap.alloc ⟨key, value, none⟩).get entry.1 = some node ∧
      Reaches hash table
        ⟨(table.heap.alloc ⟨key, value, none⟩).set entry.1 { node with bucket_ := some table.heap.fresh },
          buffer_size_, table.hashtable_⟩
        chains (Function.update chains index (chains index ++ [(table.heap.fresh, key, value)])) := by
  have chain := represents.linked index
  rw [split] at chain
  obtain ⟨node, live, linked⟩ := chain_append chain key value
  refine ⟨node, live, represents.update rfl (fun _ _ => rfl) (fun address outside old => ?_) ?_ ?_
    (fun one => owned_concat) (fun one => represents.homed_concat here) (represents.keys_concat lacks)⟩
  · have elsewhere : address ≠ entry.1 := fun same => outside entry (by rw [split]; simp) same.symm
    exact (Heap.get_set_of_ne elsewhere).trans (Heap.get_alloc_of_ne (Nat.ne_of_lt old))
  · show table.heap.fresh ≤ ((table.heap.alloc ⟨key, value, none⟩).set entry.1 _).fresh
    rw [Heap.fresh_set, Heap.fresh_alloc]
    exact Nat.le_succ _
  · rw [split, List.append_assoc]
    exact linked

theorem sublist_reaches (represents : Represents hash table chains)
    (fewer : entries.Sublist (chains index))
    (length : next.hashtable_.length = table.hashtable_.length)
    (others : ∀ other, other ≠ index → next.hashtable_[other]? = table.hashtable_[other]?)
    (frame : ∀ address, (∀ entry ∈ chains index, entry.1 ≠ address) → address < table.heap.fresh →
      next.heap.get address = table.heap.get address)
    (grown : table.heap.fresh ≤ next.heap.fresh)
    (chain : Chain (cellOf next.heap) next.hashtable_[index]?.join entries) :
    Reaches hash table next chains (Function.update chains index entries) :=
  represents.update length others frame grown chain
    (fun one member => Or.inl ⟨one, fewer.subset member, rfl⟩)
    (fun one member => represents.homed index one (fewer.subset member))
    ((represents.keys index).sublist fewer)

/-- The first node of a bucket is unlinked and deleted. -/
theorem unlink_first (represents : Represents hash table chains) (split : chains index = entry :: after)
    (inside : index < table.hashtable_.length) (buffer_size_ : Int) :
    ∃ node, table.heap.get entry.1 = some node ∧
      Reaches hash table ⟨table.heap.free entry.1, buffer_size_, table.hashtable_.set index node.bucket_⟩
        chains (Function.update chains index after) := by
  have chain := represents.linked index
  rw [split] at chain
  have distinct := chain.nodup
  obtain ⟨_, next, stored, tail⟩ := chain
  refine ⟨_, exists_of_cellOf stored, represents.sublist_reaches (by rw [split]; exact List.sublist_cons_self _ _)
    List.length_set (fun other different => ?_) (fun address outside _ => ?_) ?_ ?_⟩
  · exact List.getElem?_set_ne (Ne.symm different)
  · exact Heap.get_free_of_ne fun same => outside entry (by rw [split]; simp) same.symm
  · exact Nat.le_of_eq Heap.fresh_free.symm
  · show Chain _ ((table.hashtable_.set index next)[index]?.join) _
    rw [List.getElem?_set_self inside]
    exact tail.congr fun last member => cellOf_congr (Heap.get_free_of_ne (@ne_of_after _ _ [] _ _ distinct _ member))

/-- A later node of a bucket is unlinked and deleted. -/
theorem unlink_later (represents : Represents hash table chains) {removed : Entry Key Value}
    (split : chains index = before ++ entry :: removed :: after) (buffer_size_ : Int) :
    ∃ node following, table.heap.get entry.1 = some node ∧ table.heap.get removed.1 = some following ∧
      (table.heap.set entry.1 { node with bucket_ := following.bucket_ }).get removed.1 = some following ∧
      Reaches hash table
        ⟨(table.heap.set entry.1 { node with bucket_ := following.bucket_ }).free removed.1, buffer_size_,
          table.hashtable_⟩
        chains (Function.update chains index (before ++ entry :: after)) := by
  have chain := represents.linked index
  rw [split] at chain
  have distinct := chain.nodup
  obtain ⟨node, following, live, liveRemoved, linked⟩ := chain_unlink chain
  have apart : removed.1 ≠ entry.1 := ne_of_after distinct List.mem_cons_self
  refine ⟨node, following, live, liveRemoved, (Heap.get_set_of_ne apart).trans liveRemoved,
    represents.sublist_reaches ?_ rfl (fun _ _ => rfl) (fun address outside _ => ?_) ?_ linked⟩
  · rw [split]
    exact ((List.sublist_cons_self removed after).cons_cons entry).append_left before
  · have one : address ≠ removed.1 := fun same => outside removed (by rw [split]; simp) same.symm
    have two : address ≠ entry.1 := fun same => outside entry (by rw [split]; simp) same.symm
    exact (Heap.get_free_of_ne one).trans (Heap.get_set_of_ne two)
  · show table.heap.fresh ≤ (Heap.free _ _).fresh
    rw [Heap.fresh_free, Heap.fresh_set]

end Represents

end Dsac.Hash.HashTable

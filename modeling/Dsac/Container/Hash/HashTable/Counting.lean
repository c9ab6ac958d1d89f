import Dsac.Container.Hash.HashTable.Rehash

namespace Dsac.Hash.HashTable

open Dsac.Library

/-! `buffer_size_` against the number of entries in the chains. -/

variable {Key Value : Type}

def chainLength (heap : Heap (ChainNode Key Value)) : Nat → Option Addr → Nat
  | fuel + 1, some entry =>
      match heap.get entry with
      | some node => chainLength heap fuel node.bucket_ + 1
      | none => 0
  | _, _ => 0

/-- The number of entries that the chains store. -/
def storedEntries (table : HashTable Key Value) : Nat :=
  (table.hashtable_.map (chainLength table.heap (depthBound table.heap))).sum

/-- The entries of the chains of the first buckets. -/
def total (count : Nat) (chains : Nat → List (Entry Key Value)) : Nat :=
  ∑ index ∈ Finset.range count, (chains index).length

variable {heap : Heap (ChainNode Key Value)} {pointer : Option Addr} {entries : List (Entry Key Value)}
  {chains : Nat → List (Entry Key Value)} {count index : Nat}

theorem chainLength_chain {fuel : Nat} (chain : Chain (cellOf heap) pointer entries)
    (enough : entries.length ≤ fuel) : chainLength heap fuel pointer = entries.length := by
  induction entries generalizing pointer fuel with
  | nil =>
      cases chain
      cases fuel <;> rfl
  | cons entry rest ih =>
      obtain ⟨rfl, next, stored, tail⟩ := chain
      cases fuel with
      | zero => cases enough
      | succ fuel =>
          simp only [chainLength, exists_of_cellOf stored, ih tail (Nat.le_of_succ_le_succ enough),
            List.length_cons]

theorem total_update (inside : index < count) (entries : List (Entry Key Value)) :
    total count (Function.update chains index entries) + (chains index).length =
      total count chains + entries.length := by
  have member : index ∈ Finset.range count := Finset.mem_range.mpr inside
  have lengths : (fun other => (Function.update chains index entries other).length) =
      Function.update (fun other => (chains other).length) index entries.length :=
    funext fun other => Function.apply_update (fun _ => List.length) chains index entries other
  rw [total, lengths, Finset.sum_update_of_mem member, total,
    Finset.sum_eq_add_sum_sdiff_singleton_of_mem member fun other => (chains other).length]
  omega

variable [BEq Key] {hash : Key → Nat} {table next : HashTable Key Value}
  {later : Nat → List (Entry Key Value)}

theorem Represents.storedEntries_eq (represents : Represents hash table chains) :
    table.storedEntries = total table.hashtable_.length chains := by
  have counted : ∀ index, chainLength table.heap (depthBound table.heap) table.hashtable_[index]?.join =
      (chains index).length := fun index =>
    chainLength_chain (represents.linked index) (length_le_depthBound (represents.linked index))
  calc table.storedEntries
      = (((List.range table.hashtable_.length).map fun index => table.hashtable_[index]?.join).map
          (chainLength table.heap (depthBound table.heap))).sum := by rw [map_getElem?_join, storedEntries]
    _ = ((List.range table.hashtable_.length).map fun index => (chains index).length).sum := by
          rw [List.map_map]
          exact congrArg List.sum (List.map_congr_left fun index _ => counted index)
    _ = total table.hashtable_.length chains := rfl

/-- `++buffer_size_` happens exactly when a node is linked. -/
theorem insertImpl_counts (represents : Represents hash table chains) (key : Key) (value : Value) :
    ∃ next later, table.insertImpl hash key value = .ok next ∧ Reaches hash table next chains later ∧
      (next.buffer_size_ = table.buffer_size_ ∧
          total table.hashtable_.length later = total table.hashtable_.length chains ∨
        next.buffer_size_ = toInt (table.buffer_size_ + 1) ∧
          total table.hashtable_.length later = total table.hashtable_.length chains + 1) := by
  have inside : table.hashing hash key < table.hashtable_.length := Nat.mod_lt _ represents.sized
  obtain ⟨next, inserted, ⟨before, entry, after, split, _, _, size, reaches⟩ | ⟨_, size, reaches⟩⟩ :=
    insertImpl_cases represents key value
  · have counted := @total_update _ _ chains _ _ inside (before ++ (entry.1, entry.2.1, value) :: after)
    refine ⟨next, _, inserted, reaches, Or.inl ⟨size, ?_⟩⟩
    simp only [split, List.length_append, List.length_cons] at counted
    omega
  · have counted := @total_update _ _ chains _ _ inside
      (chains (table.hashing hash key) ++ [(table.heap.fresh, key, value)])
    refine ⟨next, _, inserted, reaches, Or.inr ⟨size, ?_⟩⟩
    rw [List.length_append, List.length_singleton] at counted
    omega

theorem remove_counts (represents : Represents hash table chains) (key : Key) :
    ∃ next later, table.remove hash key = .ok next ∧ Reaches hash table next chains later ∧
      (next.buffer_size_ = table.buffer_size_ ∧
          total table.hashtable_.length later = total table.hashtable_.length chains ∨
        next.buffer_size_ = toInt (table.buffer_size_ - 1) ∧
          total table.hashtable_.length later + 1 = total table.hashtable_.length chains) := by
  have inside : table.hashing hash key < table.hashtable_.length := Nat.mod_lt _ represents.sized
  obtain ⟨next, removed, ⟨before, entry, after, split, _, size, reaches⟩ | ⟨_, rfl⟩⟩ :=
    remove_cases represents key
  · have counted := @total_update _ _ chains _ _ inside (before ++ after)
    refine ⟨next, _, removed, reaches, Or.inr ⟨size, ?_⟩⟩
    simp only [split, List.length_append, List.length_cons] at counted
    omega
  · exact ⟨next, chains, removed, .refl represents, Or.inl ⟨rfl, rfl⟩⟩

/-- By how much `buffer_size_` exceeds the number of entries, as an `int` computes it. -/
def Drifts (chains : Nat → List (Entry Key Value)) (table : HashTable Key Value) (drift : Int) : Prop :=
  table.buffer_size_ - total table.hashtable_.length chains ≡ drift [ZMOD 2 ^ 32]

theorem toInt_modEq (value : Int) : toInt value ≡ value [ZMOD 2 ^ 32] := Int.bmod_emod

theorem insertImpl_drifts {drift : Int} (represents : Represents hash table chains)
    (drifts : Drifts chains table drift) (key : Key) (value : Value) :
    ∃ next later, table.insertImpl hash key value = .ok next ∧ Reaches hash table next chains later ∧
      Drifts later next drift := by
  obtain ⟨next, later, inserted, reaches, counted⟩ := insertImpl_counts represents key value
  refine ⟨next, later, inserted, reaches, ?_⟩
  rw [Drifts, reaches.length]
  rcases counted with ⟨size, entries⟩ | ⟨size, entries⟩
  · rwa [size, entries]
  · rw [size, entries]
    refine ((toInt_modEq _).sub_right _).trans ?_
    rwa [Nat.cast_succ, add_sub_add_right_eq_sub]

/-- A rehash counts every entry it inserts again, on top of the old count. -/
theorem rehash_drifts (represents : Represents hash table chains) :
    ∃ next later, table.rehash hash = .ok next ∧ Represents hash next later ∧
      next.hashtable_.length = table.hashtable_.length * 2 ∧ Drifts later next table.buffer_size_ := by
  have carries : Carries hash fun (_ : List (Entry Key Value)) middle between =>
      Drifts between middle table.buffer_size_ := fun _ middle between entry represents drifts =>
    insertImpl_drifts represents drifts entry.2.1 entry.2.2
  obtain ⟨middle, later, heap, ran, length, representsNext, drifts⟩ := rehash_reaches carries represents (by
    rw [Drifts, total]
    simp only [List.length_nil, Finset.sum_const_zero, Nat.cast_zero, sub_zero]
    rfl)
  exact ⟨{ middle with heap }, later, ran, representsNext, length, drifts⟩

/-- The counter is exact, and an `Insert` doubles the buckets exactly when the stored entries
exceed three quarters of them. -/
structure CountsEntries (hash : Key → Nat) (table : HashTable Key Value) : Prop where
  size : table.buffer_size_ = table.storedEntries
  doubles : ∀ key value, ∃ next, table.insert hash key value = .ok next ∧
    (next.hashtable_.length = 2 * table.hashtable_.length ↔
      3 * table.hashtable_.length < 4 * table.storedEntries)

/-- An `Insert` does not rehash. -/
def Spacious (table : HashTable Key Value) : Call Key Value → Prop
  | .insert _ _ => 4 * table.storedEntries ≤ 3 * table.hashtable_.length
  | .remove _ | .contains _ | .getValue _ => True

instance (table : HashTable Key Value) : DecidablePred (Spacious table)
  | .insert _ _ => Nat.decLe _ _
  | .remove _ | .contains _ | .getValue _ => .isTrue trivial

/-- The table before the first rehash. -/
def Initial (hash : Key → Nat) (table : HashTable Key Value) : Prop :=
  ∃ chains, Represents hash table chains ∧ table.hashtable_.length = 8 ∧
    table.buffer_size_ = total 8 chains ∧ total 8 chains ≤ 7

theorem toInt_of_lt {value : Int} (lower : 0 ≤ value) (upper : value < 8) : toInt value = value := by
  rw [toInt, Int.bmod_eq_of_le] <;> omega

theorem construct_initial : Initial hash (construct : HashTable Key Value) :=
  ⟨fun _ => [], represents_empty {} 0 (by decide), rfl, rfl, Nat.zero_le 7⟩

namespace Initial

theorem storedEntries (initial : Initial hash table) :
    table.buffer_size_ = table.storedEntries ∧ table.storedEntries ≤ 7 ∧ table.hashtable_.length = 8 := by
  obtain ⟨chains, represents, length, size, few⟩ := initial
  rw [represents.storedEntries_eq, length]
  exact ⟨size, few, rfl⟩

/-- With room, an insertion keeps the count exact. -/
theorem insertImpl (initial : Initial hash table) (room : table.storedEntries ≤ 6) (key : Key)
    (value : Value) : ∃ next, table.insertImpl hash key value = .ok next ∧ Initial hash next := by
  obtain ⟨chains, represents, length, size, few⟩ := initial
  rw [represents.storedEntries_eq, length] at room
  obtain ⟨next, later, inserted, reaches, counted⟩ := insertImpl_counts represents key value
  rw [length] at counted
  refine ⟨next, inserted, later, reaches.represents, reaches.length.trans length, ?_⟩
  rcases counted with ⟨kept, entries⟩ | ⟨grown, entries⟩
  · rw [kept, entries]
    exact ⟨size, few⟩
  · rw [grown, entries, size, toInt_of_lt (by omega) (by omega)]
    exact ⟨rfl, Nat.succ_le_succ room⟩

theorem remove (initial : Initial hash table) (key : Key) :
    ∃ next, table.remove hash key = .ok next ∧ Initial hash next := by
  obtain ⟨chains, represents, length, size, few⟩ := initial
  obtain ⟨next, later, removed, reaches, counted⟩ := remove_counts represents key
  rw [length] at counted
  refine ⟨next, removed, later, reaches.represents, reaches.length.trans length, ?_⟩
  rcases counted with ⟨kept, entries⟩ | ⟨shrunk, entries⟩
  · rw [kept, entries]
    exact ⟨size, few⟩
  · rw [shrunk, size, toInt_of_lt (by omega) (by omega)]
    omega

/-- An insertion that rehashes leaves a count that is off by the entries stored before. -/
theorem insert_crowded (initial : Initial hash table) (crowded : 24 < 4 * table.storedEntries) (key : Key)
    (value : Value) : ∃ next, table.insert hash key value = .ok next ∧ next.hashtable_.length = 16 ∧
      next.buffer_size_ ≠ next.storedEntries := by
  obtain ⟨stored, few, length⟩ := initial.storedEntries
  obtain ⟨chains, represents, _⟩ := initial
  have full : table.buffer_size_ = 7 := by omega
  obtain ⟨middle, between, rehashed, representsMiddle, doubled, drifts⟩ := rehash_drifts represents
  obtain ⟨next, later, inserted, reaches, driftsLater⟩ := insertImpl_drifts representsMiddle drifts key value
  have twice : next.hashtable_.length = 16 := by rw [reaches.length, doubled, length]
  refine ⟨next, ?_, twice, fun counted => ?_⟩
  · have exceeded : 4 * table.buffer_size_ > 3 * (table.hashtable_.length : Int) := by
      rw [full, length]
      decide
    simp only [HashTable.insert, tryRehash, if_pos exceeded, rehashed, bind, Except.bind, inserted]
  · rw [Drifts, counted, reaches.represents.storedEntries_eq, sub_self, full] at driftsLater
    exact absurd driftsLater (by decide)

/-- An insertion with room does not rehash. -/
theorem insert_spacious (initial : Initial hash table) (room : 4 * table.storedEntries ≤ 24) (key : Key)
    (value : Value) : ∃ next, table.insert hash key value = .ok next ∧ next.hashtable_.length = 8 ∧
      Initial hash next := by
  obtain ⟨stored, few, length⟩ := initial.storedEntries
  obtain ⟨next, inserted, nextInitial⟩ := initial.insertImpl (by omega) key value
  have under : ¬ 4 * table.buffer_size_ > 3 * (table.hashtable_.length : Int) := by
    rw [stored, length]
    omega
  refine ⟨next, ?_, nextInitial.storedEntries.2.2, nextInitial⟩
  simp only [HashTable.insert, tryRehash, if_neg under, bind, Except.bind, inserted]

theorem countsEntries (initial : Initial hash table) : CountsEntries hash table where
  size := initial.storedEntries.1
  doubles key value := by
    have length := initial.storedEntries.2.2
    by_cases room : 4 * table.storedEntries ≤ 24
    · obtain ⟨next, inserted, same, _⟩ := initial.insert_spacious room key value
      exact ⟨next, inserted, by omega⟩
    · obtain ⟨next, inserted, twice, _⟩ := initial.insert_crowded (Nat.lt_of_not_le room) key value
      exact ⟨next, inserted, by omega⟩

/-- Every call that does not rehash keeps the count exact. -/
theorem call (initial : Initial hash table) (call : Call Key Value) (spacious : Spacious table call) :
    ∃ next, table.call hash call = .ok next ∧ Initial hash next := by
  cases call with
  | insert key value =>
      have length := initial.storedEntries.2.2
      rw [Spacious, length] at spacious
      obtain ⟨next, inserted, _, nextInitial⟩ := initial.insert_spacious spacious key value
      exact ⟨next, inserted, nextInitial⟩
  | remove key => exact initial.remove key
  | contains key =>
      obtain ⟨chains, represents, _⟩ := id initial
      refine ⟨table, ?_, initial⟩
      simp only [HashTable.call, contains_eq represents key, bind, Except.bind]
      rfl
  | getValue key =>
      obtain ⟨chains, represents, _⟩ := id initial
      refine ⟨table, ?_, initial⟩
      simp only [HashTable.call, getValue_eq represents key]
      cases contents hash table.hashtable_.length chains key <;> rfl

end Initial

/-- **The counter is exact until the first rehash.** After every call of a sequence
`buffer_size_` is the number of stored entries, and the load factor exact, if and only if no
call of the sequence rehashes. -/
theorem calls_count_iff (hash : Key → Nat) (calls : List (Call Key Value)) :
    (∀ first rest, calls = first ++ rest →
      ∃ table, HashTable.calls hash first = .ok table ∧ CountsEntries hash table) ↔
      Meets (call hash) Spacious construct calls := by
  refine run_prefixes_iff (call hash) (Initial hash) (fun table => Initial.countsEntries)
    (fun table call initial => initial.call call) (fun table call next initial crowded called counts => ?_)
    construct_initial calls
  cases call with
  | insert key value =>
      have length := initial.storedEntries.2.2
      rw [Spacious, length, Nat.not_le] at crowded
      obtain ⟨after, inserted, _, wrong⟩ := initial.insert_crowded crowded key value
      cases inserted.symm.trans called
      exact wrong counts.size
  | remove | contains | getValue => exact crowded trivial

/-- Eight distinct keys: the eighth `Insert` rehashes and leaves a count of 15, so the ninth
doubles sixteen buckets that hold eight entries. -/
theorem calls_count_twice :
    ∃ table next : HashTable Nat Nat,
      HashTable.calls (fun key => key) ((List.range 8).map fun key => .insert key key) = .ok table ∧
        table.buffer_size_ = 15 ∧ table.storedEntries = 8 ∧ table.hashtable_.length = 16 ∧
        table.insert (fun key => key) 8 8 = .ok next ∧ next.hashtable_.length = 32 :=
  ⟨_, _, rfl, rfl, rfl, rfl, rfl, rfl⟩

end Dsac.Hash.HashTable

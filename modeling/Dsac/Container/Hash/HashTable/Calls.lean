import Dsac.Container.Hash.HashTable.Rehash

namespace Dsac.Hash.HashTable

open Dsac.Library

/-! The table as a finite map, over any sequence of calls. -/

variable {Key Value : Type} [BEq Key] {hash : Key → Nat} {table : HashTable Key Value}
  {map : Key → Option Value}

/-- The map after a call. -/
def bindCall (map : Key → Option Value) : Call Key Value → Key → Option Value
  | .insert key value => rebind map key (some value)
  | .remove key => rebind map key none
  | .contains _ | .getValue _ => map

/-- What the keys are bound to after the calls: by the last `Insert`, unless a later `Remove`
of the key follows. -/
def boundTo (calls : List (Call Key Value)) : Key → Option Value := calls.foldl bindCall fun _ => none

/-- No chain holds a key twice. -/
def DistinctKeys (table : HashTable Key Value) : Prop :=
  ∀ bucket ∈ table.hashtable_, ∃ entries, Chain (cellOf table.heap) bucket entries ∧
    entries.Pairwise fun first second => (first.2.1 == second.2.1) = false

/-- The table stores the map. -/
def Stores (hash : Key → Nat) (table : HashTable Key Value) (map : Key → Option Value) : Prop :=
  ∃ chains, Represents hash table chains ∧ contents hash table.hashtable_.length chains = map

theorem Stores.distinctKeys (stores : Stores hash table map) : table.DistinctKeys := by
  obtain ⟨chains, represents, _⟩ := stores
  intro bucket member
  obtain ⟨index, inside, rfl⟩ := List.mem_iff_getElem.mp member
  have chain := represents.linked index
  rw [List.getElem?_eq_getElem inside] at chain
  exact ⟨chains index, chain, represents.keys index⟩

theorem Stores.contains (stores : Stores hash table map) (key : Key) :
    table.contains hash key = .ok (map key).isSome := by
  obtain ⟨chains, represents, rfl⟩ := stores
  exact contains_eq represents key

theorem Stores.getValue (stores : Stores hash table map) (key : Key) :
    table.getValue hash key = orThrow (map key) := by
  obtain ⟨chains, represents, rfl⟩ := stores
  exact getValue_eq represents key

theorem construct_stores : Stores hash (construct : HashTable Key Value) fun _ => none :=
  ⟨fun _ => [], represents_empty {} 0 (by decide), rfl⟩

variable [EquivBEq Key]
  (consistent : ∀ first second : Key, (first == second) = true → hash first = hash second)
include consistent

theorem Stores.tryRehash (stores : Stores hash table map) :
    ∃ next, table.tryRehash hash = .ok next ∧ Stores hash next map := by
  rw [HashTable.tryRehash]
  split
  · obtain ⟨chains, represents, rfl⟩ := stores
    obtain ⟨next, later, rehashed, nextRepresents, same⟩ := rehash_represents consistent represents
    exact ⟨next, rehashed, later, nextRepresents, same⟩
  · exact ⟨table, rfl, stores⟩

theorem Stores.insert (stores : Stores hash table map) (key : Key) (value : Value) :
    ∃ next, table.insert hash key value = .ok next ∧ Stores hash next (rebind map key (some value)) := by
  obtain ⟨middle, rehashed, chains, represents, rfl⟩ := stores.tryRehash consistent
  obtain ⟨next, later, inserted, reaches, bound⟩ := insertImpl_reaches consistent represents key value
  refine ⟨next, ?_, later, reaches.represents, by rw [reaches.length, bound]⟩
  simp only [HashTable.insert, rehashed, bind, Except.bind, inserted]

theorem Stores.remove (stores : Stores hash table map) (key : Key) :
    ∃ next, table.remove hash key = .ok next ∧ Stores hash next (rebind map key none) := by
  obtain ⟨chains, represents, rfl⟩ := stores
  obtain ⟨next, later, removed, reaches, bound⟩ := remove_reaches consistent represents key
  exact ⟨next, removed, later, reaches.represents, by rw [reaches.length, bound]⟩

/-- Every call changes the table as it changes the map. -/
theorem Stores.call (stores : Stores hash table map) (call : Call Key Value) :
    ∃ next, table.call hash call = .ok next ∧ Stores hash next (bindCall map call) := by
  cases call with
  | insert key value => exact stores.insert consistent key value
  | remove key => exact stores.remove consistent key
  | contains key =>
      refine ⟨table, ?_, stores⟩
      simp only [HashTable.call, stores.contains key, bind, Except.bind]
      rfl
  | getValue key =>
      refine ⟨table, ?_, stores⟩
      simp only [HashTable.call, stores.getValue key]
      cases map key <;> rfl

end Dsac.Hash.HashTable

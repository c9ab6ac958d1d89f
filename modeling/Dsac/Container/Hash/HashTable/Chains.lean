import Dsac.Container.Hash.HashTable
import Dsac.Library.Chain

namespace Dsac.Hash.HashTable

open Dsac.Library

/-! The chains of the table, and how the in-place edits change them. -/

variable {Key Value : Type}

/-- A node of a chain with its address. -/
abbrev Entry (Key Value : Type) := Addr × (Key × Value)

def cellOf (heap : Heap (ChainNode Key Value)) (address : Addr) : Option ((Key × Value) × Option Addr) :=
  (heap.get address).map fun node => ((node.key_, node.value_), node.bucket_)

variable {heap new : Heap (ChainNode Key Value)} {address : Addr} {pointer parent : Option Addr}
  {entries before after : List (Entry Key Value)} {key other : Key} {value : Value} {entry : Entry Key Value}

theorem exists_of_cellOf {content : (Key × Value) × Option Addr} (stored : cellOf heap address = some content) :
    heap.get address = some ⟨content.1.1, content.1.2, content.2⟩ := by
  obtain ⟨node, live, rfl⟩ := Option.map_eq_some_iff.mp stored
  exact live

theorem cellOf_congr (same : new.get address = heap.get address) :
    cellOf new address = cellOf heap address := by
  rw [cellOf, cellOf, same]

theorem get_of_chain (chain : Chain (cellOf heap) pointer entries) (member : entry ∈ entries) :
    ∃ node, heap.get entry.1 = some node := by
  obtain ⟨_, stored⟩ := chain.exists_cell member
  exact ⟨_, exists_of_cellOf stored⟩

theorem chain_length_le (chain : Chain (cellOf heap) pointer entries) : entries.length ≤ heap.fresh := by
  have inside : entries.map Prod.fst ⊆ List.range heap.fresh := by
    intro address member
    obtain ⟨entry, entryIn, rfl⟩ := List.mem_map.mp member
    obtain ⟨_, live⟩ := get_of_chain chain entryIn
    exact List.mem_range.mpr (Heap.lt_fresh_of_get live)
  simpa using (chain.nodup.subperm inside).length_le

theorem length_le_depthBound (chain : Chain (cellOf heap) pointer entries) :
    entries.length ≤ depthBound heap :=
  Nat.le_succ_of_le (chain_length_le chain)

theorem length_before_lt (chain : Chain (cellOf heap) pointer (before ++ entry :: after)) :
    before.length < depthBound heap := by
  have bound := chain_length_le chain
  rw [List.length_append, List.length_cons] at bound
  rw [depthBound]
  omega

/-! Searches of one chain. -/

section

variable [BEq Key]

/-- The value of a key in a chain. -/
def lookup (entries : List (Entry Key Value)) (key : Key) : Option Value :=
  (entries.find? (·.2.1 == key)).map (·.2.2)

/-- No entry of the chain has the key. -/
def Lacks (entries : List (Entry Key Value)) (key : Key) : Prop :=
  ∀ entry ∈ entries, (entry.2.1 == key) = false

theorem lookup_of_lacks (lacks : Lacks entries key) : lookup entries key = none := by
  rw [lookup, List.find?_eq_none.mpr fun entry member => by rw [lacks entry member]; exact Bool.false_ne_true]
  rfl

theorem lookup_append : lookup (before ++ after) key = (lookup before key).or (lookup after key) := by
  rw [lookup, List.find?_append, lookup, lookup]
  cases before.find? (·.2.1 == key) <;> rfl

theorem lookup_cons_of_pos (matched : (entry.2.1 == key) = true) :
    lookup (entry :: after) key = some entry.2.2 := by
  simp only [lookup, List.find?_cons, matched, Option.map_some]

theorem lookup_cons_of_neg (apart : (entry.2.1 == key) = false) :
    lookup (entry :: after) key = lookup after key := by
  simp only [lookup, List.find?_cons, apart]

/-- Where a key is in a chain, if it is there. -/
theorem exists_entry_or_lacks (entries : List (Entry Key Value)) (key : Key) :
    (∃ before entry after, entries = before ++ entry :: after ∧ (entry.2.1 == key) = true ∧
        Lacks before key) ∨ Lacks entries key := by
  cases found : entries.find? (·.2.1 == key) with
  | none =>
      exact Or.inr fun entry member => Bool.eq_false_iff.mpr (List.find?_eq_none.mp found entry member)
  | some entry =>
      obtain ⟨matched, before, after, split, earlier⟩ := List.find?_eq_some_iff_append.mp found
      exact Or.inl ⟨before, entry, after, split, matched, fun other member => by
        simpa using earlier other member⟩

/-- The node at which a walk through the entries ends, having started with a parent. -/
def lastOf (parent : Option Addr) (entries : List (Entry Key Value)) : Option Addr :=
  entries.foldl (fun _ entry => some entry.1) parent

theorem findChild_hit {fuel : Nat} (parent : Option Addr)
    (chain : Chain (cellOf heap) pointer (before ++ entry :: after))
    (lacks : Lacks before key) (matched : (entry.2.1 == key) = true) (enough : before.length < fuel) :
    findChild key fuel heap parent pointer = .ok (lastOf parent before, some entry.1) := by
  induction before generalizing pointer parent fuel with
  | nil =>
      obtain ⟨rfl, next, stored, _⟩ := chain
      cases fuel with
      | zero => cases enough
      | succ fuel =>
          simp only [findChild, load_of_get (exists_of_cellOf stored), bind, Except.bind, bne, matched]
          rfl
  | cons first before ih =>
      obtain ⟨rfl, next, stored, tail⟩ := chain
      cases fuel with
      | zero => cases enough
      | succ fuel =>
          have apart := lacks first List.mem_cons_self
          simp only [findChild, load_of_get (exists_of_cellOf stored), bind, Except.bind, bne, apart,
            Bool.not_false, if_true]
          exact ih _ tail (fun entry member => lacks entry (List.mem_cons_of_mem _ member))
            (Nat.lt_of_succ_lt_succ enough)

theorem findChild_miss {fuel : Nat} (parent : Option Addr) (chain : Chain (cellOf heap) pointer entries)
    (lacks : Lacks entries key) (enough : entries.length ≤ fuel) :
    findChild key fuel heap parent pointer = .ok (lastOf parent entries, none) := by
  induction entries generalizing pointer parent fuel with
  | nil =>
      cases chain
      cases fuel <;> rfl
  | cons first rest ih =>
      obtain ⟨rfl, next, stored, tail⟩ := chain
      cases fuel with
      | zero => cases enough
      | succ fuel =>
          have apart := lacks first List.mem_cons_self
          simp only [findChild, load_of_get (exists_of_cellOf stored), bind, Except.bind, bne, apart,
            Bool.not_false, if_true]
          exact ih _ tail (fun entry member => lacks entry (List.mem_cons_of_mem _ member))
            (Nat.le_of_succ_le_succ enough)

theorem findEntry_chain {fuel : Nat} (chain : Chain (cellOf heap) pointer entries)
    (enough : entries.length ≤ fuel) :
    ∃ found, findEntry key fuel heap pointer = .ok found ∧ found.map (·.value_) = lookup entries key := by
  induction entries generalizing pointer fuel with
  | nil =>
      cases chain
      cases fuel <;> exact ⟨none, rfl, rfl⟩
  | cons first rest ih =>
      obtain ⟨rfl, next, stored, tail⟩ := chain
      cases fuel with
      | zero => cases enough
      | succ fuel =>
          simp only [findEntry, load_of_get (exists_of_cellOf stored), bind, Except.bind]
          cases matched : first.2.1 == key with
          | true =>
              refine ⟨_, rfl, ?_⟩
              rw [lookup_cons_of_pos matched]
              rfl
          | false =>
              rw [lookup_cons_of_neg matched]
              exact ih tail (Nat.le_of_succ_le_succ enough)

end

/-! Edits of one chain. -/

theorem lastOf_concat (parent : Option Addr) (before : List (Entry Key Value)) (entry : Entry Key Value) :
    lastOf parent (before ++ [entry]) = some entry.1 := by
  rw [lastOf, List.foldl_append]
  rfl

theorem lastOf_of_ne_nil {entries : List (Entry Key Value)} (some : entries ≠ []) (parent : Option Addr) :
    ∃ before entry, entries = before ++ [entry] ∧ lastOf parent entries = .some entry.1 := by
  rcases List.eq_nil_or_concat' entries with rfl | ⟨before, entry, rfl⟩
  · exact absurd rfl some
  · exact ⟨before, entry, rfl, lastOf_concat parent before entry⟩

theorem cellOf_set_self {node : ChainNode Key Value} (inside : address < heap.fresh) :
    cellOf (heap.set address node) address = some ((node.key_, node.value_), node.bucket_) := by
  rw [cellOf, Heap.get_set_self inside]
  rfl

theorem cellOf_set_of_ne {node : ChainNode Key Value} {elsewhere : Addr} (different : elsewhere ≠ address) :
    cellOf (heap.set address node) elsewhere = cellOf heap elsewhere :=
  cellOf_congr (Heap.get_set_of_ne different)

theorem ne_of_before (distinct : ((before ++ entry :: after).map Prod.fst).Nodup) {first : Entry Key Value}
    (member : first ∈ before) : first.1 ≠ entry.1 := by
  rw [List.map_append, List.map_cons, List.nodup_middle, List.nodup_cons] at distinct
  exact ne_of_mem_of_not_mem (List.mem_append_left _ (List.mem_map_of_mem member)) distinct.1

theorem ne_of_after (distinct : ((before ++ entry :: after).map Prod.fst).Nodup) {last : Entry Key Value}
    (member : last ∈ after) : last.1 ≠ entry.1 := by
  rw [List.map_append, List.map_cons, List.nodup_middle, List.nodup_cons] at distinct
  exact ne_of_mem_of_not_mem (List.mem_append_right _ (List.mem_map_of_mem member)) distinct.1

/-- `SetValue`. -/
theorem chain_setValue (chain : Chain (cellOf heap) pointer (before ++ entry :: after)) (value : Value) :
    ∃ node, heap.get entry.1 = some node ∧
      Chain (cellOf (heap.set entry.1 { node with value_ := value })) pointer
        (before ++ (entry.1, entry.2.1, value) :: after) := by
  obtain ⟨next, stored, tail⟩ := chain.stored
  have live := exists_of_cellOf stored
  refine ⟨_, live, chain.splice (fun first member => ?_) (cellOf_set_self (Heap.lt_fresh_of_get live))
    (tail.congr fun last member => ?_)⟩
  · exact cellOf_set_of_ne (ne_of_before chain.nodup member)
  · exact cellOf_set_of_ne (ne_of_after chain.nodup member)

/-- `SetBucket` of the last node to a new node. -/
theorem chain_append (chain : Chain (cellOf heap) pointer (before ++ [entry])) (key : Key) (value : Value) :
    ∃ node, (heap.alloc ⟨key, value, none⟩).get entry.1 = some node ∧
      Chain (cellOf ((heap.alloc ⟨key, value, none⟩).set entry.1 { node with bucket_ := some heap.fresh })) pointer
        (before ++ [entry, (heap.fresh, key, value)]) := by
  obtain ⟨next, stored, _⟩ := chain.stored
  have live := exists_of_cellOf stored
  have other := Heap.get_ne_fresh live
  have liveAfter : (heap.alloc ⟨key, value, none⟩).get entry.1 = some ⟨entry.2.1, entry.2.2, next⟩ :=
    (Heap.get_alloc_of_ne other).trans live
  refine ⟨_, liveAfter, chain.splice (fun first member => ?_)
    (cellOf_set_self (Heap.lt_fresh_of_get liveAfter)) ⟨rfl, none, ?_, rfl⟩⟩
  · rw [cellOf_set_of_ne (ne_of_before chain.nodup member)]
    obtain ⟨_, firstLive⟩ := get_of_chain chain (List.mem_append_left _ member)
    exact cellOf_congr (Heap.get_alloc_of_ne (Heap.get_ne_fresh firstLive))
  · rw [cellOf_set_of_ne other.symm, cellOf, Heap.get_alloc_fresh]
    rfl

/-- `SetBucket` of the node before the removed one. -/
theorem chain_unlink {removed : Entry Key Value}
    (chain : Chain (cellOf heap) pointer (before ++ entry :: removed :: after)) :
    ∃ node following, heap.get entry.1 = some node ∧ heap.get removed.1 = some following ∧
      Chain (cellOf ((heap.set entry.1 { node with bucket_ := following.bucket_ }).free removed.1)) pointer
        (before ++ entry :: after) := by
  obtain ⟨next, stored, rfl, following, storedRemoved, tail⟩ := chain.stored
  have live := exists_of_cellOf stored
  have liveRemoved := exists_of_cellOf storedRemoved
  have distinct := chain.nodup
  have shifted : before ++ entry :: removed :: after = (before ++ [entry]) ++ removed :: after := by simp
  have distinctRemoved := shifted ▸ distinct
  have free : ∀ {address : Addr}, address ≠ removed.1 → address ≠ entry.1 →
      cellOf ((heap.set entry.1 { (⟨entry.2.1, entry.2.2, some removed.1⟩ : ChainNode Key Value) with
        bucket_ := following }).free removed.1) address = cellOf heap address := fun one two =>
    cellOf_congr ((Heap.get_free_of_ne one).trans (Heap.get_set_of_ne two))
  have apart : entry.1 ≠ removed.1 := ne_of_before distinctRemoved (by simp)
  refine ⟨_, _, live, liveRemoved, chain.splice (fun first member => ?_) ?_ (tail.congr fun last member => ?_)⟩
  · exact free (ne_of_before distinctRemoved (by simp [member])) (ne_of_before distinct member)
  · rw [cellOf_congr (Heap.get_free_of_ne apart), cellOf_set_self (Heap.lt_fresh_of_get live)]
  · exact free (ne_of_after distinctRemoved member) (ne_of_after distinct (List.mem_cons_of_mem _ member))

end Dsac.Hash.HashTable

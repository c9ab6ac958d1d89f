import Dsac.Container.Hash.HashTable.Buckets

namespace Dsac.Hash.HashTable

open Dsac.Library

/-! What the edits of one bucket do to the bindings of the table. -/

variable {Key Value : Type} [BEq Key] {hash : Key → Nat} {table : HashTable Key Value}
  {chains : Nat → List (Entry Key Value)} {key : Key} {value : Value}

theorem contains_eq (represents : Represents hash table chains) (key : Key) :
    table.contains hash key = .ok (contents hash table.hashtable_.length chains key).isSome := by
  have chain := represents.linked (table.hashing hash key)
  obtain ⟨found, searched, value⟩ := @findEntry_chain _ _ _ _ _ key _ _ chain (length_le_depthBound chain)
  simp only [contains, represents.bucketAt_eq, bind, Except.bind, searched]
  show _ = Except.ok (lookup (chains (table.hashing hash key)) key).isSome
  rw [← value, Option.isSome_map]
  rfl

/-- The value, or `std::out_of_range`. -/
def orThrow : Option Value → Outcome Value
  | some value => .ok value
  | none => .error .thrownOutOfRange

theorem getValue_eq (represents : Represents hash table chains) (key : Key) :
    table.getValue hash key = orThrow (contents hash table.hashtable_.length chains key) := by
  have chain := represents.linked (table.hashing hash key)
  obtain ⟨found, searched, value⟩ := @findEntry_chain _ _ _ _ _ key _ _ chain (length_le_depthBound chain)
  simp only [getValue, represents.bucketAt_eq, bind, Except.bind, searched]
  show _ = orThrow (lookup (chains (table.hashing hash key)) key)
  rw [← value]
  cases found <;> rfl

/-- `InsertImpl` overwrites the value of the entry with the key, or appends an entry and counts it. -/
theorem insertImpl_cases (represents : Represents hash table chains) (key : Key) (value : Value) :
    ∃ next, table.insertImpl hash key value = .ok next ∧
      ((∃ before entry after, chains (table.hashing hash key) = before ++ entry :: after ∧
          (entry.2.1 == key) = true ∧ Lacks before key ∧ next.buffer_size_ = table.buffer_size_ ∧
          Reaches hash table next chains (Function.update chains (table.hashing hash key)
            (before ++ (entry.1, entry.2.1, value) :: after))) ∨
        (Lacks (chains (table.hashing hash key)) key ∧ next.buffer_size_ = toInt (table.buffer_size_ + 1) ∧
          Reaches hash table next chains (Function.update chains (table.hashing hash key)
            (chains (table.hashing hash key) ++ [(table.heap.fresh, key, value)])))) := by
  have bucket := represents.bucketAt_eq key
  have chain := represents.linked (table.hashing hash key)
  rcases exists_entry_or_lacks (chains (table.hashing hash key)) key with
    ⟨before, entry, after, split, matched, lacks⟩ | lacks
  · obtain ⟨node, live, reaches⟩ := represents.overwrite split value
    rw [split] at chain
    have found := findChild_hit none chain lacks matched (length_before_lt chain)
    refine ⟨_, ?_, Or.inl ⟨before, entry, after, split, matched, lacks, ?_, reaches⟩⟩
    · simp only [insertImpl, bucket, bind, Except.bind, found, modify_of_get _ live]
      rfl
    · rfl
  · have missed := findChild_miss none chain lacks (length_le_depthBound chain)
    by_cases empty : chains (table.hashing hash key) = []
    · have reaches := represents.append_first empty rfl value (toInt (table.buffer_size_ + 1))
      refine ⟨_, ?_, Or.inr ⟨lacks, ?_, reaches⟩⟩
      · rw [empty] at missed
        simp only [insertImpl, bucket, bind, Except.bind, missed, lastOf, List.foldl_nil]
        rfl
      · rfl
    · obtain ⟨before, entry, split, last⟩ := lastOf_of_ne_nil empty none
      obtain ⟨node, live, reaches⟩ := represents.append_last split rfl lacks value
        (toInt (table.buffer_size_ + 1))
      refine ⟨_, ?_, Or.inr ⟨lacks, ?_, reaches⟩⟩
      · simp only [insertImpl, bucket, bind, Except.bind, missed, last, modify_of_get _ live]
        rfl
      · rfl

/-- `Remove` unlinks the entry with the key and counts it off, or finds none. -/
theorem remove_cases (represents : Represents hash table chains) (key : Key) :
    ∃ next, table.remove hash key = .ok next ∧
      ((∃ before entry after, chains (table.hashing hash key) = before ++ entry :: after ∧
          (entry.2.1 == key) = true ∧ next.buffer_size_ = toInt (table.buffer_size_ - 1) ∧
          Reaches hash table next chains
            (Function.update chains (table.hashing hash key) (before ++ after))) ∨
        (Lacks (chains (table.hashing hash key)) key ∧ next = table)) := by
  have bucket := represents.bucketAt_eq key
  have chain := represents.linked (table.hashing hash key)
  have inside : table.hashing hash key < table.hashtable_.length := Nat.mod_lt _ represents.sized
  rcases exists_entry_or_lacks (chains (table.hashing hash key)) key with
    ⟨before, entry, after, split, matched, lacks⟩ | lacks
  · rw [split] at chain
    have found := findChild_hit none chain lacks matched (length_before_lt chain)
    rcases List.eq_nil_or_concat' before with rfl | ⟨earlier, parent, rfl⟩
    · obtain ⟨node, live, reaches⟩ := represents.unlink_first split inside (toInt (table.buffer_size_ - 1))
      refine ⟨_, ?_, Or.inl ⟨[], entry, after, split, matched, ?_, reaches⟩⟩
      · simp only [remove, bucket, bind, Except.bind, found, lastOf, List.foldl_nil, load_of_get live, pure,
          Except.pure, destroy_of_get live]
      · rfl
    · have shifted : chains (table.hashing hash key) = earlier ++ parent :: entry :: after := by
        rw [split, List.append_assoc, List.singleton_append]
      obtain ⟨node, following, live, liveRemoved, liveLater, reaches⟩ :=
        represents.unlink_later shifted (toInt (table.buffer_size_ - 1))
      rw [← List.singleton_append, ← List.append_assoc] at reaches
      refine ⟨_, ?_, Or.inl ⟨earlier ++ [parent], entry, after, split, matched, ?_, reaches⟩⟩
      · simp only [remove, bucket, bind, Except.bind, found, lastOf_concat, load_of_get liveRemoved, pure,
          Except.pure, modify_of_get _ live, destroy_of_get liveLater]
      · rfl
  · have missed := findChild_miss none chain lacks (length_le_depthBound chain)
    refine ⟨table, ?_, Or.inr ⟨lacks, rfl⟩⟩
    simp only [remove, bucket, bind, Except.bind, missed]
    rfl

variable [EquivBEq Key]
  (consistent : ∀ first second : Key, (first == second) = true → hash first = hash second)
include consistent

/-- `InsertImpl` binds the key and leaves all other bindings. -/
theorem insertImpl_reaches (represents : Represents hash table chains) (key : Key) (value : Value) :
    ∃ next later, table.insertImpl hash key value = .ok next ∧ Reaches hash table next chains later ∧
      contents hash table.hashtable_.length later =
        rebind (contents hash table.hashtable_.length chains) key (some value) := by
  obtain ⟨next, inserted, ⟨before, entry, after, split, matched, lacks, _, reaches⟩ | ⟨lacks, _, reaches⟩⟩ :=
    insertImpl_cases represents key value
  · refine ⟨next, _, inserted, reaches, contents_update consistent fun other => ?_⟩
    rw [show chains (hash key % table.hashtable_.length) = before ++ entry :: after from split]
    exact lookup_setValue matched lacks other
  · exact ⟨next, _, inserted, reaches,
      contents_update consistent (lookup_concat lacks table.heap.fresh)⟩

/-- `Remove` unbinds the key and leaves all other bindings. -/
theorem remove_reaches (represents : Represents hash table chains) (key : Key) :
    ∃ next later, table.remove hash key = .ok next ∧ Reaches hash table next chains later ∧
      contents hash table.hashtable_.length later =
        rebind (contents hash table.hashtable_.length chains) key none := by
  obtain ⟨next, removed, ⟨before, entry, after, split, matched, _, reaches⟩ | ⟨lacks, rfl⟩⟩ :=
    remove_cases represents key
  · have keys := represents.keys (table.hashing hash key)
    rw [split] at keys
    refine ⟨next, _, removed, reaches, contents_update consistent fun other => ?_⟩
    rw [show chains (hash key % table.hashtable_.length) = before ++ entry :: after from split]
    exact lookup_remove matched keys other
  · refine ⟨next, chains, removed, .refl represents, ?_⟩
    funext other
    rw [rebind]
    split
    next same =>
        rw [contents, ← consistent key other same]
        exact lookup_of_lacks (lacks.of_beq same)
    next => rfl

end Dsac.Hash.HashTable

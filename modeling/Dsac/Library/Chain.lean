import Mathlib

namespace Dsac.Library

/-! Singly linked chains. A node holds a value and the link to the next node. -/

variable {ι : Type u} {α : Type v} {cell other : ι → Option (α × Option ι)} {pointer next : Option ι}
  {address : ι} {value changed : α} {entries before after rest : List (ι × α)}

/-- The chain that starts at a pointer has exactly the given nodes, in order. -/
def Chain (cell : ι → Option (α × Option ι)) : Option ι → List (ι × α) → Prop
  | pointer, [] => pointer = none
  | pointer, (address, value) :: rest =>
      pointer = some address ∧ ∃ next, cell address = some (value, next) ∧ Chain cell next rest

namespace Chain

theorem head (chain : Chain cell pointer entries) : pointer = (entries.head?.map Prod.fst) := by
  cases entries with
  | nil => exact chain
  | cons entry rest => exact chain.1

theorem congr (chain : Chain cell pointer entries)
    (same : ∀ entry ∈ entries, other entry.1 = cell entry.1) : Chain other pointer entries := by
  induction entries generalizing pointer with
  | nil => exact chain
  | cons entry rest ih =>
      obtain ⟨here, next, stored, tail⟩ := chain
      exact ⟨here, next, (same entry List.mem_cons_self).trans stored,
        ih tail fun entry member => same entry (List.mem_cons_of_mem _ member)⟩

/-- The node after a prefix of the chain. -/
theorem drop (chain : Chain cell pointer (before ++ after)) :
    ∃ middle, Chain cell middle after ∧ (before = [] → pointer = middle) := by
  induction before generalizing pointer with
  | nil => exact ⟨pointer, chain, fun _ => rfl⟩
  | cons entry rest ih =>
      obtain ⟨_, next, _, tail⟩ := chain
      obtain ⟨middle, later, _⟩ := ih tail
      exact ⟨middle, later, nofun⟩

theorem stored (chain : Chain cell pointer (before ++ (address, value) :: after)) :
    ∃ next, cell address = some (value, next) ∧ Chain cell next after := by
  obtain ⟨_, ⟨_, later⟩, _⟩ := chain.drop
  exact later

/-- One node is overwritten, and a new rest is linked to it. -/
theorem splice (chain : Chain cell pointer (before ++ (address, value) :: after))
    (same : ∀ entry ∈ before, other entry.1 = cell entry.1)
    (written : other address = some (changed, next)) (tail : Chain other next rest) :
    Chain other pointer (before ++ (address, changed) :: rest) := by
  induction before generalizing pointer with
  | nil => exact ⟨chain.1, next, written, tail⟩
  | cons entry before ih =>
      obtain ⟨here, following, stored, later⟩ := chain
      exact ⟨here, following, (same entry List.mem_cons_self).trans stored,
        ih later fun entry member => same entry (List.mem_cons_of_mem _ member)⟩

theorem unique {others : List (ι × α)} (first : Chain cell pointer entries)
    (second : Chain cell pointer others) : entries = others := by
  induction entries generalizing pointer others with
  | nil =>
      cases others with
      | nil => rfl
      | cons other _ => cases (Eq.symm first).trans second.1
  | cons entry rest ih =>
      cases others with
      | nil => cases first.1.symm.trans second
      | cons other others =>
          obtain ⟨here, next, stored, tail⟩ := first
          obtain ⟨there, following, storedThere, later⟩ := second
          obtain ⟨address, value⟩ := entry
          obtain ⟨otherAddress, otherValue⟩ := other
          cases here.symm.trans there
          cases stored.symm.trans storedThere
          rw [ih tail later]

/-- A chain meets no node twice. -/
theorem nodup (chain : Chain cell pointer entries) : (entries.map Prod.fst).Nodup := by
  induction entries generalizing pointer with
  | nil => exact List.nodup_nil
  | cons entry rest ih =>
      obtain ⟨_, next, stored, tail⟩ := chain
      refine List.nodup_cons.mpr ⟨fun repeated => ?_, ih tail⟩
      obtain ⟨⟨address, value⟩, member, same⟩ := List.mem_map.mp repeated
      obtain ⟨before, after, rfl⟩ := List.append_of_mem member
      -- the rest of the chain after the second visit would be the rest after the first
      obtain ⟨following, storedAgain, later⟩ := tail.stored
      cases same
      cases stored.symm.trans storedAgain
      have lengths := congrArg List.length (tail.unique later)
      simp only [List.length_append, List.length_cons] at lengths
      omega

theorem exists_cell (chain : Chain cell pointer entries) {entry : ι × α} (member : entry ∈ entries) :
    ∃ next, cell entry.1 = some (entry.2, next) := by
  obtain ⟨before, after, rfl⟩ := List.append_of_mem member
  obtain ⟨next, stored, _⟩ := chain.stored
  exact ⟨next, stored⟩

end Chain

end Dsac.Library

import Mathlib

namespace Dsac.Library

/-! Shortest paths that visit each node of a set once, by the last step. -/

variable {N : Type} {C : Type}

section

variable [AddCommMonoid C] (cost : N → N → C)

/-- The cost of a walk from a node through a list of nodes. -/
def walk : N → List N → C
  | _, [] => 0
  | origin, node :: rest => cost origin node + walk node rest

theorem walk_snoc (origin : N) (front : List N) (last next : N) :
    walk cost origin (front ++ [last] ++ [next]) = walk cost origin (front ++ [last]) + cost last next := by
  induction front generalizing origin with
  | nil => simp [walk]
  | cons node front inductionHypothesis =>
      simp only [List.cons_append, walk]
      rw [inductionHypothesis, add_assoc]

theorem walk_single (origin node : N) : walk cost origin [node] = cost origin node := add_zero _

end

/-- From `start`, the list visits each other node of the set once, and it ends with one of them. -/
structure Visits (start : N) (inside : Set N) (last : N) (visited : List N) : Prop where
  nodup : visited.Nodup
  ends : ∃ front, visited = front ++ [last]
  members : ∀ node, node ∈ visited ↔ node ∈ inside ∧ node ≠ start

variable {start last next : N} {inside : Set N} {visited : List N}

theorem Visits.last_mem (visits : Visits start inside last visited) : last ∈ inside ∧ last ≠ start := by
  obtain ⟨front, rfl⟩ := visits.ends
  exact (visits.members last).mp (List.mem_concat_self ..)

theorem Visits.single (apart : last ≠ start) : Visits start {start, last} last [last] := by
  refine ⟨List.nodup_singleton last, ⟨[], rfl⟩, ?_⟩
  intro node
  rw [List.mem_singleton, Set.mem_insert_iff, Set.mem_singleton_iff]
  constructor
  · rintro rfl
    exact ⟨Or.inr rfl, apart⟩
  · rintro ⟨rfl | rfl, different⟩
    · exact absurd rfl different
    · rfl

/-- A path is extended by a node. -/
theorem Visits.extend (visits : Visits start (inside \ {next}) last visited) (member : next ∈ inside) (apart : next ≠ start) :
    Visits start inside next (visited ++ [next]) := by
  have new : next ∉ visited := fun old => ((visits.members next).mp old).1.2 rfl
  refine ⟨List.Nodup.append visits.nodup (List.nodup_singleton next) (by simpa using new), ⟨visited, rfl⟩, ?_⟩
  intro node
  rw [List.mem_append, List.mem_singleton, visits.members]
  constructor
  · rintro (⟨⟨old, _⟩, different⟩ | rfl)
    · exact ⟨old, different⟩
    · exact ⟨member, apart⟩
  · rintro ⟨old, different⟩
    by_cases same : node = next
    · exact Or.inr same
    · exact Or.inl ⟨⟨old, same⟩, different⟩

/-- A path through several nodes is one that was extended. -/
theorem Visits.shorten (visits : Visits start inside next visited) {other : N} (otherInside : other ∈ inside)
    (otherApart : other ≠ start) (different : other ≠ next) :
    ∃ front last, visited = front ++ [last] ++ [next] ∧ Visits start (inside \ {next}) last (front ++ [last]) := by
  obtain ⟨before, rfl⟩ := visits.ends
  have someBefore : before ≠ [] := by
    rintro rfl
    have member := (visits.members other).mpr ⟨otherInside, otherApart⟩
    exact different (List.mem_singleton.mp member)
  obtain ⟨front, last, rfl⟩ : ∃ front last, before = front ++ [last] :=
    ⟨_, _, (List.dropLast_append_getLast someBefore).symm⟩
  obtain ⟨nodup, _, apart⟩ := List.nodup_append.mp visits.nodup
  refine ⟨front, last, rfl, nodup, ⟨front, rfl⟩, ?_⟩
  intro node
  have whole := visits.members node
  rw [List.mem_append, List.mem_singleton] at whole
  constructor
  · intro member
    obtain ⟨nodeInside, nodeApart⟩ := whole.mp (Or.inl member)
    exact ⟨⟨nodeInside, fun same => apart node member next (List.mem_singleton_self next) same⟩, nodeApart⟩
  · rintro ⟨⟨nodeInside, nodeDifferent⟩, nodeApart⟩
    exact (whole.mpr ⟨nodeInside, nodeApart⟩).resolve_right nodeDifferent

/-- A path to a node through no other node is one step. -/
theorem Visits.alone (visits : Visits start inside last visited) (only : ∀ node ∈ inside, node ≠ start → node = last) :
    visited = [last] := by
  obtain ⟨front, rfl⟩ := visits.ends
  obtain ⟨_, _, different⟩ := List.nodup_append.mp visits.nodup
  have nothing : front = [] := by
    rw [List.eq_nil_iff_forall_not_mem]
    intro node member
    obtain ⟨nodeInside, nodeApart⟩ := (visits.members node).mp (List.mem_append_left _ member)
    exact different node member last (List.mem_singleton_self last) (only node nodeInside nodeApart)
  rw [nothing, List.nil_append]

section

variable [AddCommMonoid C] [LinearOrder C] [IsOrderedAddMonoid C] {cost : N → N → C} {best : N → C} {value : C}

/-- The least cost of a path through the set that ends at a node. -/
def Shortest (cost : N → N → C) (start : N) (inside : Set N) (last : N) (value : C) : Prop :=
  IsLeast {total | ∃ visited, Visits start inside last visited ∧ walk cost start visited = total} value

omit [IsOrderedAddMonoid C] in
theorem Shortest.single (apart : last ≠ start) : Shortest cost start {start, last} last (cost start last) := by
  constructor
  · exact ⟨[last], Visits.single apart, walk_single cost start last⟩
  · rintro total ⟨visited, visits, rfl⟩
    have only := visits.alone fun node inside apart => (Set.mem_insert_iff.mp inside).resolve_left apart
    rw [only, walk_single]

/-- The shortest path to a node is the best of those that come from the other nodes. -/
theorem Shortest.extend (best : N → C) (member : next ∈ inside) (apart : next ≠ start)
    (each : ∀ node ∈ inside \ {next}, node ≠ start → Shortest cost start (inside \ {next}) node (best node))
    (attained : ∃ node ∈ inside \ {next}, node ≠ start ∧ value = best node + cost node next)
    (least : ∀ node ∈ inside \ {next}, node ≠ start → value ≤ best node + cost node next) :
    Shortest cost start inside next value := by
  obtain ⟨source, sourceInside, sourceApart, rfl⟩ := attained
  constructor
  · obtain ⟨visited, visits, total⟩ := (each source sourceInside sourceApart).1
    obtain ⟨front, rfl⟩ := visits.ends
    exact ⟨_, visits.extend member apart, by rw [walk_snoc, total]⟩
  · rintro total ⟨visited, visits, rfl⟩
    obtain ⟨front, last, rfl, shorter⟩ := visits.shorten sourceInside.1 sourceApart sourceInside.2
    obtain ⟨lastInside, lastApart⟩ := shorter.last_mem
    have least_front := (each last lastInside lastApart).2 ⟨_, shorter, rfl⟩
    rw [walk_snoc]
    exact (least last lastInside lastApart).trans (by gcongr)

/-- The shortest path to a node comes from the start or from one of the other nodes. -/
theorem Shortest.source (shortest : Shortest cost start inside next value)
    (each : ∀ node ∈ inside \ {next}, node ≠ start → Shortest cost start (inside \ {next}) node (best node)) :
    (value = cost start next ∧ ∀ node ∈ inside, node ≠ start → node = next) ∨
      ∃ node ∈ inside \ {next}, node ≠ start ∧ best node + cost node next ≤ value := by
  obtain ⟨visited, visits, rfl⟩ := shortest.1
  by_cases alone : ∀ node ∈ inside, node ≠ start → node = next
  · have only := visits.alone alone
    exact Or.inl ⟨by rw [only, walk_single], alone⟩
  · push Not at alone
    obtain ⟨other, otherInside, otherApart, different⟩ := alone
    obtain ⟨front, last, rfl, shorter⟩ := visits.shorten otherInside otherApart different
    obtain ⟨lastInside, lastApart⟩ := shorter.last_mem
    have least_front := (each last lastInside lastApart).2 ⟨_, shorter, rfl⟩
    refine Or.inr ⟨last, lastInside, lastApart, ?_⟩
    rw [walk_snoc]
    gcongr

end

end Dsac.Library

import Dsac.Library.Paths

namespace Dsac.Library

/-! The tree that a search records when it keeps, for each node, the node from which it was
discovered. -/

variable {N : Type u} {successors : N → List N} {start node : N} {visited : Finset N} {parents : N → Option N}
  {depth : N → Nat}

/-- Each visited node but the start has a parent that is one level higher. -/
structure SearchTree (successors : N → List N) (start : N) (visited : Finset N) (parents : N → Option N)
    (depth : N → Nat) : Prop where
  startVisited : start ∈ visited
  startDepth : depth start = 0
  parent : ∀ node ∈ visited, node ≠ start → ∃ previous ∈ visited, parents node = some previous ∧
    node ∈ successors previous ∧ depth node = depth previous + 1
  unvisited : ∀ node, node ∉ visited → parents node = none

namespace SearchTree

theorem single (unknown : ∀ node, node ≠ start → parents node = none) :
    SearchTree successors start {start} parents fun _ => 0 where
  startVisited := Finset.mem_singleton_self start
  startDepth := rfl
  parent _ member other := absurd (Finset.mem_singleton.mp member) other
  unvisited node outside := unknown node fun same => outside (Finset.mem_singleton.mpr same)

/-- The depth that an expansion of `considered` gives to the new nodes. -/
def deepen [DecidableEq N] (visited : Finset N) (depth : N → Nat) (considered node : N) : Nat :=
  if node ∈ visited then depth node else depth considered + 1

section

variable [DecidableEq N]

theorem deepen_of_mem (member : node ∈ visited) (considered : N) : deepen visited depth considered node = depth node :=
  if_pos member

theorem deepen_of_not_mem (outside : node ∉ visited) (considered : N) :
    deepen visited depth considered node = depth considered + 1 := if_neg outside

/-- An expansion hangs the new successors below the expanded node. -/
theorem expand (tree : SearchTree successors start visited parents depth) {considered : N}
    (known : considered ∈ visited) {later : N → Option N}
    (recorded : ∀ node, later node =
      if node ∈ discovered visited (successors considered) then some considered else parents node) :
    SearchTree successors start (visited ∪ (successors considered).toFinset) later
      (deepen visited depth considered) := by
  have kept : ∀ node ∈ visited, later node = parents node := fun node member =>
    (recorded node).trans (if_neg fun new => (mem_discovered.mp new).2 member)
  refine ⟨Finset.mem_union_left _ tree.startVisited, ?_, ?_, ?_⟩
  · rw [deepen_of_mem tree.startVisited, tree.startDepth]
  · intro node member other
    by_cases old : node ∈ visited
    · obtain ⟨previous, before, parent, edge, level⟩ := tree.parent node old other
      refine ⟨previous, Finset.mem_union_left _ before, (kept node old).trans parent, edge, ?_⟩
      rw [deepen_of_mem old, deepen_of_mem before, level]
    · have edge : node ∈ successors considered :=
        List.mem_toFinset.mp ((Finset.mem_union.mp member).resolve_left old)
      refine ⟨considered, Finset.mem_union_left _ known, ?_, edge, ?_⟩
      · rw [recorded, if_pos (mem_discovered.mpr ⟨edge, old⟩)]
      · rw [deepen_of_not_mem old, deepen_of_mem known]
  · intro node outside
    rw [Finset.mem_union, not_or] at outside
    rw [recorded, if_neg fun new => outside.2 (List.mem_toFinset.mpr (mem_discovered.mp new).1),
      tree.unvisited node outside.1]

/-- One new node is hung below a node of the tree. -/
theorem hang (tree : SearchTree successors start visited parents depth) {considered new : N}
    (known : considered ∈ visited) (outside : new ∉ visited) (edge : new ∈ successors considered)
    {later : N → Option N} (recorded : ∀ node, later node = if node = new then some considered else parents node) :
    SearchTree successors start (insert new visited) later (deepen visited depth considered) := by
  have kept : ∀ node ∈ visited, later node = parents node := fun node member =>
    (recorded node).trans (if_neg fun same : node = new => outside (same ▸ member))
  refine ⟨Finset.mem_insert_of_mem tree.startVisited, ?_, ?_, ?_⟩
  · rw [deepen_of_mem tree.startVisited, tree.startDepth]
  · intro node member other
    rcases Finset.mem_insert.mp member with rfl | old
    · refine ⟨considered, Finset.mem_insert_of_mem known, (recorded node).trans (if_pos rfl), edge, ?_⟩
      rw [deepen_of_not_mem outside, deepen_of_mem known]
    · obtain ⟨previous, before, parent, edge, level⟩ := tree.parent node old other
      refine ⟨previous, Finset.mem_insert_of_mem before, (kept node old).trans parent, edge, ?_⟩
      rw [deepen_of_mem old, deepen_of_mem before, level]
  · intro node missing
    rw [Finset.mem_insert, not_or] at missing
    rw [recorded, if_neg missing.1, tree.unvisited node missing.2]

end

/-- The parents lead from a visited node back to the start, along a path without repetitions. -/
theorem path (tree : SearchTree successors start visited parents depth) (member : node ∈ visited) :
    ∃ path, Tracked parents start node path ∧ IsPath successors start node path ∧ path.Nodup ∧
      path.length = depth node + 1 ∧ ∀ other ∈ path, other ∈ visited ∧ depth other ≤ depth node := by
  induction level : depth node generalizing node with
  | zero =>
      obtain rfl : node = start := by
        by_contra other
        obtain ⟨_, _, _, _, below⟩ := tree.parent node member other
        omega
      refine ⟨[node], .start, .single successors node, List.nodup_singleton node, rfl, fun other same => ?_⟩
      rw [List.mem_singleton.mp same]
      exact ⟨member, level.le⟩
  | succ height inductionHypothesis =>
      have other : node ≠ start := fun same => by
        rw [same, tree.startDepth] at level
        omega
      obtain ⟨previous, before, parent, edge, below⟩ := tree.parent node member other
      have previousLevel : depth previous = height := by omega
      obtain ⟨path, tracked, isPath, nodup, length, inside⟩ := inductionHypothesis before previousLevel
      refine ⟨path ++ [node], .step other parent tracked, isPath.snoc edge, ?_, ?_, ?_⟩
      · rw [← List.concat_eq_append]
        refine nodup.concat fun repeated => ?_
        have := (inside node repeated).2
        omega
      · rw [List.length_append, length]
        rfl
      · intro earlier listed
        rcases List.mem_append.mp listed with early | atEnd
        · exact ⟨(inside earlier early).1, (inside earlier early).2.trans (Nat.le_succ height)⟩
        · rw [List.mem_singleton.mp atEnd]
          exact ⟨member, level.le⟩

end SearchTree

end Dsac.Library

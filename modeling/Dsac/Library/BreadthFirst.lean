import Dsac.Library.SearchTree

namespace Dsac.Library

/-! Breadth-first search: the pending nodes are expanded in the order in which they were discovered,
so that no node is recorded deeper than its distance from the start. -/

variable {N : Type u} {successors : N → List N} {start target node : N} {visited : Finset N}
  {pending rest : List N} {parents : N → Option N} {depth : N → Nat}

/-- The pending nodes in the order of their depths, which are those of at most two levels. -/
structure Levels (successors : N → List N) (visited : Finset N) (pending : List N) (depth : N → Nat) : Prop where
  pendingVisited : ∀ node ∈ pending, node ∈ visited
  sorted : pending.Pairwise fun node later => depth node ≤ depth later
  near : ∀ node ∈ visited, ∀ waiting ∈ pending, depth node ≤ depth waiting + 1
  expanded : ∀ node ∈ visited, node ∈ pending ∨
    ∀ successor ∈ successors node, successor ∈ visited ∧ depth successor ≤ depth node + 1

namespace Levels

theorem single : Levels successors {start} [start] depth where
  pendingVisited _ member := Finset.mem_singleton.mpr (List.mem_singleton.mp member)
  sorted := List.pairwise_singleton ..
  near node member waiting queued := by
    rw [Finset.mem_singleton.mp member, List.mem_singleton.mp queued]
    exact Nat.le_succ _
  expanded _ member := Or.inl (List.mem_singleton.mpr (Finset.mem_singleton.mp member))

open SearchTree (deepen deepen_of_mem deepen_of_not_mem)

/-- An expansion of the first pending node puts the nodes of the next level at the end. -/
theorem expand [DecidableEq N] {considered : N} (levels : Levels successors visited (considered :: rest) depth) :
    Levels successors (visited ∪ (successors considered).toFinset)
      (rest ++ discovered visited (successors considered)) (deepen visited depth considered) := by
  have known : considered ∈ visited := levels.pendingVisited considered (List.mem_cons_self ..)
  have restVisited : ∀ node ∈ rest, node ∈ visited := fun node member =>
    levels.pendingVisited node (List.mem_cons_of_mem _ member)
  have isNew : ∀ {node}, node ∈ discovered visited (successors considered) →
      deepen visited depth considered node = depth considered + 1 := fun new =>
    deepen_of_not_mem (mem_discovered.mp new).2 considered
  have restSorted := List.pairwise_cons.mp levels.sorted
  have bounded : ∀ node, deepen visited depth considered node ≤ depth considered + 1 := by
    intro node
    by_cases old : node ∈ visited
    · rw [deepen_of_mem old]
      exact levels.near node old considered (List.mem_cons_self ..)
    · rw [deepen_of_not_mem old]
  refine ⟨?_, ?_, ?_, ?_⟩
  · intro node member
    rcases List.mem_append.mp member with old | new
    · exact Finset.mem_union_left _ (restVisited node old)
    · exact Finset.mem_union_right _ (List.mem_toFinset.mpr (mem_discovered.mp new).1)
  · refine List.pairwise_append.mpr ⟨?_, ?_, ?_⟩
    · refine restSorted.2.imp_of_mem fun {node later} first second before => ?_
      rw [deepen_of_mem (restVisited node first), deepen_of_mem (restVisited later second)]
      exact before
    · refine List.Pairwise.imp_of_mem (fun {node later} first second _ => ?_)
        (discovered_nodup visited (successors considered))
      rw [isNew first, isNew second]
    · intro node _ later new
      rw [isNew new]
      exact bounded node
  · intro node _ waiting queued
    refine (bounded node).trans (Nat.succ_le_succ ?_)
    rcases List.mem_append.mp queued with old | new
    · rw [deepen_of_mem (restVisited waiting old)]
      exact restSorted.1 waiting old
    · rw [isNew new]
      exact Nat.le_succ _
  · intro node member
    by_cases old : node ∈ visited
    · rcases levels.expanded node old with queued | done
      · rcases List.mem_cons.mp queued with rfl | waiting
        · refine Or.inr fun successor edge => ⟨Finset.mem_union_right _ (List.mem_toFinset.mpr edge), ?_⟩
          rw [deepen_of_mem known]
          exact bounded successor
        · exact Or.inl (List.mem_append_left _ waiting)
      · refine Or.inr fun successor edge => ?_
        obtain ⟨before, level⟩ := done successor edge
        rw [deepen_of_mem before, deepen_of_mem old]
        exact ⟨Finset.mem_union_left _ before, level⟩
    · have edge := (Finset.mem_union.mp member).resolve_left old
      exact Or.inl (List.mem_append_right _ (mem_discovered.mpr ⟨List.mem_toFinset.mp edge, old⟩))

/-- Along a path from the start the depths fall behind the positions, up to a pending node that does. -/
theorem behind (levels : Levels successors visited pending depth) (startVisited : start ∈ visited)
    (startDepth : depth start = 0) {path : List N} (isPath : IsPath successors start target path) (index : Nat)
    {node : N} (here : path[index]? = some node) :
    (node ∈ visited ∧ depth node ≤ index) ∨ ∃ waiting ∈ pending, depth waiting ≤ index := by
  induction index generalizing node with
  | zero =>
      have first : node = start := by
        have head := isPath.first
        rw [List.head?_eq_getElem?, here] at head
        exact Option.some.inj head
      exact Or.inl ⟨first ▸ startVisited, by rw [first, startDepth]⟩
  | succ index inductionHypothesis =>
      obtain ⟨inside, found⟩ := List.getElem?_eq_some_iff.mp here
      have before : path[index]? = some path[index] := List.getElem?_eq_getElem (by omega)
      have edge : node ∈ successors path[index] := found ▸ List.isChain_iff_getElem.mp isPath.edges index inside
      rcases inductionHypothesis before with ⟨known, level⟩ | ⟨waiting, queued, level⟩
      · rcases levels.expanded _ known with queued | done
        · exact Or.inr ⟨_, queued, level.trans (Nat.le_succ index)⟩
        · obtain ⟨visitedToo, next⟩ := done node edge
          exact Or.inl ⟨visitedToo, next.trans (Nat.succ_le_succ level)⟩
      · exact Or.inr ⟨waiting, queued, level.trans (Nat.le_succ index)⟩

/-- The first pending node is no deeper than a path to it is long. -/
theorem minimal (levels : Levels successors visited (target :: rest) depth) (startVisited : start ∈ visited)
    (startDepth : depth start = 0) {path : List N} (isPath : IsPath successors start target path) :
    depth target + 1 ≤ path.length := by
  have last := isPath.last
  rw [List.getLast?_eq_getElem?] at last
  have inside := (List.getElem?_eq_some_iff.mp last).1
  have first : ∀ waiting ∈ target :: rest, depth target ≤ depth waiting := by
    intro waiting queued
    rcases List.mem_cons.mp queued with rfl | later
    · exact le_rfl
    · exact (List.pairwise_cons.mp levels.sorted).1 waiting later
  rcases levels.behind startVisited startDepth isPath _ last with ⟨_, level⟩ | ⟨waiting, queued, level⟩
  · omega
  · have := first waiting queued
    omega

end Levels

end Dsac.Library

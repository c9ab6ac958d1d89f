import Dsac.Library.Search

namespace Dsac.Library

/-! Paths of a directed graph, and the paths that a search records as the parents of
the nodes it discovers. -/

variable {N : Type u} {successors : N → List N} {start target : N} {path : List N}

structure IsPath (successors : N → List N) (start target : N) (path : List N) : Prop where
  first : path.head? = some start
  last : path.getLast? = some target
  edges : path.IsChain (Edge successors)

/-- No node repeats and no edge leads from a node of the path to a later one but the next. -/
structure Chordless (successors : N → List N) (path : List N) : Prop where
  nodup : path.Nodup
  noChord : ∀ i j node later, path[i]? = some node → path[j]? = some later → i + 1 < j →
    later ∉ successors node

theorem IsPath.single (successors : N → List N) (start : N) : IsPath successors start start [start] :=
  ⟨rfl, rfl, .singleton start⟩

theorem IsPath.snoc {node next : N} (isPath : IsPath successors start node path)
    (edge : next ∈ successors node) : IsPath successors start next (path ++ [next]) := by
  refine ⟨?_, List.getLast?_concat .., ?_⟩
  · rw [List.head?_append, isPath.first]
    rfl
  · refine List.isChain_append.mpr ⟨isPath.edges, .singleton next, ?_⟩
    intro last isLast other isNext
    rw [isPath.last] at isLast
    cases isLast
    cases isNext
    exact edge

theorem IsPath.reachable_of_mem (isPath : IsPath successors start target path) {node : N}
    (member : node ∈ path) : Reachable successors start node := by
  induction path using List.reverseRecOn generalizing target node with
  | nil => cases member
  | append_singleton rest last ih =>
      rcases rest.eq_nil_or_concat with rfl | ⟨front, previous, shape⟩
      · have first := isPath.first
        simp only [List.nil_append, List.head?_cons, Option.some.injEq] at first
        rw [List.nil_append, List.mem_singleton] at member
        exact member ▸ first ▸ .refl
      · rw [List.concat_eq_append] at shape
        subst shape
        obtain ⟨chain, _, join⟩ := List.isChain_append.mp isPath.edges
        have earlier : IsPath successors start previous (front ++ [previous]) := by
          refine ⟨?_, List.getLast?_concat .., chain⟩
          have first := isPath.first
          rwa [List.head?_append_of_ne_nil _ (by simp)] at first
        rcases List.mem_append.mp member with early | atEnd
        · exact ih earlier early
        · rw [List.mem_singleton.mp atEnd]
          exact (ih earlier (List.mem_concat_self ..)).tail
            (join previous (List.getLast?_concat ..) last rfl)

theorem IsPath.reachable (isPath : IsPath successors start target path) :
    Reachable successors start target :=
  isPath.reachable_of_mem (List.mem_of_getLast? isPath.last)

theorem Chordless.single (successors : N → List N) (start : N) : Chordless successors [start] := by
  refine ⟨List.nodup_singleton start, ?_⟩
  intro i j node later _ found far
  have inside := (List.getElem?_eq_some_iff.mp found).1
  rw [List.length_singleton] at inside
  omega

theorem Chordless.snoc {next : N} (chordless : Chordless successors path) (new : next ∉ path)
    (noEdge : ∀ node ∈ path.dropLast, next ∉ successors node) : Chordless successors (path ++ [next]) := by
  refine ⟨List.nodup_append.mpr ⟨chordless.nodup, List.nodup_singleton next, ?_⟩, ?_⟩
  · intro node member other same
    rintro rfl
    exact new (List.mem_singleton.mp same ▸ member)
  · intro i j node later foundNode foundLater far
    have inside := (List.getElem?_eq_some_iff.mp foundLater).1
    rw [List.length_append, List.length_singleton] at inside
    have early : i < path.length := by omega
    rw [List.getElem?_append_left early] at foundNode
    rcases Nat.lt_or_ge j path.length with middle | atEnd
    · rw [List.getElem?_append_left middle] at foundLater
      exact chordless.noChord i j node later foundNode foundLater far
    · obtain rfl : j = path.length := by omega
      rw [List.getElem?_concat_length] at foundLater
      cases foundLater
      refine noEdge node (List.mem_of_getElem? (i := i) ?_)
      rw [List.getElem?_dropLast, if_pos (by omega), foundNode]

/-- The path from `start` that the recorded parents lead back along. -/
inductive Tracked (parents : N → Option N) (start : N) : N → List N → Prop where
  | start : Tracked parents start start [start]
  | step {node previous : N} {path : List N} (other : node ≠ start) (parent : parents node = some previous)
      (before : Tracked parents start previous path) : Tracked parents start node (path ++ [node])

theorem Tracked.congr {parents others : N → Option N} {node : N} (tracked : Tracked parents start node path)
    (same : ∀ member ∈ path, others member = parents member) : Tracked others start node path := by
  induction tracked with
  | start => exact .start
  | step other parent before ih =>
      refine .step other ?_ (ih fun member inside => same member (List.mem_append_left _ inside))
      rw [same _ (List.mem_concat_self ..), parent]

end Dsac.Library

import Mathlib

namespace Dsac.Library

/-! Searches of a directed graph that mark a node as visited when they discover it. The
order in which pending nodes are expanded is left open, and only admitted nodes become
pending. -/

variable {N : Type u} [DecidableEq N] {successors : N → List N}

/-- The successors not visited before, each once and in their order. -/
def discovered (visited : Finset N) : List N → List N
  | [] => []
  | successor :: rest =>
      if successor ∈ visited then discovered visited rest
      else successor :: discovered (insert successor visited) rest

theorem mem_discovered {visited : Finset N} {list : List N} {node : N} :
    node ∈ discovered visited list ↔ node ∈ list ∧ node ∉ visited := by
  induction list generalizing visited with
  | nil => simp [discovered]
  | cons successor rest ih =>
      rw [discovered]
      split_ifs with old
      · rw [ih, List.mem_cons]
        constructor
        · exact fun new => ⟨Or.inr new.1, new.2⟩
        · rintro ⟨rfl | later, new⟩
          · exact absurd old new
          · exact ⟨later, new⟩
      · rw [List.mem_cons, ih, List.mem_cons, Finset.mem_insert, not_or]
        constructor
        · rintro (rfl | ⟨later, _, new⟩)
          · exact ⟨Or.inl rfl, old⟩
          · exact ⟨Or.inr later, new⟩
        · rintro ⟨rfl | later, new⟩
          · exact Or.inl rfl
          · by_cases same : node = successor
            · exact Or.inl same
            · exact Or.inr ⟨later, same, new⟩

theorem discovered_nodup (visited : Finset N) (list : List N) : (discovered visited list).Nodup := by
  induction list generalizing visited with
  | nil => exact .nil
  | cons successor rest ih =>
      rw [discovered]
      split_ifs
      · exact ih visited
      · refine List.nodup_cons.mpr ⟨?_, ih _⟩
        rw [mem_discovered]
        exact fun member => member.2 (Finset.mem_insert_self ..)

def Edge (successors : N → List N) (source target : N) : Prop := target ∈ successors source

def Reachable (successors : N → List N) (start target : N) : Prop :=
  Relation.ReflTransGen (Edge successors) start target

/-- A set of nodes that holds every node a search from `start` can meet. -/
structure Universe (successors : N → List N) (start : N) (nodes : Finset N) : Prop where
  startInside : start ∈ nodes
  closed : ∀ node ∈ nodes, ∀ successor ∈ successors node, successor ∈ nodes

omit [DecidableEq N] in
theorem Universe.mem_of_reachable {start node : N} {nodes : Finset N}
    (whole : Universe successors start nodes) (reachable : Reachable successors start node) : node ∈ nodes := by
  induction reachable with
  | refl => exact whole.startInside
  | tail _ edge ih => exact whole.closed _ ih _ edge

/-- A search for `target` that has not expanded it yet. -/
structure Frontier (successors : N → List N) (admitted : N → Prop) (start target : N)
    (visited : Finset N) (pending : Multiset N) : Prop where
  startVisited : start ∈ visited
  sound : ∀ node ∈ visited, Reachable successors start node
  pendingVisited : ∀ node ∈ pending, node ∈ visited
  pendingAdmitted : ∀ node ∈ pending, admitted node
  expanded : ∀ node ∈ visited, node ∈ pending ∨ ¬ admitted node ∨
    ∀ successor ∈ successors node, successor ∈ visited
  target : target ∈ visited → admitted target → target ∈ pending

namespace Frontier

variable {admitted : N → Prop} {start target : N} {visited : Finset N} {pending : Multiset N}

omit [DecidableEq N] in
theorem initial (admits : admitted start) : Frontier successors admitted start target {start} {start} where
  startVisited := Finset.mem_singleton_self start
  sound _ member := Finset.mem_singleton.mp member ▸ .refl
  pendingVisited _ member := Finset.mem_singleton.mpr (Multiset.mem_singleton.mp member)
  pendingAdmitted _ member := Multiset.mem_singleton.mp member ▸ admits
  expanded _ member := Or.inl (Multiset.mem_singleton.mpr (Finset.mem_singleton.mp member))
  target member _ := Multiset.mem_singleton.mpr (Finset.mem_singleton.mp member)

omit [DecidableEq N] in
theorem subset_universe {nodes : Finset N} (whole : Universe successors start nodes)
    (frontier : Frontier successors admitted start target visited pending) : visited ⊆ nodes :=
  fun node member => whole.mem_of_reachable (frontier.sound node member)

/-- Expanding a pending node other than the target. -/
theorem expand [DecidablePred admitted] {considered : N}
    (frontier : Frontier successors admitted start target visited (considered ::ₘ pending))
    (other : considered ≠ target) :
    Frontier successors admitted start target (visited ∪ (successors considered).toFinset)
      (pending + ((discovered visited (successors considered)).filter admitted : List N)) := by
  have consideredVisited := frontier.pendingVisited considered (Multiset.mem_cons_self ..)
  refine ⟨Finset.mem_union_left _ frontier.startVisited, ?_, ?_, ?_, ?_, ?_⟩
  · intro node member
    rcases Finset.mem_union.mp member with old | new
    · exact frontier.sound node old
    · exact (frontier.sound considered consideredVisited).tail (List.mem_toFinset.mp new)
  · intro node member
    rcases Multiset.mem_add.mp member with old | new
    · exact Finset.mem_union_left _ (frontier.pendingVisited node (Multiset.mem_cons_of_mem old))
    · have found := mem_discovered.mp (List.mem_filter.mp new).1
      exact Finset.mem_union_right _ (List.mem_toFinset.mpr found.1)
  · intro node member
    rcases Multiset.mem_add.mp member with old | new
    · exact frontier.pendingAdmitted node (Multiset.mem_cons_of_mem old)
    · exact of_decide_eq_true (List.mem_filter.mp new).2
  · intro node member
    by_cases old : node ∈ visited
    · rcases frontier.expanded node old with queued | rejected | done
      · rcases Multiset.mem_cons.mp queued with rfl | waiting
        · refine Or.inr (Or.inr fun successor edge => ?_)
          exact Finset.mem_union_right _ (List.mem_toFinset.mpr edge)
        · exact Or.inl (Multiset.mem_add.mpr (Or.inl waiting))
      · exact Or.inr (Or.inl rejected)
      · exact Or.inr (Or.inr fun successor edge => Finset.mem_union_left _ (done successor edge))
    · by_cases admits : admitted node
      · refine Or.inl (Multiset.mem_add.mpr (Or.inr (List.mem_filter.mpr ⟨?_, decide_eq_true admits⟩)))
        exact mem_discovered.mpr
          ⟨List.mem_toFinset.mp ((Finset.mem_union.mp member).resolve_left old), old⟩
      · exact Or.inr (Or.inl admits)
  · intro member admits
    by_cases old : target ∈ visited
    · rcases Multiset.mem_cons.mp (frontier.target old admits) with same | waiting
      · exact absurd same.symm other
      · exact Multiset.mem_add.mpr (Or.inl waiting)
    · refine Multiset.mem_add.mpr (Or.inr (List.mem_filter.mpr ⟨?_, decide_eq_true admits⟩))
      exact mem_discovered.mpr
        ⟨List.mem_toFinset.mp ((Finset.mem_union.mp member).resolve_left old), old⟩

/-- The number of expansions still possible. -/
def remaining (nodes visited : Finset N) (pending : Multiset N) : Nat :=
  (nodes \ visited).card + pending.card

theorem remaining_expand [DecidablePred admitted] {nodes : Finset N} {considered : N}
    (whole : Universe successors start nodes)
    (frontier : Frontier successors admitted start target visited (considered ::ₘ pending)) :
    remaining nodes (visited ∪ (successors considered).toFinset)
      (pending + ((discovered visited (successors considered)).filter admitted : List N)) <
      remaining nodes visited (considered ::ₘ pending) := by
  set new := (discovered visited (successors considered)).toFinset with newDef
  have consideredVisited := frontier.pendingVisited considered (Multiset.mem_cons_self ..)
  have inside : new ⊆ nodes \ visited := by
    intro node member
    obtain ⟨edge, unvisited⟩ := mem_discovered.mp (List.mem_toFinset.mp member)
    exact Finset.mem_sdiff.mpr
      ⟨whole.closed considered (frontier.subset_universe whole consideredVisited) node edge, unvisited⟩
  have left : nodes \ (visited ∪ (successors considered).toFinset) = (nodes \ visited) \ new := by
    ext node
    simp only [newDef, Finset.mem_sdiff, Finset.mem_union, List.mem_toFinset, mem_discovered]
    tauto
  have fewer : ((discovered visited (successors considered)).filter admitted).length ≤ new.card := by
    rw [newDef, List.toFinset_card_of_nodup (discovered_nodup _ _)]
    exact List.length_filter_le ..
  have sum := Finset.card_sdiff_add_card_eq_card inside
  rw [remaining, remaining, left, Multiset.card_add, Multiset.card_cons, Multiset.coe_card]
  omega

omit [DecidableEq N] in
/-- A search that ends with nothing pending has visited every reachable node. -/
theorem exhausted (frontier : Frontier successors admitted start target visited 0)
    (deadEnds : ∀ node, ¬ admitted node → successors node = []) (node : N)
    (reachable : Reachable successors start node) : node ∈ visited := by
  induction reachable with
  | refl => exact frontier.startVisited
  | @tail source node _ edge ih =>
      rcases frontier.expanded _ ih with queued | rejected | done
      · cases queued
      · rw [Edge, deadEnds source rejected] at edge
        cases edge
      · exact done node edge

omit [DecidableEq N] in
theorem not_admitted_of_exhausted (frontier : Frontier successors admitted start target visited 0)
    (deadEnds : ∀ node, ¬ admitted node → successors node = [])
    (reachable : Reachable successors start target) : ¬ admitted target := by
  intro admits
  cases frontier.target (frontier.exhausted deadEnds target reachable) admits

end Frontier

end Dsac.Library

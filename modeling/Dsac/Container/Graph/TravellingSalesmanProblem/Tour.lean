import Dsac.Container.Graph.TravellingSalesmanProblem.Table

namespace Dsac.Graph.Tsp

open Dsac.Library Dsac.Sort

/-! The tour that is read off the table is a shortest one. -/

variable {graph memo : AdjacencyMatrix} {n start : Nat}

section

variable (graphSized : Sized n n graph) (bounded : Bounded graph start n) (startInside : start < n)
include graphSized bounded startInside

/-- The node that the tour comes from has the least sum. -/
theorem nearest_least {state last : Nat} (memoSized : Sized n (2 ^ n) memo) (below : state < 2 ^ n)
    (solved : Solved graph start memo state) (follows : Follows start n state last) (left : ∃ node ∈ places state, node ≠ start) :
    ∃ index, (List.range n).foldlM (nearest graph memo start state last) none = .ok (some index) ∧ index ∈ places state ∧
      index ≠ start ∧ ∀ j ∈ places state, j ≠ start →
        entry memo index state + entry graph index last ≤ entry memo j state + entry graph j last := by
  obtain ⟨found, run, inside, least⟩ : ∃ found, (List.range n).foldlM (nearest graph memo start state last) none = .ok found ∧
      (∀ index, found = some index → index ∈ places state ∧ index ≠ start) ∧
      ∀ j ∈ List.range n, j ∈ places state → j ≠ start → ∃ index, found = some index ∧
        entry memo index state + entry graph index last ≤ entry memo j state + entry graph j last := by
    refine foldlM_runs (fun done found => (∀ index, found = some index → index ∈ places state ∧ index ≠ start) ∧
      ∀ j ∈ done, j ∈ places state → j ≠ start → ∃ index, found = some index ∧
        entry memo index state + entry graph index last ≤ entry memo j state + entry graph j last)
      ⟨fun _ nothing => absurd nothing.symm (Option.some_ne_none _), List.forall_mem_nil _⟩ ?_
    rintro done next rest found whole ⟨inside, least⟩
    by_cases skipped : next = start ∨ notIn next state
    · refine ⟨found, if_pos skipped, inside, ?_⟩
      intro j member jMember jApart
      rcases List.mem_append.mp member with old | new
      · exact least j old jMember jApart
      · rw [List.mem_singleton.mp new] at jMember jApart
        exact absurd jMember (notIn_iff.mp (skipped.resolve_left jApart))
    obtain ⟨apart, isIn⟩ := not_or.mp skipped
    have member : next ∈ places state := not_not.mp (notIn_iff.not.mp isIn)
    obtain ⟨index, held, indexMember, indexApart⟩ : ∃ index, found.getD next = index ∧ index ∈ places state ∧ index ≠ start := by
      cases found with
      | none => exact ⟨next, rfl, member, apart⟩
      | some index => exact ⟨index, rfl, inside index rfl⟩
    obtain ⟨prevDist, _⟩ :=
      newDist_solved graphSized bounded startInside memoSized below solved indexMember indexApart follows
    obtain ⟨newDist, _⟩ := newDist_solved graphSized bounded startInside memoSized below solved member apart follows
    refine ⟨some (if entry memo next state + entry graph next last < entry memo index state + entry graph index last then next
      else index), by simp only [nearest, if_neg skipped, held, prevDist, newDist, Outcome.ok_bind], ?_, ?_⟩
    · intro chosen same
      rw [← Option.some.inj same]
      split_ifs
      · exact ⟨member, apart⟩
      · exact ⟨indexMember, indexApart⟩
    · intro j jSeen jMember jApart
      refine ⟨_, rfl, ?_⟩
      have heldLeast : j ∈ done → entry memo index state + entry graph index last ≤ entry memo j state + entry graph j last := by
        intro old
        obtain ⟨before, rfl, bound⟩ := least j old jMember jApart
        rwa [← held, Option.getD_some]
      rcases List.mem_append.mp jSeen with old | new
      · have bound := heldLeast old
        split_ifs with less
        · exact less.le.trans bound
        · exact bound
      · rw [List.mem_singleton.mp new]
        split_ifs with less
        · exact le_refl _
        · exact not_lt.mp less
  obtain ⟨node, member, apart⟩ := left
  obtain ⟨index, rfl, _⟩ := least node (List.mem_range.mpr (lt_of_mem_places below member)) member apart
  obtain ⟨indexMember, indexApart⟩ := inside index rfl
  refine ⟨index, run, indexMember, indexApart, ?_⟩
  intro j jMember jApart
  obtain ⟨same, same_eq, bound⟩ := least j (List.mem_range.mpr (lt_of_mem_places below jMember)) jMember jApart
  rwa [← Option.some.inj same_eq] at bound

/-- The loop writes a path through the state that is no longer than those in the table. -/
theorem tourLoop_writes (filled : Filled graph start n (n + 1) memo) {count last state : Nat} (suffix : List Nat)
    (below : state < 2 ^ n) (startMember : start ∈ places state) (size : (elements n state).card = count + 1)
    (follows : Follows start n state last) :
    ∃ front, tourLoop graph memo start n count last state (List.replicate (count + 1) 0 ++ suffix) = .ok (0 :: (front ++ suffix)) ∧
      front.length = count ∧ front.Nodup ∧ (∀ node, node ∈ front ↔ node ∈ places state ∧ node ≠ start) ∧
      ∀ j ∈ places state, j ≠ start →
        walk (entry graph) start (front ++ [last]) ≤ entry memo j state + entry graph j last := by
  have whole := coe_elements below
  induction count generalizing last state suffix with
  | zero =>
      obtain ⟨only, alone⟩ := Finset.card_eq_one.mp size
      rw [alone, Finset.coe_singleton] at whole
      have isStart : ∀ node ∈ places state, node = start := by
        intro node member
        rw [← whole, Set.mem_singleton_iff] at member startMember
        exact member.trans startMember.symm
      refine ⟨[], rfl, rfl, List.nodup_nil, ?_, ?_⟩
      · intro node
        exact ⟨fun member => absurd member List.not_mem_nil, fun both => absurd (isStart node both.1) both.2⟩
      · intro j member apart
        exact absurd (isStart j member) apart
  | succ count inductionHypothesis =>
      have left : ∃ node ∈ places state, node ≠ start := by
        obtain ⟨node, member, apart⟩ := Finset.exists_mem_ne (by omega : 1 < (elements n state).card) start
        exact ⟨node, by rw [← whole]; exact member, apart⟩
      have solved : ∀ subset < 2 ^ n, start ∈ places subset → Solved graph start memo subset := by
        intro subset subsetBelow member
        refine filled.solved subset subsetBelow member ?_
        have most := Finset.card_le_card (Finset.filter_subset (fun place => subset.testBit place) (Finset.range n))
        rw [Finset.card_range] at most
        exact Nat.lt_succ_of_le most
      obtain ⟨index, run, indexMember, indexApart, least⟩ :=
        nearest_least graphSized bounded startInside filled.sized below (solved state below startMember) follows left
      have inside := lt_of_mem_places below indexMember
      have erased := places_erase indexMember
      have smaller := erase_lt below inside
      have fewer := elements_erase (Finset.mem_filter.mpr ⟨Finset.mem_range.mpr inside, mem_places.mp indexMember⟩)
      have startLeft : start ∈ places (state ^^^ (1 <<< index)) := by
        rw [erased]
        exact ⟨startMember, indexApart.symm⟩
      obtain ⟨front, rest, length, nodup, members, short⟩ := inductionHypothesis (index :: suffix) smaller startLeft (by omega)
        (Or.inl ⟨inside, indexApart, by rw [erased]; exact fun both => both.2 rfl⟩) (coe_elements smaller)
      have written : writeAt (List.replicate (count + 1 + 1) 0 ++ suffix) (count + 1 : Nat) index =
          .ok (List.replicate (count + 1) 0 ++ index :: suffix) := by
        rw [List.replicate_succ', List.append_assoc, List.singleton_append]
        exact writeAt_append (by rw [List.length_replicate]) index
      have reaches : walk (entry graph) start (front ++ [index]) ≤ entry memo index state := by
        have shortest := solved state below startMember index indexMember indexApart
        have each := solved _ smaller startLeft
        rw [erased] at members short
        rw [Solved, erased] at each
        rcases shortest.source each with ⟨value, alone⟩ | ⟨node, member, apart, bound⟩
        · have nothing : front = [] := by
            rw [List.eq_nil_iff_forall_not_mem]
            intro node member
            obtain ⟨⟨nodeInside, different⟩, apart⟩ := (members node).mp member
            exact different (alone node nodeInside apart)
          rw [nothing, List.nil_append, walk_single, value]
        · exact (short node member apart).trans bound
      refine ⟨front ++ [index], ?_, by rw [List.length_append, length]; rfl, ?_, ?_, ?_⟩
      · rw [tourLoop, run, Outcome.ok_bind]
        simp only
        rw [written, Outcome.ok_bind, rest, List.append_assoc, List.singleton_append]
      · refine List.Nodup.append nodup (List.nodup_singleton index) ?_
        rw [List.disjoint_singleton, members, erased]
        exact fun both => both.1.2 rfl
      · intro node
        rw [List.mem_append, List.mem_singleton, members, erased]
        constructor
        · rintro (⟨⟨nodeInside, _⟩, apart⟩ | rfl)
          · exact ⟨nodeInside, apart⟩
          · exact ⟨indexMember, indexApart⟩
        · rintro ⟨nodeInside, apart⟩
          by_cases same : node = index
          · exact Or.inr same
          · exact Or.inl ⟨⟨nodeInside, same⟩, apart⟩
      · intro j member apart
        rw [walk_snoc]
        exact (add_le_add_left reaches _).trans (least j member apart)

/-- The filled table gives the tour and its cost. -/
theorem findOptimalTour_shortest (filled : Filled graph start n (n + 1) memo) (several : 2 ≤ n) :
    ∃ inner cost, findOptimalTour graph memo start n = .ok (start :: (inner ++ [start])) ∧
      findMinCost graph memo start n = .ok cost ∧ inner.Nodup ∧ (∀ node, node ∈ inner ↔ node < n ∧ node ≠ start) ∧
      walk (entry graph) start (inner ++ [start]) = cost ∧
      ∀ other : List Nat, other.Nodup → (∀ node, node ∈ other ↔ node < n ∧ node ≠ start) →
        cost ≤ walk (entry graph) start (other ++ [start]) := by
  have all := places_all n
  have below : (1 <<< n) - 1 < 2 ^ n := by
    rw [Nat.one_shiftLeft]
    exact Nat.sub_one_lt (by positivity)
  have startMember : start ∈ places ((1 <<< n) - 1) := by
    rw [all]
    exact startInside
  have follows : Follows start n ((1 <<< n) - 1) start := Or.inr ⟨rfl, all⟩
  have size : (elements n ((1 <<< n) - 1)).card = n := by
    have same : elements n ((1 <<< n) - 1) = Finset.range n := by
      rw [← Finset.coe_inj, coe_elements below, all, Finset.coe_range]
      rfl
    rw [same, Finset.card_range]
  have solved := filled.solved _ below startMember (by omega)
  obtain ⟨inner, written, length, nodup, members, short⟩ := tourLoop_writes graphSized bounded startInside filled [0] below
    startMember (by omega : _ = n - 1 + 1) follows
  have ends : List.replicate (n - 1 + 1) 0 ++ [0] = List.replicate (n + 1) 0 := by
    rw [Nat.sub_add_cancel (by omega), ← List.replicate_succ']
  rw [ends] at written
  have member_iff : ∀ node, node ∈ inner ↔ node < n ∧ node ≠ start := by
    intro node
    rw [members, all]
    rfl
  have skip_iff : ∀ e, decide (e = start) = false ↔ e ≠ start := fun e => decide_eq_false_iff_not
  have known : ∀ e ∈ List.range n, decide (e = start) = false →
      newDist graph memo ((1 <<< n) - 1) start e = .ok (entry memo e ((1 <<< n) - 1) + entry graph e start) ∧
        entry memo e ((1 <<< n) - 1) + entry graph e start ≤ maxInt := by
    intro e member kept
    refine newDist_solved graphSized bounded startInside filled.sized below solved ?_ ((skip_iff e).mp kept) follows
    rw [all]
    exact List.mem_range.mp member
  have present : ∃ e ∈ List.range n, decide (e = start) = false := by
    obtain ⟨e, member, apart⟩ := Finset.exists_mem_ne (by rw [Finset.card_range]; omega : 1 < (Finset.range n).card) start
    exact ⟨e, List.mem_range.mpr (Finset.mem_range.mp member), (skip_iff e).mpr apart⟩
  obtain ⟨cost, found, ⟨e, eMember, kept, attained⟩, least⟩ := leastDist_foldlM known present
  have minimal : ∀ other : List Nat, other.Nodup → (∀ node, node ∈ other ↔ node < n ∧ node ≠ start) →
      cost ≤ walk (entry graph) start (other ++ [start]) := by
    intro other otherNodup otherMembers
    have someOther : other ≠ [] := List.ne_nil_of_mem ((otherMembers e).mpr ⟨List.mem_range.mp eMember, (skip_iff e).mp kept⟩)
    obtain ⟨front, last, rfl⟩ : ∃ front last, other = front ++ [last] := ⟨_, _, (List.dropLast_append_getLast someOther).symm⟩
    obtain ⟨lastInside, lastApart⟩ := (otherMembers last).mp (List.mem_concat_self ..)
    have lastMember : last ∈ places ((1 <<< n) - 1) := by
      rw [all]
      exact lastInside
    have visits : Visits start (places ((1 <<< n) - 1)) last (front ++ [last]) := by
      refine ⟨otherNodup, ⟨front, rfl⟩, ?_⟩
      intro node
      rw [otherMembers, all]
      rfl
    have bound := (solved last lastMember lastApart).2 ⟨_, visits, rfl⟩
    rw [walk_snoc]
    refine (least last (List.mem_range.mpr lastInside) ((skip_iff last).mpr lastApart)).trans ?_
    gcongr
  refine ⟨inner, cost, ?_, found, nodup, member_iff, ?_, minimal⟩
  · have closed : writeAt ([] ++ 0 :: (inner ++ [0])) 0 start = .ok ([] ++ start :: (inner ++ [0])) := writeAt_append rfl start
    have back : writeAt (start :: inner ++ [0]) (n : Nat) start = .ok (start :: inner ++ [start]) :=
      writeAt_append (by rw [List.length_cons, length]; omega) start
    rw [List.nil_append, List.nil_append] at closed
    rw [List.cons_append, List.cons_append] at back
    rw [findOptimalTour, written, Outcome.ok_bind, closed, Outcome.ok_bind, back]
  · refine le_antisymm ?_ (minimal inner nodup member_iff)
    rw [attained]
    refine short e ?_ ((skip_iff e).mp kept)
    rw [all]
    exact List.mem_range.mp eMember

end

/-- From the start, each other node once, and back. -/
def IsTour (start n : Nat) (tour : List Nat) : Prop :=
  ∃ inner : List Nat, tour = start :: (inner ++ [start]) ∧ inner.Nodup ∧ ∀ node, node ∈ inner ↔ node < n ∧ node ≠ start

/-- The sum of the costs along the tour. -/
def tourCost (graph : AdjacencyMatrix) : List Nat → Int
  | [] => 0
  | origin :: rest => walk (entry graph) origin rest

/-- A tour of least cost, and that cost. -/
structure Optimal (graph : AdjacencyMatrix) (start n : Nat) (result : TravellingSalesmanResult) : Prop where
  tour : IsTour start n result.tour
  cost : tourCost graph result.tour = result.minCost
  least : ∀ tour, IsTour start n tour → result.minCost ≤ tourCost graph tour

/-- Costs that are small for the number of nodes do not overflow. -/
theorem Bounded.of_small (bound : Nat) (small : ∀ row ∈ graph, ∀ cost ∈ row, |cost| ≤ bound) (fits : n * bound ≤ 2147483647)
    (startInside : start < n) : Bounded graph start n := by
  have each : ∀ row column, |entry graph row column| ≤ bound := by
    intro row column
    rw [entry, List.getD_eq_getElem?_getD, List.getD_eq_getElem?_getD]
    cases values : graph[row]? with
    | none => simp
    | some costs =>
        rw [Option.getD_some]
        cases found : costs[column]? with
        | none => simp
        | some cost => exact small costs (List.mem_of_getElem? values) cost (List.mem_of_getElem? found)
  have total : ∀ (origin : Nat) (visited : List Nat), |walk (entry graph) origin visited| ≤ visited.length * bound := by
    intro origin visited
    induction visited generalizing origin with
    | nil => simp [walk]
    | cons node rest inductionHypothesis =>
        rw [walk, List.length_cons]
        have first := each origin node
        have others := inductionHypothesis node
        have both := abs_add_le (entry graph origin node) (walk (entry graph) node rest)
        push_cast
        linarith
  have range : ∀ visited : List Nat, visited.Nodup → (∀ node ∈ visited, node < n) →
      minInt ≤ walk (entry graph) start visited ∧ walk (entry graph) start visited ≤ maxInt := by
    intro visited nodup inside
    have length : visited.length ≤ n := by
      have subset : visited ⊆ List.range n := fun node member => List.mem_range.mpr (inside node member)
      simpa using (List.subperm_of_subset nodup subset).length_le
    have most : (visited.length * bound : Int) ≤ 2147483647 := by exact_mod_cast (Nat.mul_le_mul_right bound length).trans fits
    have both := abs_le.mp ((total start visited).trans most)
    rw [minInt, maxInt]
    omega
  constructor
  · intro visited nodup inside
    exact range visited nodup fun node member => (inside node member).1
  · intro visited nodup members
    refine range _ (List.Nodup.append nodup (List.nodup_singleton start) ?_) ?_
    · rw [List.disjoint_singleton, members]
      exact fun both => both.2 rfl
    · intro node member
      rcases List.mem_append.mp member with old | new
      · exact ((members node).mp old).1
      · rw [List.mem_singleton.mp new]
        exact startInside

/-- `Solve` returns a shortest tour, for asymmetric and negative costs alike, exactly if there are at most ten nodes. -/
theorem solveTsp_optimal_iff (graphSized : Sized n n graph) (bounded : Bounded graph start n) (startInside : start < n)
    (several : 2 ≤ n) (masks : n < 31) :
    (∃ result, solveTsp graph start = .ok result ∧ Optimal graph start n result) ↔ n ≤ 10 := by
  obtain ⟨memo, prepared, ready⟩ := setup_fills graphSized startInside
  rw [← Nat.one_shiftLeft] at prepared
  constructor
  · rintro ⟨result, returned, _⟩
    by_contra long
    rw [solveTsp, graphSized.rows, if_pos masks, prepared, Outcome.ok_bind] at returned
    obtain ⟨filled, solved, _⟩ := Outcome.of_bind returned
    have first : List.range' 3 (n - 2) = 3 :: List.range' 4 (n - 3) := by
      rw [(by omega : n - 2 = n - 3 + 1), List.range'_succ]
    rw [solve, first, List.foldlM_cons] at solved
    obtain ⟨_, sizeThree, _⟩ := Outcome.of_bind solved
    obtain ⟨generated, combined, _⟩ := Outcome.of_bind sizeThree
    exact combinations_long (by decide) (by omega) (by omega) (by omega) combined
  · intro short
    obtain ⟨table, solved, filled⟩ := solve_fills graphSized bounded startInside short ready
    obtain ⟨inner, cost, tourFound, costFound, nodup, members, same, minimal⟩ :=
      findOptimalTour_shortest graphSized bounded startInside filled several
    refine ⟨⟨start :: (inner ++ [start]), cost⟩, ?_, ⟨inner, rfl, nodup, members⟩, same, ?_⟩
    · simp only [solveTsp, graphSized.rows, if_pos masks, prepared, solved, tourFound, costFound, Outcome.ok_bind]
    · rintro tour ⟨other, rfl, otherNodup, otherMembers⟩
      exact minimal other otherNodup otherMembers

/-- Four nodes, with a negative cost. -/
theorem solveTsp_optimal_iff_four :
    (∃ result, solveTsp [[0, 4, 1, 9], [3, 0, 6, 11], [4, 1, 0, 2], [6, 5, -4, 0]] 0 = .ok result ∧
      Optimal [[0, 4, 1, 9], [3, 0, 6, 11], [4, 1, 0, 2], [6, 5, -4, 0]] 0 4 result) ↔ 4 ≤ 10 :=
  solveTsp_optimal_iff ⟨rfl, by decide⟩ (Bounded.of_small 11 (by decide) (by decide) (by decide))
    (by decide) (by decide) (by decide)

example : solveTsp [[0, 4, 1, 9], [3, 0, 6, 11], [4, 1, 0, 2], [6, 5, -4, 0]] 0 =
    .ok { tour := [0, 3, 2, 1, 0], minCost := 9 } := by decide +kernel

end Dsac.Graph.Tsp

import Dsac.Container.Graph.TravellingSalesmanProblem

namespace Dsac.Graph.Tsp

open Dsac.Library Dsac.Sort

/-! The table holds the costs of the shortest paths through each subset of the nodes. -/

structure Sized (rows columns : Nat) (matrix : AdjacencyMatrix) : Prop where
  rows : matrix.length = rows
  columns : ∀ row ∈ matrix, row.length = columns

/-- The value at a place of a matrix. -/
def entry (matrix : AdjacencyMatrix) (row column : Nat) : Int := (matrix.getD row []).getD column 0

variable {graph memo : AdjacencyMatrix} {rows columns row column n start : Nat}

theorem Sized.found (sized : Sized rows columns memo) (inside : row < rows) :
    ∃ values, memo[row]? = some values ∧ values.length = columns ∧ memo.getD row [] = values := by
  have bound : row < memo.length := by rwa [sized.rows]
  refine ⟨memo[row], List.getElem?_eq_getElem bound, sized.columns _ (List.getElem_mem bound), ?_⟩
  rw [List.getD_eq_getElem?_getD, List.getElem?_eq_getElem bound, Option.getD_some]

theorem cell_sized (sized : Sized rows columns memo) (rowInside : row < rows) (columnInside : column < columns) :
    cell memo row column = .ok (entry memo row column) := by
  obtain ⟨values, found, length, same⟩ := sized.found rowInside
  have bound : column < values.length := by rwa [length]
  rw [cell, readAt_of_getElem?_nil found, Outcome.ok_bind, entry, same, List.getD_eq_getElem?_getD,
    List.getElem?_eq_getElem bound, Option.getD_some]
  exact readAt_of_getElem?_nil (List.getElem?_eq_getElem bound)

/-- A write changes one place. -/
theorem setCell_sized (sized : Sized rows columns memo) (rowInside : row < rows) (columnInside : column < columns) (value : Int) :
    ∃ next, setCell memo row column value = .ok next ∧ Sized rows columns next ∧ entry next row column = value ∧
      ∀ otherRow otherColumn, otherRow ≠ row ∨ otherColumn ≠ column →
        entry next otherRow otherColumn = entry memo otherRow otherColumn := by
  obtain ⟨values, found, length, same⟩ := sized.found rowInside
  have rowBound : row < memo.length := by rwa [sized.rows]
  have columnBound : column < values.length := by rwa [length]
  refine ⟨memo.set row (values.set column value), ?_, ⟨by rw [List.length_set, sized.rows], ?_⟩, ?_, ?_⟩
  · rw [setCell, readAt_of_getElem?_nil found, Outcome.ok_bind, writeAt, if_pos ⟨by omega, by omega⟩, Outcome.ok_bind, writeAt,
      if_pos ⟨by omega, by omega⟩, Int.toNat_natCast, Int.toNat_natCast]
  · intro changed member
    rcases List.mem_or_eq_of_mem_set member with old | rfl
    · exact sized.columns changed old
    · rw [List.length_set, length]
  · simp only [entry, List.getD_eq_getElem?_getD, List.getElem?_set_self rowBound, Option.getD_some,
      List.getElem?_set_self columnBound]
  · intro otherRow otherColumn different
    by_cases sameRow : otherRow = row
    · have apart := different.resolve_left (not_not.mpr sameRow)
      subst sameRow
      simp only [entry, List.getD_eq_getElem?_getD, List.getElem?_set_self rowBound, Option.getD_some,
        List.getElem?_set_ne apart.symm, found]
    · simp only [entry, List.getD_eq_getElem?_getD, List.getElem?_set_ne (Ne.symm sameRow)]

theorem Sized.replicate (rows columns : Nat) : Sized rows columns (List.replicate rows (List.replicate columns 0)) := by
  refine ⟨List.length_replicate, ?_⟩
  intro row member
  rw [List.eq_of_mem_replicate member, List.length_replicate]

section

variable {E S : Type} {step : S → E → Outcome S} {list : List E} {state : S}

/-- A loop over a list keeps an invariant of the elements that it has seen. -/
theorem foldlM_runs (Inv : List E → S → Prop) (initial : Inv [] state)
    (each : ∀ done next rest state, list = done ++ next :: rest → Inv done state →
      ∃ after, step state next = .ok after ∧ Inv (done ++ [next]) after) :
    ∃ final, list.foldlM step state = .ok final ∧ Inv list final := by
  suffices loop : ∀ rest done state, list = done ++ rest → Inv done state →
      ∃ final, rest.foldlM step state = .ok final ∧ Inv list final from loop list [] state rfl initial
  intro rest
  induction rest with
  | nil =>
      intro done state whole kept
      rw [List.append_nil] at whole
      subst whole
      exact ⟨state, rfl, kept⟩
  | cons next rest inductionHypothesis =>
      intro done state whole kept
      obtain ⟨after, stepped, keptAfter⟩ := each done next rest state whole kept
      obtain ⟨final, run, keptFinal⟩ := inductionHypothesis (done ++ [next]) after (by simpa using whole) keptAfter
      exact ⟨final, by rw [List.foldlM_cons, stepped, Outcome.ok_bind, run], keptFinal⟩

end

section

variable {skip : Nat → Bool} {dist : Nat → Outcome Int} {value : Nat → Int} {list done : List Nat} {best : Int} {next : Nat}

/-- What the loops know after the nodes `done`. -/
structure LeastOf (skip : Nat → Bool) (value : Nat → Int) (done : List Nat) (best : Int) : Prop where
  attained : best = maxInt ∨ ∃ e ∈ done, skip e = false ∧ best = value e
  least : ∀ e ∈ done, skip e = false → best ≤ value e

theorem LeastOf.grow (before : LeastOf skip value done best) {after : Int} (above : after ≤ best)
    (attained : after = best ∨ skip next = false ∧ after = value next) (least : skip next = false → after ≤ value next) :
    LeastOf skip value (done ++ [next]) after := by
  constructor
  · rcases attained with rfl | ⟨kept, same⟩
    · refine before.attained.imp_right ?_
      rintro ⟨e, member, kept, same⟩
      exact ⟨e, List.mem_append_left _ member, kept, same⟩
    · exact Or.inr ⟨next, List.mem_concat_self .., kept, same⟩
  · intro e member kept
    rcases List.mem_append.mp member with old | new
    · exact above.trans (before.least e old kept)
    · rw [List.mem_singleton.mp new] at kept ⊢
      exact least kept

theorem leastDist_step (before : LeastOf skip value done best) (known : skip next = false → dist next = .ok (value next)) :
    ∃ after, leastDist skip dist best next = .ok after ∧ LeastOf skip value (done ++ [next]) after := by
  by_cases skipped : skip next = true
  · exact ⟨best, if_pos skipped, before.grow (le_refl best) (Or.inl rfl) fun kept => absurd (skipped.symm.trans kept) (by decide)⟩
  · have kept := eq_false_of_ne_true skipped
    refine ⟨min best (value next), by rw [leastDist, if_neg skipped, known kept, Outcome.ok_bind], ?_⟩
    refine before.grow (min_le_left _ _) ?_ fun _ => min_le_right _ _
    exact (min_choice best (value next)).imp_right fun same => ⟨kept, same⟩

/-- The loops find the least of the values that they do not skip. -/
theorem leastDist_foldlM (known : ∀ e ∈ list, skip e = false → dist e = .ok (value e) ∧ value e ≤ maxInt)
    (present : ∃ e ∈ list, skip e = false) :
    ∃ best, list.foldlM (leastDist skip dist) maxInt = .ok best ∧ (∃ e ∈ list, skip e = false ∧ best = value e) ∧
      ∀ e ∈ list, skip e = false → best ≤ value e := by
  obtain ⟨best, run, found⟩ : ∃ best, list.foldlM (leastDist skip dist) maxInt = .ok best ∧ LeastOf skip value list best := by
    refine foldlM_runs (LeastOf skip value) ⟨Or.inl rfl, List.forall_mem_nil _⟩ ?_
    intro done next rest best whole before
    exact leastDist_step before fun kept => (known next (by simp [whole]) kept).1
  refine ⟨best, run, ?_, found.least⟩
  rcases found.attained with unchanged | attained
  · obtain ⟨e, member, kept⟩ := present
    exact ⟨e, member, kept, le_antisymm (found.least e member kept) (unchanged ▸ (known e member kept).2)⟩
  · exact attained

end

/-- The costs of the paths from the start through other nodes, and of the tours, are in the range of `int`. -/
structure Bounded (graph : AdjacencyMatrix) (start n : Nat) : Prop where
  paths : ∀ visited : List Nat, visited.Nodup → (∀ node ∈ visited, node < n ∧ node ≠ start) →
    minInt ≤ walk (entry graph) start visited ∧ walk (entry graph) start visited ≤ maxInt
  tours : ∀ visited : List Nat, visited.Nodup → (∀ node, node ∈ visited ↔ node < n ∧ node ≠ start) →
    minInt ≤ walk (entry graph) start (visited ++ [start]) ∧ walk (entry graph) start (visited ++ [start]) ≤ maxInt

/-- The column of a subset holds the costs of the shortest paths through it. -/
def Solved (graph : AdjacencyMatrix) (start : Nat) (memo : AdjacencyMatrix) (subset : Nat) : Prop :=
  ∀ node ∈ places subset, node ≠ start → Shortest (entry graph) start (places subset) node (entry memo node subset)

/-- A path through the subset goes on to a node outside, or back to the start if no node is left. -/
def Follows (start n subset next : Nat) : Prop :=
  (next < n ∧ next ≠ start ∧ next ∉ places subset) ∨ (next = start ∧ places subset = {place | place < n})

variable {subset next e : Nat} {after : AdjacencyMatrix}

theorem notIn_iff : notIn next subset = true ↔ next ∉ places subset := by
  rw [notIn, beq_iff_eq, single_and_eq_zero, mem_places, Bool.not_eq_true]

theorem Solved.congr (solved : Solved graph start memo subset) (same : ∀ row, entry after row subset = entry memo row subset) :
    Solved graph start after subset := by
  intro node member apart
  rw [same]
  exact solved node member apart

section

variable (graphSized : Sized n n graph) (bounded : Bounded graph start n) (startInside : start < n)
include graphSized bounded startInside

/-- A sum of a cost in the table and the cost of one more edge is computed without overflow. -/
theorem newDist_solved (memoSized : Sized n (2 ^ n) memo) (below : subset < 2 ^ n) (solved : Solved graph start memo subset)
    (member : e ∈ places subset) (apart : e ≠ start) (follows : Follows start n subset next) :
    newDist graph memo subset next e = .ok (entry memo e subset + entry graph e next) ∧
      entry memo e subset + entry graph e next ≤ maxInt := by
  have inside := lt_of_mem_places below member
  have nextInside : next < n := by
    rcases follows with ⟨nextInside, _⟩ | ⟨rfl, _⟩
    · exact nextInside
    · exact startInside
  obtain ⟨visited, visits, total⟩ := (solved e member apart).1
  obtain ⟨front, shape⟩ := visits.ends
  have longer : walk (entry graph) start (visited ++ [next]) = entry memo e subset + entry graph e next := by
    rw [shape, walk_snoc, ← shape, total]
  have range : minInt ≤ walk (entry graph) start (visited ++ [next]) ∧ walk (entry graph) start (visited ++ [next]) ≤ maxInt := by
    rcases follows with ⟨nextInside, nextApart, outside⟩ | ⟨rfl, all⟩
    · refine bounded.paths _ ?_ ?_
      · refine List.Nodup.append visits.nodup (List.nodup_singleton next) ?_
        rw [List.disjoint_singleton]
        exact fun old => outside ((visits.members next).mp old).1
      · intro node nodeMember
        rcases List.mem_append.mp nodeMember with old | new
        · obtain ⟨nodeInside, nodeApart⟩ := (visits.members node).mp old
          exact ⟨lt_of_mem_places below nodeInside, nodeApart⟩
        · rw [List.mem_singleton.mp new]
          exact ⟨nextInside, nextApart⟩
    · refine bounded.tours visited visits.nodup ?_
      intro node
      rw [visits.members, all]
      rfl
  rw [longer] at range
  refine ⟨?_, range.2⟩
  rw [newDist, cell_sized memoSized inside below, Outcome.ok_bind, cell_sized graphSized inside nextInside, Outcome.ok_bind, checked,
    if_pos range]

/-- One value of the table is the least over the nodes before the last one. -/
theorem solveNext_solves (memoSized : Sized n (2 ^ n) memo) (below : subset < 2 ^ n)
    (several : 3 ≤ (elements n subset).card) (nextInside : next < n)
    (previous : next ∈ places subset → next ≠ start → Solved graph start memo (subset ^^^ (1 <<< next))) :
    ∃ after, solveNext graph start n subset memo next = .ok after ∧ Sized n (2 ^ n) after ∧
      (∀ row column, row ≠ next ∨ column ≠ subset → entry after row column = entry memo row column) ∧
      (next ∈ places subset → next ≠ start → Shortest (entry graph) start (places subset) next (entry after next subset)) := by
  by_cases skipped : next = start ∨ notIn next subset
  · refine ⟨memo, if_pos skipped, memoSized, fun _ _ _ => rfl, ?_⟩
    intro member apart
    exact absurd member (notIn_iff.mp (skipped.resolve_left apart))
  obtain ⟨apart, isIn⟩ := not_or.mp skipped
  have member : next ∈ places subset := not_not.mp (notIn_iff.not.mp isIn)
  have erased := places_erase member
  have solved := previous member apart
  have follows : Follows start n (subset ^^^ (1 <<< next)) next := by
    refine Or.inl ⟨nextInside, apart, ?_⟩
    rw [erased]
    exact fun both => both.2 rfl
  have skip_iff : ∀ e, decide (e = start ∨ e = next ∨ notIn e subset = true) = false ↔
      e ∈ places (subset ^^^ (1 <<< next)) ∧ e ≠ start := by
    intro e
    rw [decide_eq_false_iff_not, notIn_iff, erased, Set.mem_sdiff, Set.mem_singleton_iff]
    tauto
  have known : ∀ e ∈ List.range n, decide (e = start ∨ e = next ∨ notIn e subset = true) = false →
      newDist graph memo (subset ^^^ (1 <<< next)) next e =
          .ok (entry memo e (subset ^^^ (1 <<< next)) + entry graph e next) ∧
        entry memo e (subset ^^^ (1 <<< next)) + entry graph e next ≤ maxInt := by
    intro e _ kept
    obtain ⟨eMember, eApart⟩ := (skip_iff e).mp kept
    exact newDist_solved graphSized bounded startInside memoSized (erase_lt below nextInside) solved eMember eApart follows
  have present : ∃ e ∈ List.range n, decide (e = start ∨ e = next ∨ notIn e subset = true) = false := by
    have two : ({start, next} : Finset Nat).card ≤ 2 := Finset.card_le_two
    obtain ⟨e, eMember, eApart⟩ := Finset.exists_mem_notMem_of_card_lt_card (two.trans_lt several)
    obtain ⟨eInside, eBit⟩ := Finset.mem_filter.mp eMember
    refine ⟨e, List.mem_range.mpr (Finset.mem_range.mp eInside), ?_⟩
    rw [decide_eq_false_iff_not, notIn_iff]
    rw [Finset.mem_insert, Finset.mem_singleton] at eApart
    rintro (same | same | outside)
    · exact eApart (Or.inl same)
    · exact eApart (Or.inr same)
    · exact outside eBit
  obtain ⟨best, run, ⟨e, _, kept, attained⟩, least⟩ := leastDist_foldlM known present
  obtain ⟨eMember, eApart⟩ := (skip_iff e).mp kept
  obtain ⟨after, written, afterSized, new, others⟩ := setCell_sized memoSized nextInside below best
  refine ⟨after, ?_, afterSized, others, ?_⟩
  · simp only [solveNext, if_neg skipped, run, Outcome.ok_bind, written]
  · intro _ _
    rw [new]
    refine Shortest.extend (fun node => entry memo node (subset ^^^ (1 <<< next))) member apart ?_ ?_ ?_
    · rw [← erased]
      exact solved
    · rw [← erased]
      exact ⟨e, eMember, eApart, attained⟩
    · rw [← erased]
      intro node nodeMember nodeApart
      have inside := List.mem_range.mpr (lt_of_mem_places (erase_lt below nextInside) nodeMember)
      exact least node inside ((skip_iff node).mpr ⟨nodeMember, nodeApart⟩)

/-- The column of one subset is filled, and the others are left. -/
theorem solveSubset_solves (memoSized : Sized n (2 ^ n) memo) (below : subset < 2 ^ n)
    (several : 3 ≤ (elements n subset).card) (previous : ∀ smaller < 2 ^ n, start ∈ places smaller →
      (elements n smaller).card < (elements n subset).card → Solved graph start memo smaller) :
    ∃ after, solveSubset graph start n memo subset = .ok after ∧ Sized n (2 ^ n) after ∧
      (∀ row column, column ≠ subset → entry after row column = entry memo row column) ∧
      (start ∈ places subset → Solved graph start after subset) := by
  by_cases skipped : notIn start subset = true
  · exact ⟨memo, if_pos skipped, memoSized, fun _ _ _ => rfl, fun member => absurd member (notIn_iff.mp skipped)⟩
  have startMember := not_not.mp (notIn_iff.not.mp skipped)
  obtain ⟨final, run, finalSized, others, filled⟩ : ∃ final, (List.range n).foldlM (solveNext graph start n subset) memo = .ok final ∧
      Sized n (2 ^ n) final ∧ (∀ row column, column ≠ subset → entry final row column = entry memo row column) ∧
      ∀ node ∈ List.range n, node ∈ places subset → node ≠ start →
        Shortest (entry graph) start (places subset) node (entry final node subset) := by
    refine foldlM_runs (fun done after => Sized n (2 ^ n) after ∧
      (∀ row column, column ≠ subset → entry after row column = entry memo row column) ∧
      ∀ node ∈ done, node ∈ places subset → node ≠ start →
        Shortest (entry graph) start (places subset) node (entry after node subset))
      ⟨memoSized, fun _ _ _ => rfl, List.forall_mem_nil _⟩ ?_
    rintro done next rest middle whole ⟨middleSized, others, filled⟩
    have nextInside : next < n := List.mem_range.mp (by simp [whole])
    have newNode : next ∉ done := by
      have nodup : (List.range n).Nodup := List.nodup_range
      rw [whole, List.nodup_append] at nodup
      exact fun old => nodup.2.2 next old next (List.mem_cons_self ..) rfl
    obtain ⟨after, stepped, afterSized, unchanged, new⟩ :=
      solveNext_solves graphSized bounded startInside middleSized below several nextInside (by
        intro member apart
        have size := elements_erase (Finset.mem_filter.mpr ⟨Finset.mem_range.mpr nextInside, mem_places.mp member⟩)
        have less := erase_lt below nextInside
        refine (previous _ less ?_ (by omega)).congr ?_
        · rw [places_erase member]
          exact ⟨startMember, apart.symm⟩
        · intro row
          refine others row _ ?_
          intro same
          rw [same] at size
          omega)
    refine ⟨after, stepped, afterSized, ?_, ?_⟩
    · intro row column apart
      rw [unchanged row column (Or.inr apart), others row column apart]
    · intro node member
      rcases List.mem_append.mp member with old | isNext
      · intro nodeMember nodeApart
        rw [unchanged node subset (Or.inl fun same => newNode (same ▸ old))]
        exact filled node old nodeMember nodeApart
      · rw [List.mem_singleton.mp isNext]
        exact new
  refine ⟨final, ?_, finalSized, others, ?_⟩
  · rw [solveSubset, Int.toNat_natCast, if_neg skipped, run]
  · intro _ node member apart
    exact filled node (List.mem_range.mpr (lt_of_mem_places below member)) member apart

/-- Every subset with fewer elements is filled. -/
structure Filled (graph : AdjacencyMatrix) (start n count : Nat) (memo : AdjacencyMatrix) : Prop where
  sized : Sized n (2 ^ n) memo
  solved : ∀ subset < 2 ^ n, start ∈ places subset → (elements n subset).card < count → Solved graph start memo subset

omit bounded in
/-- The table is ready for the subsets of three nodes. -/
theorem setup_fills : ∃ memo, setup graph start n (List.replicate n (List.replicate (2 ^ n) 0)) = .ok memo ∧
    Filled graph start n 3 memo := by
  obtain ⟨memo, run, sized, edges⟩ : ∃ memo, setup graph start n (List.replicate n (List.replicate (2 ^ n) 0)) = .ok memo ∧
      Sized n (2 ^ n) memo ∧ ∀ node ∈ List.range n, node ≠ start →
        entry memo node ((1 <<< start) ||| (1 <<< node)) = entry graph start node := by
    refine foldlM_runs (fun done memo => Sized n (2 ^ n) memo ∧ ∀ node ∈ done, node ≠ start →
        entry memo node ((1 <<< start) ||| (1 <<< node)) = entry graph start node)
      ⟨Sized.replicate n (2 ^ n), List.forall_mem_nil _⟩ ?_
    rintro done node rest memo whole ⟨sized, edges⟩
    have inside : node < n := List.mem_range.mp (by simp [whole])
    by_cases same : node = start
    · refine ⟨memo, if_neg (not_not.mpr same), sized, ?_⟩
      intro other member apart
      rcases List.mem_append.mp member with old | new
      · exact edges other old apart
      · exact absurd ((List.mem_singleton.mp new).trans same) apart
    · have below : (1 <<< start) ||| (1 <<< node) < 2 ^ n := by
        rw [Nat.one_shiftLeft, Nat.one_shiftLeft]
        exact Nat.or_lt_two_pow (pow_lt_pow_right₀ (by norm_num) startInside) (pow_lt_pow_right₀ (by norm_num) inside)
      obtain ⟨after, written, afterSized, new, others⟩ := setCell_sized sized inside below (entry graph start node)
      refine ⟨after, ?_, afterSized, ?_⟩
      · rw [if_pos same, cell_sized graphSized startInside inside, Outcome.ok_bind, written]
      · intro other member apart
        by_cases isNode : other = node
        · rw [isNode, new]
        · rw [others other _ (Or.inl isNode)]
          refine edges other ((List.mem_append.mp member).resolve_right ?_) apart
          exact fun isNew => isNode (List.mem_singleton.mp isNew)
  refine ⟨memo, run, sized, ?_⟩
  intro subset below startMember fewer node member apart
  have pair : ({start, node} : Finset Nat) = elements n subset := by
    refine Finset.eq_of_subset_of_card_le ?_ ?_
    · rw [← Finset.coe_subset, coe_elements below, Finset.coe_pair]
      exact Set.pair_subset startMember member
    · rw [Finset.card_pair apart.symm]
      omega
  have places_eq : places subset = {start, node} := by rw [← coe_elements below, ← pair, Finset.coe_pair]
  obtain rfl : subset = (1 <<< start) ||| (1 <<< node) := places_injective (by rw [places_eq, places_pair])
  rw [edges node (List.mem_range.mpr (lt_of_mem_places below member)) apart, places_eq]
  exact Shortest.single apart

/-- The subsets of one size are filled. -/
theorem solveSize_fills {r : Nat} (several : 3 ≤ r) (within : r ≤ n) (short : n ≤ 10) (filled : Filled graph start n r memo) :
    ∃ after, solveSize graph start n memo r = .ok after ∧ Filled graph start n (r + 1) after := by
  obtain ⟨masks, generated, _, each⟩ := combinations_short (by omega : 1 ≤ r) within short
  have mask_iff : ∀ subset : Nat, (subset : Int) ∈ masks ↔ subset < 2 ^ n ∧ (elements n subset).card = r := by
    intro subset
    rw [each, Int.toNat_natCast]
    constructor
    · rintro ⟨_, below, ones⟩
      have small : subset < 2 ^ n := by exact_mod_cast below
      exact ⟨small, by rw [← count_digits small, ones]⟩
    · rintro ⟨small, size⟩
      exact ⟨Int.natCast_nonneg subset, by exact_mod_cast small, by rw [count_digits small, size]⟩
  obtain ⟨final, run, finalFilled, new⟩ : ∃ final, masks.foldlM (solveSubset graph start n) memo = .ok final ∧
      Filled graph start n r final ∧
      ∀ subset : Nat, (subset : Int) ∈ masks → start ∈ places subset → Solved graph start final subset := by
    refine foldlM_runs (fun done after => Filled graph start n r after ∧
      ∀ subset : Nat, (subset : Int) ∈ done → start ∈ places subset → Solved graph start after subset)
      ⟨filled, fun _ member => absurd member List.not_mem_nil⟩ ?_
    rintro done mask rest middle whole ⟨middleFilled, processed⟩
    have maskMember : mask ∈ masks := by simp [whole]
    obtain ⟨subset, rfl⟩ := Int.eq_ofNat_of_zero_le ((each mask).mp maskMember).1
    obtain ⟨below, size⟩ := (mask_iff subset).mp maskMember
    obtain ⟨after, stepped, afterSized, others, solved⟩ :=
      solveSubset_solves graphSized bounded startInside middleFilled.sized below (by omega) (by rw [size]; exact middleFilled.solved)
    refine ⟨after, stepped, ⟨afterSized, ?_⟩, ?_⟩
    · intro smaller smallerBelow member fewer
      refine (middleFilled.solved smaller smallerBelow member fewer).congr fun row => others row smaller ?_
      rintro rfl
      omega
    · intro other member startMember
      by_cases same : other = subset
      · subst same
        exact solved startMember
      · rcases List.mem_append.mp member with old | isNew
        · exact (processed other old startMember).congr fun row => others row other same
        · exact absurd (by exact_mod_cast List.mem_singleton.mp isNew) same
  refine ⟨final, by rw [solveSize, generated, Outcome.ok_bind, run], finalFilled.sized, ?_⟩
  intro subset below member fewer
  rcases Nat.lt_succ_iff_lt_or_eq.mp fewer with less | same
  · exact finalFilled.solved subset below member less
  · exact new subset ((mask_iff subset).mpr ⟨below, same⟩) member

theorem solve_fills (short : n ≤ 10) (filled : Filled graph start n 3 memo) :
    ∃ after, solve graph start n memo = .ok after ∧ Filled graph start n (n + 1) after := by
  obtain ⟨final, run, finalFilled⟩ : ∃ final, (List.range' 3 (n - 2)).foldlM (solveSize graph start n) memo = .ok final ∧
      Filled graph start n (3 + (List.range' 3 (n - 2)).length) final := by
    refine foldlM_runs (fun done after => Filled graph start n (3 + done.length) after) filled ?_
    intro done r rest middle whole middleFilled
    have place : (List.range' 3 (n - 2))[done.length]? = some r := by
      rw [whole, List.getElem?_append_right (le_refl _), Nat.sub_self]
      rfl
    obtain ⟨inside, here⟩ := List.getElem?_eq_some_iff.mp place
    rw [List.length_range'] at inside
    rw [List.getElem_range', one_mul] at here
    rw [here] at middleFilled
    obtain ⟨after, stepped, afterFilled⟩ :=
      solveSize_fills graphSized bounded startInside (by omega) (by omega) short middleFilled
    refine ⟨after, stepped, ?_⟩
    rw [List.length_append, List.length_singleton, ← add_assoc, here]
    exact afterFilled
  refine ⟨final, run, finalFilled.sized, ?_⟩
  intro subset below member fewer
  rw [List.length_range'] at finalFilled
  exact finalFilled.solved subset below member (by omega)

end

end Dsac.Graph.Tsp

import Dsac.Library.StableOrder
import Dsac.Algorithm.Vector

namespace Dsac.Sort

open Dsac.Library

/-! `detail::bubble_sort`, `detail::selection_sort` and `detail::insertion_sort`. An iterator is its
distance from `begin`. -/

section

variable {T : Type} (comp : T → T → Bool)

/-- `for (j = begin; j < i; ++j)`, the last `count` iterations. -/
def bubbleLoop (i : Int) : Nat → List T → Int → Outcome (List T)
  | 0, arr, _ => .ok arr
  | count + 1, arr, j => do
      if comp (← readAt arr i) (← readAt arr j) then bubbleLoop i count (← swapAt arr i j) (j + 1)
      else bubbleLoop i count arr (j + 1)

/-- `for (i = begin; i != end; ++i)`, the last `count` iterations. -/
def bubblePasses : Nat → List T → Int → Outcome (List T)
  | 0, arr, _ => .ok arr
  | count + 1, arr, i => do
      bubblePasses count (← bubbleLoop comp i i.toNat arr 0) (i + 1)

def bubbleSort (arr : List T) : Outcome (List T) := bubblePasses comp arr.length arr 0

/-- `for (j = i + 1; j < end; ++j)`, the last `count` iterations. -/
def selectionLoop (arr : List T) : Nat → Int → Int → Outcome Int
  | 0, _, min => .ok min
  | count + 1, j, min => do
      if comp (← readAt arr j) (← readAt arr min) then selectionLoop arr count (j + 1) j
      else selectionLoop arr count (j + 1) min

/-- `for (i = begin; i < end; ++i)`, the last `count` iterations. -/
def selectionPasses : Nat → List T → Int → Outcome (List T)
  | 0, arr, _ => .ok arr
  | count + 1, arr, i => do
      let min ← selectionLoop comp arr count (i + 1) i
      selectionPasses count (← swapAt arr i min) (i + 1)

def selectionSort (arr : List T) : Outcome (List T) := selectionPasses comp arr.length arr 0

/-- The `while` loop, which shifts the elements that the key precedes. -/
def insertionLoop (key : T) : Nat → List T → Int → Outcome (List T × Int)
  | 0, _, _ => .error .fuel
  | fuel + 1, arr, i =>
      if 0 ≤ i then do
        let value ← readAt arr i
        if comp key value then insertionLoop key fuel (← writeAt arr (i + 1) value) (i - 1)
        else .ok (arr, i)
      else .ok (arr, i)

/-- `for (j = 1; j < n; ++j)`, the last `count` iterations. -/
def insertionPasses : Nat → List T → Int → Outcome (List T)
  | 0, arr, _ => .ok arr
  | count + 1, arr, j => do
      let key ← readAt arr j
      let (arr, i) ← insertionLoop comp key (arr.length + 1) arr (j - 1)
      insertionPasses count (← writeAt arr (i + 1) key) (j + 1)

def insertionSort (arr : List T) : Outcome (List T) := insertionPasses comp (arr.length - 1) arr 1

end

/-- No later element precedes an earlier one. -/
abbrev Ordered {T : Type} (comp : T → T → Bool) (arr : List T) : Prop :=
  arr.Pairwise fun first second => comp second first = false

variable {T : Type} {comp : T → T → Bool} (order : StrictWeakOrder comp)
include order

/-- The element at the end of the prefix changes places with each element that it precedes. `front` is
what the loop has passed, and what is not passed is not below it. -/
theorem bubbleLoop_append (front rest back : List T) (value : T) {i j : Int} (here : j = front.length)
    (last : i = front.length + rest.length) (frontOrdered : Ordered comp front) (restOrdered : Ordered comp rest)
    (above : ∀ x ∈ front, comp value x = false) (across : ∀ x ∈ front, ∀ y ∈ rest, comp y x = false) :
    ∃ sorted, bubbleLoop comp i rest.length (front ++ (rest ++ value :: back)) j = .ok (sorted ++ back) ∧
      sorted.Perm (front ++ (rest ++ [value])) ∧ Ordered comp sorted := by
  induction rest generalizing front value j with
  | nil =>
      refine ⟨front ++ [value], by simp [bubbleLoop], .refl _, ?_⟩
      exact List.pairwise_append.mpr ⟨frontOrdered, List.pairwise_singleton .., by simpa using above⟩
  | cons first rest inductionHypothesis =>
      obtain ⟨least, restOrdered⟩ := List.pairwise_cons.mp restOrdered
      have read : readAt (front ++ (first :: rest ++ value :: back)) j = .ok first := readAt_append here
      have readLast : readAt (front ++ first :: rest ++ value :: back) i = .ok value :=
        readAt_append (by rw [last, List.length_append]; push_cast; rfl)
      rw [List.append_assoc] at readLast
      have startNext : ∀ x : T, j + 1 = (front ++ [x]).length := fun x => by rw [length_snoc, here]
      have lastNext : ∀ x : T, i = (front ++ [x]).length + rest.length := fun x => by
        rw [length_snoc, last, List.length_cons]
        push_cast
        omega
      simp only [List.length_cons, bubbleLoop, read, readLast, Outcome.ok_bind]
      cases precedes : comp value first with
      | true =>
          have swapped : swapAt (front ++ first :: (rest ++ value :: back)) i j =
              .ok (front ++ value :: (rest ++ first :: back)) :=
            swapAt_append_back here (by rw [last, List.length_cons]; push_cast; omega)
          have low : ∀ x ∈ front ++ [value], comp first x = false := by
            refine List.forall_mem_append.mpr ⟨fun x member => across x member first (List.mem_cons_self ..), ?_⟩
            exact List.forall_mem_singleton.mpr (order.asymm precedes)
          obtain ⟨sorted, ran, same, ordered⟩ := inductionHypothesis (front ++ [value]) first (startNext value)
            (lastNext value) (List.pairwise_append.mpr ⟨frontOrdered, List.pairwise_singleton .., by simpa using above⟩)
            restOrdered low fun x member y inside => by
              rcases List.mem_append.mp member with old | new
              · exact across x old y (List.mem_cons_of_mem _ inside)
              · exact order.not_trans (least y inside) (low x (List.mem_append_right _ new))
          refine ⟨sorted, ?_, same.trans ?_, ordered⟩
          · rw [List.append_assoc, List.singleton_append] at ran
            simp only [if_true, List.cons_append, swapped, Outcome.ok_bind, ran]
          · rw [List.append_assoc]
            exact (perm_swap value first rest []).append_left front
      | false =>
          have firstAbove : ∀ x ∈ front, comp first x = false := fun x member =>
            across x member first (List.mem_cons_self ..)
          obtain ⟨sorted, ran, same, ordered⟩ := inductionHypothesis (front ++ [first]) value (startNext first)
            (lastNext first) (List.pairwise_append.mpr ⟨frontOrdered, List.pairwise_singleton .., by simpa using firstAbove⟩)
            restOrdered (List.forall_mem_append.mpr ⟨above, List.forall_mem_singleton.mpr precedes⟩)
            fun x member y inside => by
              rcases List.mem_append.mp member with old | new
              · exact across x old y (List.mem_cons_of_mem _ inside)
              · rw [List.mem_singleton.mp new]
                exact least y inside
          refine ⟨sorted, ?_, ?_, ordered⟩
          · rw [List.append_assoc, List.singleton_append] at ran
            simp only [Bool.false_eq_true, if_false, List.cons_append, ran]
          · rwa [List.append_assoc, List.singleton_append] at same

theorem bubblePasses_append (sorted rest : List T) {i : Int} (here : i = sorted.length) (ordered : Ordered comp sorted) :
    ∃ result, bubblePasses comp rest.length (sorted ++ rest) i = .ok result ∧ result.Perm (sorted ++ rest) ∧
      Ordered comp result := by
  induction rest generalizing sorted i with
  | nil => exact ⟨sorted, by simp [bubblePasses], by simp, ordered⟩
  | cons value rest inductionHypothesis =>
      obtain ⟨longer, ran, same, longerOrdered⟩ := bubbleLoop_append order [] sorted rest value (i := i) (j := 0) rfl
        (by simpa using here) .nil ordered (List.forall_mem_nil _) (List.forall_mem_nil _)
      have length := same.length_eq
      simp only [List.nil_append, List.length_append, List.length_singleton] at ran same length
      obtain ⟨result, later, permuted, resultOrdered⟩ := inductionHypothesis longer
        (by rw [here, length]; push_cast; rfl : i + 1 = longer.length) longerOrdered
      have passed : i.toNat = sorted.length := by omega
      refine ⟨result, ?_, permuted.trans ?_, resultOrdered⟩
      · simp only [List.length_cons, bubblePasses, passed, ran, Outcome.ok_bind, later]
      · have whole := same.append_right rest
        rwa [List.append_assoc] at whole

/-- The index of an element that no seen one precedes, with the elements before and behind it. -/
theorem selectionLoop_append (front before : List T) (least : T) (between rest : List T) {j min : Int}
    (here : min = front.length + before.length) (next : j = min + 1 + between.length)
    (lowest : ∀ x ∈ before ++ least :: between, comp x least = false) :
    ∃ before' least' between', before' ++ least' :: between' = before ++ least :: (between ++ rest) ∧
      selectionLoop comp (front ++ (before ++ least :: (between ++ rest))) rest.length j min =
        .ok (front.length + before'.length) ∧
      ∀ x ∈ before' ++ least' :: between', comp x least' = false := by
  induction rest generalizing before least between j min with
  | nil =>
      rw [List.append_nil]
      exact ⟨before, least, between, rfl, by rw [here]; rfl, lowest⟩
  | cons value rest inductionHypothesis =>
      have start : min = (front ++ before).length := by rw [here, List.length_append, Nat.cast_add]
      have read : readAt (front ++ before ++ least :: (between ++ value :: rest)) min = .ok least := readAt_append start
      have readNext : readAt (front ++ before ++ least :: (between ++ value :: rest)) j = .ok value :=
        readAt_second (by omega) least value
      rw [List.append_assoc] at read readNext
      simp only [List.length_cons, selectionLoop, read, readNext, Outcome.ok_bind]
      cases precedes : comp value least with
      | true =>
          have lower : ∀ x ∈ before ++ least :: between ++ value :: [], comp x value = false := by
            refine List.forall_mem_append.mpr ⟨fun x member => ?_, List.forall_mem_singleton.mpr (order.irrefl value)⟩
            by_contra below
            have less := order.trans x value least (by simpa using below) precedes
            rw [lowest x member] at less
            cases less
          have place : j = front.length + (before ++ least :: between).length := by
            rw [next, here, List.length_append, List.length_cons]
            push_cast
            omega
          obtain ⟨before', least', between', shape, ran, bound⟩ := inductionHypothesis (before ++ least :: between) value []
            place (by simp : j + 1 = j + 1 + ([] : List T).length) lower
          simp only [List.append_assoc, List.cons_append, List.nil_append] at shape ran
          exact ⟨before', least', between', shape, by simpa only [if_true] using ran, bound⟩
      | false =>
          have lower : ∀ x ∈ before ++ least :: (between ++ [value]), comp x least = false := by
            rw [← List.cons_append, ← List.append_assoc]
            exact List.forall_mem_append.mpr ⟨lowest, List.forall_mem_singleton.mpr precedes⟩
          obtain ⟨before', least', between', shape, ran, bound⟩ := inductionHypothesis before least (between ++ [value])
            here (by rw [length_snoc, next]; omega : j + 1 = min + 1 + (between ++ [value]).length) lower
          simp only [List.append_assoc, List.cons_append, List.nil_append] at shape ran
          exact ⟨before', least', between', shape, by simpa only [Bool.false_eq_true, if_false] using ran, bound⟩

/-- `sorted` holds the least elements. -/
theorem selectionPasses_append (count : Nat) (sorted rest : List T) {i : Int} (length : rest.length = count)
    (here : i = sorted.length) (ordered : Ordered comp sorted) (least : ∀ x ∈ sorted, ∀ y ∈ rest, comp y x = false) :
    ∃ result, selectionPasses comp count (sorted ++ rest) i = .ok result ∧ result.Perm (sorted ++ rest) ∧
      Ordered comp result := by
  induction count generalizing sorted rest i with
  | zero =>
      obtain rfl := List.eq_nil_of_length_eq_zero length
      exact ⟨sorted, by simp [selectionPasses], by simp, ordered⟩
  | succ count inductionHypothesis =>
      obtain ⟨value, rest, rfl⟩ := List.exists_cons_of_length_eq_add_one length
      obtain rfl : count = rest.length := (Nat.succ.inj length).symm
      obtain ⟨before, lowest, between, shape, ran, bound⟩ := selectionLoop_append order sorted [] value [] rest (j := i + 1)
        (by simpa using here : i = sorted.length + ([] : List T).length) (by simp) (by simpa using order.irrefl value)
      simp only [List.nil_append] at shape ran
      obtain ⟨others, swapped, same⟩ : ∃ others, swapAt (sorted ++ value :: rest) i (sorted.length + before.length) =
          .ok (sorted ++ lowest :: others) ∧ (lowest :: others).Perm (value :: rest) := by
        cases before with
        | nil =>
            obtain ⟨rfl, rfl⟩ := List.cons.inj shape
            have self : (sorted.length : Int) + ([] : List T).length = i := by simp [here]
            exact ⟨between, by rw [self, swapAt_self here], .refl _⟩
        | cons _ before =>
            obtain ⟨rfl, rfl⟩ := List.cons.inj shape
            refine ⟨before ++ _ :: between, swapAt_append here ?_, perm_swap ..⟩
            rw [List.length_cons]
            push_cast
            omega
      have lower : ∀ y ∈ value :: rest, comp y lowest = false := by rwa [shape] at bound
      have isMember : lowest ∈ value :: rest := same.mem_iff.mp (List.mem_cons_self ..)
      have longer : Ordered comp (sorted ++ [lowest]) := by
        refine List.pairwise_append.mpr ⟨ordered, List.pairwise_singleton .., fun x member => ?_⟩
        exact List.forall_mem_singleton.mpr (least x member lowest isMember)
      have across : ∀ x ∈ sorted ++ [lowest], ∀ y ∈ others, comp y x = false := by
        intro x member y inside
        have inRest := same.mem_iff.mp (List.mem_cons_of_mem lowest inside)
        rcases List.mem_append.mp member with old | new
        · exact least x old y inRest
        · rw [List.mem_singleton.mp new]
          exact lower y inRest
      obtain ⟨result, later, permuted, resultOrdered⟩ := inductionHypothesis (sorted ++ [lowest]) others
        (Nat.succ.inj same.length_eq) (by rw [length_snoc, here] : i + 1 = (sorted ++ [lowest]).length) longer across
      rw [List.append_assoc, List.singleton_append] at later permuted
      refine ⟨result, ?_, permuted.trans (same.append_left sorted), resultOrdered⟩
      simp only [selectionPasses, ran, Outcome.ok_bind, swapped, later]

/-- The key is shifted past `moved`, which it precedes; `hole` is free to be overwritten. -/
theorem insertionLoop_append (key hole : T) (below moved back : List T) {i : Int} (here : i + 1 = below.length)
    (ordered : Ordered comp below) (above : ∀ x ∈ moved, comp key x) {fuel : Nat} (enough : below.length < fuel) :
    ∃ low shifted hole', insertionLoop comp key fuel (below ++ hole :: (moved ++ back)) i =
        .ok (low ++ hole' :: (shifted ++ back), low.length - 1) ∧
      low ++ shifted = below ++ moved ∧ (∀ x ∈ low, comp key x = false) ∧ ∀ x ∈ shifted, comp key x := by
  induction below using List.reverseRecOn generalizing hole moved i fuel with
  | nil =>
      obtain ⟨fuel, rfl⟩ := Nat.exists_eq_add_of_lt enough
      have ended : ¬ 0 ≤ i := by
        rw [List.length_nil] at here
        omega
      refine ⟨[], moved, hole, ?_, rfl, List.forall_mem_nil _, above⟩
      rw [insertionLoop, if_neg ended]
      simp only [List.nil_append]
      congr 2
      omega
  | append_singleton below last inductionHypothesis =>
      obtain ⟨belowOrdered, _, across⟩ := List.pairwise_append.mp ordered
      have place := here
      rw [length_snoc] at place
      rw [List.length_append, List.length_singleton] at enough
      obtain ⟨fuel, rfl⟩ : ∃ less, fuel = less + 1 := ⟨fuel - 1, by omega⟩
      have goes : 0 ≤ i := by omega
      have read : readAt (below ++ last :: (hole :: (moved ++ back))) i = .ok last := readAt_append (by omega)
      have written : writeAt (below ++ [last] ++ hole :: (moved ++ back)) (i + 1) last =
          .ok (below ++ [last] ++ last :: (moved ++ back)) := writeAt_append here last
      simp only [List.append_assoc, List.singleton_append] at written ⊢
      rw [insertionLoop, if_pos goes, read, Outcome.ok_bind]
      by_cases precedes : comp key last = true
      · obtain ⟨low, shifted, hole', ran, same, lower, upper⟩ := inductionHypothesis last (last :: moved)
          (by omega : i - 1 + 1 = below.length) belowOrdered (List.forall_mem_cons.mpr ⟨precedes, above⟩)
          (by omega : below.length < fuel)
        refine ⟨low, shifted, hole', ?_, same, lower, upper⟩
        rw [List.cons_append] at ran
        rw [if_pos precedes, written, Outcome.ok_bind, ran]
      · have least : comp key last = false := by simpa using precedes
        refine ⟨below ++ [last], moved, hole, ?_, by simp, ?_, above⟩
        · rw [if_neg precedes, List.append_assoc, List.singleton_append, length_snoc]
          congr 2
          omega
        · refine List.forall_mem_append.mpr ⟨fun x member => ?_, List.forall_mem_singleton.mpr least⟩
          exact order.not_trans least (across x member last (List.mem_singleton_self last))

theorem insertionPasses_append (given sorted rest : List T) {j : Int} (here : j = sorted.length)
    (stable : StablySorted comp given sorted) :
    ∃ result, insertionPasses comp rest.length (sorted ++ rest) j = .ok result ∧
      StablySorted comp (given ++ rest) result := by
  induction rest generalizing given sorted j with
  | nil => exact ⟨sorted, by simp [insertionPasses], by simpa using stable⟩
  | cons key rest inductionHypothesis =>
      have read : readAt (sorted ++ key :: rest) j = .ok key := readAt_append here
      obtain ⟨low, shifted, hole, ran, shape, lower, upper⟩ := insertionLoop_append order key key sorted [] rest
        (by omega : j - 1 + 1 = sorted.length) stable.ordered (List.forall_mem_nil _)
        (by rw [List.length_append]; omega : sorted.length < (sorted ++ key :: rest).length + 1)
      rw [List.append_nil] at shape
      rw [← shape] at stable
      have inserted := stable.insert order lower upper
      have written : writeAt (low ++ hole :: (shifted ++ rest)) (low.length - 1 + 1) key =
          .ok (low ++ key :: (shifted ++ rest)) := writeAt_append (by omega) key
      have length := congrArg List.length shape
      rw [List.length_append] at length
      have next : j + 1 = (low ++ key :: shifted).length := by
        rw [List.length_append, List.length_cons]
        push_cast
        omega
      obtain ⟨result, later, sortedStably⟩ := inductionHypothesis (given ++ [key]) (low ++ key :: shifted) next inserted
      rw [List.append_assoc, List.singleton_append] at sortedStably
      rw [List.append_assoc, List.cons_append] at later
      refine ⟨result, ?_, sortedStably⟩
      rw [List.nil_append] at ran
      simp only [List.length_cons, insertionPasses, read, Outcome.ok_bind, ran, written, later]

/-- **The sorts of ranges.** Under every strict weak ordering all three sorts leave a permutation in which
no later element precedes an earlier one, and `insertion_sort` keeps equivalent elements in their order. -/
theorem rangeSorts_ordered (arr : List T) :
    (∃ sorted, bubbleSort comp arr = .ok sorted ∧ sorted.Perm arr ∧ Ordered comp sorted) ∧
      (∃ sorted, selectionSort comp arr = .ok sorted ∧ sorted.Perm arr ∧ Ordered comp sorted) ∧
        ∃ sorted, insertionSort comp arr = .ok sorted ∧ StablySorted comp arr sorted := by
  refine ⟨?_, ?_, ?_⟩
  · exact bubblePasses_append order [] arr rfl .nil
  · exact selectionPasses_append order arr.length [] arr rfl rfl .nil (List.forall_mem_nil _)
  · cases arr with
    | nil => exact ⟨[], rfl, .nil⟩
    | cons first rest =>
        have single : StablySorted comp [first] [first] := ⟨List.pairwise_singleton .., .refl _, fun _ => rfl⟩
        exact insertionPasses_append order [first] [first] rest rfl single

omit order in
/-- Pairs are compared by their first entries. -/
theorem rangeSorts_ordered_pairs :
    let first := fun one two : Nat × Nat => decide (one.1 < two.1)
    let arr := [(2, 0), (1, 1), (2, 2)]
    (∃ sorted, bubbleSort first arr = .ok sorted ∧ sorted.Perm arr ∧ Ordered first sorted) ∧
      (∃ sorted, selectionSort first arr = .ok sorted ∧ sorted.Perm arr ∧ Ordered first sorted) ∧
        ∃ sorted, insertionSort first arr = .ok sorted ∧ StablySorted first arr sorted :=
  rangeSorts_ordered (StrictWeakOrder.less.on Prod.fst) _

end Dsac.Sort

import Dsac.Library.HeapOrder
import Dsac.Library.SortedRange
import Dsac.Algorithm.Vector

namespace Dsac.Sort

open Dsac.Library

/-! `dsac::sort::HeapSort`. -/

variable {T : Type} [LinearOrder T]

/-- `if ((child < size) && (arr[child] > arr[largest])) largest = child;` -/
def larger (arr : List T) (size child largest : Int) : Outcome Int :=
  if child < size then do
    if (← readAt arr child) > (← readAt arr largest) then return child else return largest
  else .ok largest

/-- `Heapify` below one place. The fuel bounds the depth of the recursion. -/
def heapify : Nat → List T → Int → Int → Outcome (List T)
  | 0, _, _, _ => .error .fuel
  | fuel + 1, arr, size, root => do
      let left ← checked (2 * root + 1)
      let right ← checked (2 * root + 2)
      let largest ← larger arr size left root
      let largest ← larger arr size right largest
      if largest ≠ root then heapify fuel (← swapAt arr root largest) size largest else .ok arr

/-- `for (; i >= 0; i--)`, where `count` is `i + 1`. -/
def heapifyFrom : Nat → List T → Outcome (List T)
  | 0, arr => .ok arr
  | count + 1, arr => do heapifyFrom count (← heapify (arr.length + 1) arr (toInt arr.length) count)

/-- `Heapify` of the whole vector. -/
def buildHeap (arr : List T) : Outcome (List T) :=
  heapifyFrom (toInt (arr.length / 2 - 1) + 1).toNat arr

/-- The first `steps` iterations of `for (; i >= 0; i--)`. -/
def extract : Nat → List T → Int → Outcome (List T)
  | 0, arr, _ => .ok arr
  | steps + 1, arr, i => do
      let arr ← swapAt arr 0 i
      extract steps (← heapify (arr.length + 1) arr i 0) (i - 1)

def heapSort (arr : List T) : Outcome (List T) := do
  let last := toInt (arr.length - 1)
  extract (last + 1).toNat (← buildHeap arr) last

/-- Every node of the implicit tree dominates its children. -/
def IsHeap (heap : List T) : Prop :=
  ∀ parent child value other, child = 2 * parent + 1 ∨ child = 2 * parent + 2 →
    heap[parent]? = some value → heap[child]? = some other → other ≤ value

/-- Larger values come first. -/
def first (a b : WithBot (WithTop T)) : Bool := decide (b < a)

/-- The values of a heap, of which the places before `low` count as larger than all values. -/
def values (heap : List T) (low place : Nat) : WithBot (WithTop T) :=
  if place < low then ((⊤ : WithTop T) : WithBot (WithTop T))
  else
    match heap[place]? with
    | some value => ((value : WithTop T) : WithBot (WithTop T))
    | none => ⊥

theorem first_order : StrictWeakOrder (first : WithBot (WithTop T) → WithBot (WithTop T) → Bool) where
  irrefl := by simp [first]
  trans a b c := by
    simp only [first, decide_eq_true_eq]
    exact fun one two => two.trans one
  incomparable_trans a b c := by
    simp only [first, decide_eq_false_iff_not, not_lt]
    exact fun one two three four => ⟨one.trans three, four.trans two⟩

variable {heap back : List T} {value : T} {low root : Nat}

theorem first_false {a b : WithBot (WithTop T)} : first a b = false ↔ a ≤ b := by
  rw [first, decide_eq_false_iff_not, not_lt]

omit [LinearOrder T] in
theorem values_below (below : root < low) : values heap low root = ((⊤ : WithTop T) : WithBot (WithTop T)) := by
  rw [values, if_pos below]

omit [LinearOrder T] in
theorem values_inside (inside : low ≤ root) (here : heap[root]? = some value) :
    values heap low root = ((value : WithTop T) : WithBot (WithTop T)) := by
  rw [values, if_neg (not_lt.mpr inside), here]

omit [LinearOrder T] in
theorem values_outside (inside : low ≤ root) (here : heap.length ≤ root) : values heap low root = ⊥ := by
  rw [values, if_neg (not_lt.mpr inside), List.getElem?_eq_none here]

theorem values_le_top : values heap low root ≤ ((⊤ : WithTop T) : WithBot (WithTop T)) := by
  by_cases below : root < low
  · rw [values_below below]
  · cases found : heap[root]? with
    | none =>
        rw [values_outside (not_lt.mp below) (List.getElem?_eq_none_iff.mp found)]
        exact bot_le
    | some value =>
        rw [values_inside (not_lt.mp below) found]
        exact WithBot.coe_le_coe.mpr le_top

/-- Once nothing is left out, the order of the values is that of the heap. -/
theorem heapOrder_iff : HeapOrder first (values heap 0) ↔ IsHeap heap := by
  constructor
  · intro ordered parent child value other under readParent readChild
    have fact := ordered child (by omega)
    rw [first_false, (parentPlace_eq_iff (by omega)).mpr under, values_inside (by omega) readParent,
      values_inside (by omega) readChild, WithBot.coe_le_coe, WithTop.coe_le_coe] at fact
    exact fact
  · intro isHeap child positive
    have higher := parentPlace_lt positive
    rw [first_false]
    cases readChild : heap[child]? with
    | none =>
        rw [values_outside (by omega) (List.getElem?_eq_none_iff.mp readChild)]
        exact bot_le
    | some other =>
        obtain ⟨inside, _⟩ := List.getElem?_eq_some_iff.mp readChild
        have readParent := List.getElem?_eq_getElem (by omega : parentPlace child < heap.length)
        rw [values_inside (by omega) readChild, values_inside (by omega) readParent, WithBot.coe_le_coe, WithTop.coe_le_coe]
        exact isHeap _ child _ other ((parentPlace_eq_iff positive).mp rfl) readParent readChild

theorem larger_eq {child : Nat} (inside : low ≤ root) (above : root ≤ child) :
    larger (heap ++ back) heap.length child root =
      .ok (if values heap low root < values heap low child then child else root : Nat) := by
  by_cases within : child < heap.length
  · have read := List.getElem?_eq_getElem (by omega : root < heap.length)
    have readChild := List.getElem?_eq_getElem within
    rw [larger, if_pos (by omega), readAt_of_getElem? back read, readAt_of_getElem? back readChild,
      values_inside inside read, values_inside (by omega) readChild]
    simp only [Outcome.ok_bind, WithBot.coe_lt_coe, WithTop.coe_lt_coe, gt_iff_lt]
    split_ifs
    · rfl
    · rfl
  · rw [larger, if_neg (by omega), values_outside (by omega : low ≤ child) (by omega), if_neg not_lt_bot]

theorem values_swap {child : Nat} {other : T} (inside : low ≤ root) (above : root < child) (here : heap[root]? = some value)
    (there : heap[child]? = some other) :
    values ((heap.set root other).set child value) low = exchanged (values heap low) root child := by
  obtain ⟨rootInside, _⟩ := List.getElem?_eq_some_iff.mp here
  obtain ⟨childInside, _⟩ := List.getElem?_eq_some_iff.mp there
  funext place
  by_cases same : place = child
  · subst same
    rw [exchanged_second, values_inside inside here, values_inside (by omega)]
    rw [List.getElem?_set_self (by rwa [List.length_set])]
  by_cases same' : place = root
  · subst same'
    rw [exchanged_first, values_inside (by omega) there, values_inside inside]
    rw [List.getElem?_set_ne (Ne.symm same), List.getElem?_set_self rootInside]
  · rw [exchanged_other same' same, values, values, List.getElem?_set_ne (Ne.symm same), List.getElem?_set_ne (Ne.symm same')]

/-- The place that `Heapify` exchanges with the root: no child is larger than the value there. -/
theorem larger_cases (heap back : List T) {low root : Nat} (inside : low ≤ root) :
    ∃ largest : Nat, (larger (heap ++ back) heap.length (2 * root + 1) root >>= fun largest =>
        larger (heap ++ back) heap.length (2 * root + 2) largest) = .ok (largest : Int) ∧
      (∀ child > 0, parentPlace child = root → values heap low child ≤ values heap low largest) ∧
      ((largest = root ∧ ∀ child > 0, parentPlace child = root → values heap low child ≤ values heap low root) ∨
        (parentPlace largest = root ∧ root < largest ∧ values heap low root < values heap low largest)) := by
  have leftPlace : 2 * (root : Int) + 1 = ((2 * root + 1 : Nat) : Int) := by omega
  have rightPlace : 2 * (root : Int) + 2 = ((2 * root + 2 : Nat) : Int) := by omega
  have both : ∀ value, values heap low (2 * root + 1) ≤ value → values heap low (2 * root + 2) ≤ value →
      ∀ child > 0, parentPlace child = root → values heap low child ≤ value := by
    intro value leftBelow rightBelow child positive under
    rcases (parentPlace_eq_iff positive).mp under with rfl | rfl
    · exact leftBelow
    · exact rightBelow
  rw [leftPlace, rightPlace, larger_eq inside (by omega : root ≤ 2 * root + 1), Outcome.ok_bind]
  by_cases leftLarger : values heap low root < values heap low (2 * root + 1)
  · rw [if_pos leftLarger, larger_eq (by omega : low ≤ 2 * root + 1) (by omega : 2 * root + 1 ≤ 2 * root + 2)]
    by_cases rightLarger : values heap low (2 * root + 1) < values heap low (2 * root + 2)
    · rw [if_pos rightLarger]
      exact ⟨_, rfl, both _ rightLarger.le le_rfl, Or.inr ⟨(parentPlace_eq_iff (by omega)).mpr (Or.inr rfl), by omega,
        leftLarger.trans rightLarger⟩⟩
    · rw [if_neg rightLarger]
      exact ⟨_, rfl, both _ le_rfl (not_lt.mp rightLarger), Or.inr ⟨(parentPlace_eq_iff (by omega)).mpr (Or.inl rfl), by omega,
        leftLarger⟩⟩
  · rw [if_neg leftLarger, larger_eq inside (by omega : root ≤ 2 * root + 2)]
    by_cases rightLarger : values heap low root < values heap low (2 * root + 2)
    · rw [if_pos rightLarger]
      exact ⟨_, rfl, both _ ((not_lt.mp leftLarger).trans rightLarger.le) le_rfl,
        Or.inr ⟨(parentPlace_eq_iff (by omega)).mpr (Or.inr rfl), by omega, rightLarger⟩⟩
    · rw [if_neg rightLarger]
      have settled := both _ (not_lt.mp leftLarger) (not_lt.mp rightLarger)
      exact ⟨_, rfl, settled, Or.inl ⟨rfl, settled⟩⟩

/-- A value that is not in order sinks until the heap is in order. -/
theorem heapify_orders (heap back : List T) {low root fuel : Nat} (inside : low ≤ root) (small : root ≤ 1073741822)
    (short : heap.length < 1073741824) (ordered : DownOrder first (values heap low) root)
    (enough : heap.length - root < fuel) :
    ∃ next, heapify fuel (heap ++ back) heap.length root = .ok (next ++ back) ∧ next.Perm heap ∧
      HeapOrder first (values next low) := by
  induction fuel generalizing heap root with
  | zero => omega
  | succ fuel inductionHypothesis =>
      obtain ⟨largest, chosen, greatest, settled | sinks⟩ := larger_cases heap back inside
      all_goals
        have left : checked (2 * (root : Int) + 1) = .ok (2 * (root : Int) + 1) := checked_of_range (by omega) (by omega)
        have right : checked (2 * (root : Int) + 2) = .ok (2 * (root : Int) + 2) := checked_of_range (by omega) (by omega)
        have step : heapify (fuel + 1) (heap ++ back) heap.length root =
            if (largest : Int) ≠ root then
              swapAt (heap ++ back) root largest >>= fun next => heapify fuel next heap.length largest
            else .ok (heap ++ back) := by
          rw [heapify, left, Outcome.ok_bind, right, Outcome.ok_bind]
          rw [← bind_assoc, chosen, Outcome.ok_bind]
      · obtain ⟨rfl, below⟩ := settled
        refine ⟨heap, by rw [step, if_neg (by simp)], List.Perm.refl heap, ordered.finish ?_⟩
        intro child positive under
        exact first_false.mpr (below child positive under)
      · obtain ⟨under, lower, less⟩ := sinks
        have within : largest < heap.length := by
          by_contra outside
          rw [values_outside (by omega : low ≤ largest) (by omega)] at less
          exact not_lt_bot less
        have here := List.getElem?_eq_getElem (by omega : root < heap.length)
        have there := List.getElem?_eq_getElem within
        have swapped := swapAt_inside back here there
        have moved := ordered.move (by omega : 0 < largest) under
          (fun child positive beside => first_false.mpr (greatest child positive beside))
          (first_false.mpr less.le)
        rw [← values_swap inside lower here there] at moved
        obtain ⟨next, sorted, perm, nextOrdered⟩ := inductionHypothesis
          ((heap.set root heap[largest]).set largest heap[root]) (by omega : low ≤ largest) (by omega)
          (by rwa [List.length_set, List.length_set]) moved (by rw [List.length_set, List.length_set]; omega)
        rw [List.length_set, List.length_set] at sorted
        refine ⟨next, ?_, perm.trans (List.set_set_perm (by omega) within), nextOrdered⟩
        rw [step, if_pos (by omega), swapped, Outcome.ok_bind, sorted]

/-- The build phase leaves a heap: the places that have been passed are in order. -/
theorem heapifyFrom_orders {count : Nat} (heap : List T) (short : heap.length < 1073741824) (below : count ≤ heap.length)
    (ordered : HeapOrder first (values heap count)) :
    ∃ next, heapifyFrom count heap = .ok next ∧ next.Perm heap ∧ IsHeap next := by
  induction count generalizing heap with
  | zero => exact ⟨heap, rfl, List.Perm.refl heap, heapOrder_iff.mp ordered⟩
  | succ count inductionHypothesis =>
      have broken : DownOrder first (values heap count) count := by
        constructor
        · intro other positive apart
          have higher := parentPlace_lt positive
          rw [first_false]
          by_cases above : parentPlace other < count
          · rw [values_below above]
            exact values_le_top
          · have old := first_false.mp (ordered other positive)
            have same : ∀ place, count < place → values heap count place = values heap (count + 1) place := by
              intro place later
              rw [values, values, if_neg (by omega), if_neg (by omega)]
            rwa [same other (by omega), same _ (by omega)]
        · intro other positive under above
          rw [first_false, values_below (parentPlace_lt above)]
          exact values_le_top
      obtain ⟨next, sunk, perm, nextOrdered⟩ := heapify_orders heap [] (le_refl count) (by omega) short broken
        (by omega : heap.length - count < heap.length + 1)
      rw [List.append_nil, List.append_nil] at sunk
      obtain ⟨last, built, lastPerm, isHeap⟩ := inductionHypothesis next (by rwa [perm.length_eq])
        (by rw [perm.length_eq]; omega) nextOrdered
      refine ⟨last, ?_, lastPerm.trans perm, isHeap⟩
      rw [heapifyFrom, toInt_of_range (by omega) (by omega), sunk, Outcome.ok_bind, built]

/-- The places from `length / 2` on have no children. -/
theorem buildHeap_orders (arr : List T) (short : arr.length < 1073741824) :
    ∃ heap, buildHeap arr = .ok heap ∧ heap.Perm arr ∧ IsHeap heap := by
  have count : (toInt ((arr.length : Int) / 2 - 1) + 1).toNat = arr.length / 2 := by
    rw [toInt_of_range (by omega) (by omega)]
    omega
  rw [buildHeap, count]
  apply heapifyFrom_orders arr short (by omega)
  intro place positive
  rw [first_false]
  by_cases above : parentPlace place < arr.length / 2
  · rw [values_below above]
    exact values_le_top
  · have outside : arr.length ≤ place := by
      have := (parentPlace_eq_iff positive).mp rfl
      omega
    rw [values_outside (by omega) outside]
    exact bot_le

theorem IsHeap.root_greatest {rest : List T} (isHeap : IsHeap (value :: rest)) : ∀ x ∈ value :: rest, x ≤ value := by
  intro x member
  obtain ⟨place, here⟩ := List.mem_iff_getElem?.mp member
  have fact := HeapOrder.root_first first_order (heapOrder_iff.mpr isHeap) place
  rw [first_false, values_inside (Nat.zero_le place) here, values_inside (le_refl 0) (List.getElem?_cons_zero),
    WithBot.coe_le_coe, WithTop.coe_le_coe] at fact
  exact fact

/-- The exchange of the root with the last place breaks the heap only at the root. -/
theorem swapAt_root {rest : List T} (back : List T) (isHeap : IsHeap (value :: rest)) :
    ∃ kept, swapAt (value :: rest ++ back) 0 rest.length = .ok (kept ++ value :: back) ∧ kept.Perm rest ∧
      DownOrder first (values kept 0) 0 := by
  rcases List.eq_nil_or_concat rest with rfl | ⟨middle, last, rfl⟩
  · have same : swapAt ([] ++ value :: back) 0 0 = .ok ([] ++ value :: back) := swapAt_self rfl
    have outside : ∀ place, values ([] : List T) 0 place = ⊥ := by
      intro place
      exact values_outside (Nat.zero_le place) (Nat.zero_le place)
    refine ⟨[], same, List.Perm.refl [], ?_, ?_⟩
    · intro other _ _
      rw [first_false, outside]
      exact bot_le
    · intro other _ _ impossible
      exact absurd impossible (lt_irrefl 0)
  · have swapped : swapAt (value :: (middle ++ last :: back)) 0 (middle.length + 1 : Nat) =
        .ok (last :: (middle ++ value :: back)) := by
      have swapped : swapAt ([] ++ value :: (middle ++ last :: back)) 0 (middle.length + 1 : Nat) = _ :=
        swapAt_append rfl (by push_cast [List.length_nil]; ring)
      exact swapped
    refine ⟨last :: middle, ?_, ?_, ?_, ?_⟩
    · rw [List.concat_eq_append, List.length_append, List.length_singleton, List.cons_append, List.append_assoc,
        List.singleton_append, swapped, List.cons_append]
    · rw [List.concat_eq_append]
      exact (List.perm_append_singleton last middle).symm
    · intro other positive apart
      have higher := parentPlace_lt positive
      rw [first_false]
      by_cases inside : other < (last :: middle).length
      · have old := first_false.mp (heapOrder_iff.mpr isHeap other positive)
        have same : ∀ place, 0 < place → place < (last :: middle).length →
            values (last :: middle) 0 place = values (value :: middle.concat last) 0 place := by
          intro place nonzero within
          obtain ⟨before, rfl⟩ := Nat.exists_eq_add_one_of_ne_zero nonzero.ne'
          rw [List.length_cons] at within
          rw [values, values, List.getElem?_cons_succ, List.getElem?_cons_succ, List.concat_eq_append,
            List.getElem?_append_left (by omega)]
        rwa [same other positive inside, same _ (by omega) (by omega)]
      · rw [values_outside (Nat.zero_le other) (not_lt.mp inside)]
        exact bot_le
    · intro other _ _ impossible
      exact absurd impossible (lt_irrefl 0)

/-- What some iterations of the extraction have made of a vector: a heap in front of a sorted suffix that
dominates it. -/
structure Extracted (arr : List T) (steps : Nat) (heap suffix : List T) : Prop where
  count : heap.length + steps = arr.length
  isHeap : IsHeap heap
  sorted : Sorted suffix
  dominates : ∀ x ∈ heap, ∀ y ∈ suffix, x ≤ y
  perm : (heap ++ suffix).Perm arr

variable {arr suffix : List T} {steps before : Nat}

/-- One iteration moves the root of the heap to the front of the suffix. -/
theorem Extracted.step {rest : List T} (extracted : Extracted arr steps (value :: rest) suffix)
    (short : arr.length < 1073741824) :
    ∃ kept next, swapAt (value :: rest ++ suffix) 0 rest.length = .ok kept ∧
      heapify (kept.length + 1) kept rest.length 0 = .ok (next ++ value :: suffix) ∧
      Extracted arr (steps + 1) next (value :: suffix) := by
  have count := extracted.count
  rw [List.length_cons] at count
  obtain ⟨kept, swapped, keptPerm, broken⟩ := swapAt_root suffix extracted.isHeap
  have enough : kept.length - 0 < (kept ++ value :: suffix).length + 1 := by
    rw [List.length_append]
    omega
  have keptShort : kept.length < 1073741824 := by
    rw [keptPerm.length_eq]
    omega
  obtain ⟨next, sunk, perm, ordered⟩ := heapify_orders kept (value :: suffix) (le_refl 0) (Nat.zero_le _) keptShort broken enough
  rw [keptPerm.length_eq] at sunk
  refine ⟨_, next, swapped, sunk, ?_, heapOrder_iff.mp ordered, ?_, ?_, ?_⟩
  · rw [perm.length_eq, keptPerm.length_eq]
    omega
  · exact List.pairwise_cons.mpr ⟨extracted.dominates value (List.mem_cons_self ..), extracted.sorted⟩
  · intro x member y later
    have inHeap : x ∈ value :: rest := List.mem_cons_of_mem value ((perm.trans keptPerm).subset member)
    rcases List.mem_cons.mp later with rfl | later
    · exact extracted.isHeap.root_greatest x inHeap
    · exact extracted.dominates x inHeap y later
  · refine ((perm.trans keptPerm).append_right (value :: suffix)).trans (List.Perm.trans ?_ extracted.perm)
    exact List.perm_middle

theorem Extracted.run (extracted : Extracted arr before heap suffix) (short : arr.length < 1073741824)
    (enough : steps ≤ heap.length) :
    ∃ next back, extract steps (heap ++ suffix) (heap.length - 1) = .ok (next ++ back) ∧
      Extracted arr (before + steps) next back := by
  induction steps generalizing before heap suffix with
  | zero => exact ⟨heap, suffix, rfl, extracted⟩
  | succ steps inductionHypothesis =>
      obtain ⟨value, rest, rfl⟩ : ∃ value rest, heap = value :: rest := by
        cases heap with
        | nil => cases enough
        | cons value rest => exact ⟨value, rest, rfl⟩
      rw [List.length_cons] at enough
      obtain ⟨kept, moved, swapped, sunk, movedExtracted⟩ := extracted.step short
      have count := extracted.count
      have movedCount := movedExtracted.count
      rw [List.length_cons] at count
      have length : moved.length = rest.length := by omega
      obtain ⟨next, back, run, result⟩ := inductionHypothesis movedExtracted (by omega)
      refine ⟨next, back, ?_, by rwa [add_assoc, add_comm 1] at result⟩
      have last : ((value :: rest).length : Int) - 1 = rest.length := by
        rw [List.length_cons]
        omega
      rw [length] at run
      rw [last, extract, swapped, Outcome.ok_bind, sunk, Outcome.ok_bind, run]

/-- The build phase makes a heap, each extraction keeps a heap in front of a sorted suffix that dominates
it, and the sort returns the sorted permutation. -/
theorem heapSort_sorts (arr : List T) (short : arr.length < 1073741824) :
    ∃ heap sorted, buildHeap arr = .ok heap ∧ heap.Perm arr ∧ IsHeap heap ∧
      (∀ steps ≤ arr.length, ∃ next suffix, extract steps heap (arr.length - 1) = .ok (next ++ suffix) ∧
        Extracted arr steps next suffix) ∧
      heapSort arr = .ok sorted ∧ Sorted sorted ∧ sorted.Perm arr := by
  obtain ⟨heap, built, perm, isHeap⟩ := buildHeap_orders arr short
  have start : Extracted arr 0 heap [] :=
    ⟨perm.length_eq, isHeap, List.Pairwise.nil, by simp, by rwa [List.append_nil]⟩
  have states : ∀ steps ≤ arr.length, ∃ next suffix, extract steps heap (arr.length - 1) = .ok (next ++ suffix) ∧
      Extracted arr steps next suffix := by
    intro steps enough
    obtain ⟨next, suffix, run, extracted⟩ := start.run short (by rwa [perm.length_eq] : steps ≤ heap.length)
    rw [List.append_nil, perm.length_eq] at run
    rw [Nat.zero_add] at extracted
    exact ⟨next, suffix, run, extracted⟩
  obtain ⟨next, sorted, run, extracted⟩ := states arr.length (le_refl _)
  have empty : next = [] := List.eq_nil_of_length_eq_zero (by have := extracted.count; omega)
  subst empty
  refine ⟨heap, sorted, built, perm, isHeap, states, ?_, extracted.sorted, extracted.perm⟩
  have last : (toInt ((arr.length : Int) - 1) + 1).toNat = arr.length := by
    rw [toInt_of_range (by omega) (by omega)]
    omega
  rw [heapSort, built]
  simp only [Outcome.ok_bind, last]
  rw [toInt_of_range (by omega) (by omega), run, List.nil_append]

/-- A vector with equal elements. -/
theorem heapSort_sorts_numbers : ([2, 3, 2, 1, 3] : List Nat).length < 1073741824 ∧
    ∃ heap sorted, buildHeap [2, 3, 2, 1, 3] = .ok heap ∧ heap.Perm [2, 3, 2, 1, 3] ∧ IsHeap heap ∧
      (∀ steps ≤ 5, ∃ next suffix, extract steps heap (5 - 1) = .ok (next ++ suffix) ∧
        Extracted [2, 3, 2, 1, 3] steps next suffix) ∧
      heapSort [2, 3, 2, 1, 3] = .ok sorted ∧ Sorted sorted ∧ sorted.Perm [2, 3, 2, 1, 3] :=
  ⟨by decide, heapSort_sorts [2, 3, 2, 1, 3] (by decide)⟩

end Dsac.Sort

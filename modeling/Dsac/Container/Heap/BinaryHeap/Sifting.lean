import Dsac.Container.Heap.BinaryHeap
import Dsac.Library.HeapOrder

namespace Dsac.BinaryHeap

open Dsac.Library

/-! The two loops restore the order of the heap. -/

theorem toInt_eq {index : Nat} (small : index < 2147483648) : toInt index = index := by
  apply Int.bmod_eq_of_le
  · omega
  · omega

theorem toSize_eq {value : Int} {index : Nat} (same : value = index) (small : index < 2147483648) :
    toSize value = index := by
  unfold toSize
  omega

theorem intResult_eq {value : Int} (lower : -2147483648 ≤ value) (upper : value ≤ 2147483647) :
    intResult value = .ok value :=
  if_pos ⟨lower, upper⟩

variable {index : Nat}

theorem getIndexLeftChild_eq (small : index < 1073741824) :
    getIndexLeftChild (toInt index) = .ok (2 * (index : Int) + 1) := by
  have wider : index < 2147483648 := by omega
  have inside : intResult (2 * (index : Int) + 1) = .ok (2 * (index : Int) + 1) :=
    intResult_eq (by omega) (by omega)
  rw [toInt_eq wider, getIndexLeftChild, intResult_eq (by omega) (by omega), Outcome.ok_bind]
  exact inside

theorem getIndexRightChild_eq (small : index + 1 < 1073741824) :
    getIndexRightChild (toInt index) = .ok (2 * (index : Int) + 2) := by
  have wider : index < 2147483648 := by omega
  have inside : intResult (2 * (index : Int) + 2) = .ok (2 * (index : Int) + 2) :=
    intResult_eq (by omega) (by omega)
  rw [toInt_eq wider, getIndexRightChild, intResult_eq (by omega) (by omega), Outcome.ok_bind]
  exact inside

theorem getIndexParent_eq (small : index < 2147483648) :
    getIndexParent (toInt index) = .ok (parentPlace index : Int) := by
  rw [toInt_eq small, getIndexParent, intResult_eq (by omega) (by omega)]
  simp only [bind, Except.bind]
  cases index with
  | zero => rfl
  | succ index =>
      unfold parentPlace
      congr 1
      rw [Int.tdiv_eq_ediv_of_nonneg (by omega)]
      omega

theorem existParent_eq (small : index < 2147483648) : existParent (toInt index) = .ok true := by
  rw [existParent, getIndexParent_eq small]
  simp [bind, Except.bind]

theorem existParent_overflow : existParent (toInt (2147483648)) = .error .overflow := by
  decide

theorem leftSize (small : index < 1073741824) : toSize (2 * (index : Int) + 1) = 2 * index + 1 :=
  toSize_eq (by omega) (by omega)

theorem rightSize (small : index + 1 < 1073741824) : toSize (2 * (index : Int) + 2) = 2 * index + 2 :=
  toSize_eq (by omega) (by omega)

theorem parentSize (small : index < 2147483648) : toSize (parentPlace index) = parentPlace index :=
  toSize_eq rfl (by unfold parentPlace; omega)

variable {T : Type} {heap : BinaryHeap T} {value : T}

theorem element_eq (here : heap.storage[index]? = some value) : heap.element index = .ok value := by
  rw [element, here]

theorem existLeftChild_eq (small : index < 1073741824) :
    heap.existLeftChild (toInt index) = .ok (decide (2 * index + 1 < heap.storage.length)) := by
  rw [existLeftChild, getIndexLeftChild_eq small]
  simp only [bind, Except.bind, leftSize small]

theorem existRightChild_eq (small : index + 1 < 1073741824) :
    heap.existRightChild (toInt index) = .ok (decide (2 * index + 2 < heap.storage.length)) := by
  rw [existRightChild, getIndexRightChild_eq small]
  simp only [bind, Except.bind, rightSize small]

theorem getLeftChild_eq (small : index < 1073741824) (here : heap.storage[2 * index + 1]? = some value) :
    heap.getLeftChild (toInt index) = .ok value := by
  rw [getLeftChild, getIndexLeftChild_eq small]
  simp only [bind, Except.bind, leftSize small]
  exact element_eq here

theorem getRightChild_eq (small : index + 1 < 1073741824) (here : heap.storage[2 * index + 2]? = some value) :
    heap.getRightChild (toInt index) = .ok value := by
  rw [getRightChild, getIndexRightChild_eq small]
  simp only [bind, Except.bind, rightSize small]
  exact element_eq here

theorem getParent_eq (small : index < 2147483648) (here : heap.storage[parentPlace index]? = some value) :
    heap.getParent (toInt index) = .ok value := by
  rw [getParent, getIndexParent_eq small]
  simp only [bind, Except.bind, parentSize small]
  exact element_eq here

/-- The elements of the heap, with none after the last. -/
def placed (heap : BinaryHeap T) (place : Nat) : Option T := heap.storage[place]?

theorem exists_placed {place : Nat} (inside : place < heap.storage.length) :
    ∃ value, heap.storage[place]? = some value :=
  ⟨_, List.getElem?_eq_getElem inside⟩

theorem placed_eq_none {place : Nat} (outside : heap.storage.length ≤ place) : heap.placed place = none :=
  List.getElem?_eq_none outside

theorem swap_exchanges {first second : Nat} {firstValue secondValue : T} (apart : first ≠ second)
    (atFirst : heap.storage[first]? = some firstValue) (atSecond : heap.storage[second]? = some secondValue) :
    ∃ swapped, heap.swap first second = .ok swapped ∧
      swapped.placed = exchanged heap.placed first second ∧ swapped.storage.Perm heap.storage := by
  obtain ⟨firstInside, firstSame⟩ := List.getElem?_eq_some_iff.mp atFirst
  obtain ⟨secondInside, secondSame⟩ := List.getElem?_eq_some_iff.mp atSecond
  refine ⟨{ storage := (heap.storage.set first secondValue).set second firstValue }, ?_, ?_, ?_⟩
  · simp only [swap, element_eq atFirst, element_eq atSecond, Outcome.ok_bind]
  · funext place
    by_cases isFirst : place = first
    · rw [isFirst, exchanged_first, placed, placed, List.getElem?_set_ne apart.symm,
        List.getElem?_set_self firstInside, atSecond]
    by_cases isSecond : place = second
    · rw [isSecond, exchanged_second, placed, placed, List.getElem?_set_self (by simpa using secondInside), atFirst]
    · rw [exchanged_other isFirst isSecond, placed, placed, List.getElem?_set_ne (Ne.symm isSecond),
        List.getElem?_set_ne (Ne.symm isFirst)]
  · subst firstSame secondSame
    exact List.set_set_perm firstInside secondInside

/-! `HeapifyUp`. -/

variable {comp : T → T → Bool}

theorem rise_orders (order : StrictWeakOrder comp) {fuel place : Nat}
    (inside : place < heap.storage.length) (bounded : heap.storage.length ≤ 2147483648)
    (enough : place < fuel) (upOrder : UpOrder (orTop comp) heap.placed place) :
    ∃ next, rise comp fuel heap place = .ok next ∧ HeapOrder (orTop comp) next.placed ∧
      next.storage.Perm heap.storage := by
  induction fuel generalizing heap place with
  | zero => omega
  | succ fuel ih =>
      have small : place < 2147483648 := by omega
      have notBelow : parentPlace place ≤ place := by
        unfold parentPlace
        omega
      obtain ⟨value, here⟩ := exists_placed inside
      obtain ⟨parentValue, above⟩ := exists_placed (Nat.lt_of_le_of_lt notBelow inside)
      simp only [rise, existParent_eq small, element_eq here, getParent_eq small above, Outcome.ok_bind, if_true]
      have compared : orTop comp (heap.placed place) (heap.placed (parentPlace place)) = comp value parentValue := by
        rw [placed, placed, here, above, orTop]
      by_cases rises : comp value parentValue
      · have positive : 0 < place := by
          rcases Nat.eq_zero_or_pos place with rfl | positive
          · cases here.symm.trans above
            rw [order.irrefl] at rises
            cases rises
          · exact positive
        have higher := parentPlace_lt positive
        obtain ⟨swapped, swap, swappedPlaced, perm⟩ := swap_exchanges (Nat.ne_of_lt higher) above here
        have risen := upOrder.move order.orTop positive (by rw [compared, rises])
        rw [exchanged_comm, ← swappedPlaced] at risen
        have sameLength := perm.length_eq
        obtain ⟨next, done, ordered, nextPerm⟩ := ih (by omega) (by omega) (by omega) risen
        refine ⟨next, ?_, ordered, nextPerm.trans perm⟩
        rw [if_pos rises, getIndexParent_eq small, Outcome.ok_bind, parentSize small, swap, Outcome.ok_bind]
        exact done
      · refine ⟨heap, if_neg rises, upOrder.finish ?_, .refl _⟩
        intro _
        rw [compared]
        simpa using rises

/-! `HeapifyDown`. -/

/-- The child that is not after the other one, and the left one of two that are level. -/
inductive SmallerChild (comp : T → T → Bool) (storage : List T) (place : Nat) : Nat → T → Prop where
  | left {value : T} (here : storage[2 * place + 1]? = some value)
      (noLess : ∀ right, storage[2 * place + 2]? = some right → comp right value = false) :
      SmallerChild comp storage place (2 * place + 1) value
  | right {left value : T} (beside : storage[2 * place + 1]? = some left)
      (here : storage[2 * place + 2]? = some value) (less : comp value left) :
      SmallerChild comp storage place (2 * place + 2) value

/-- The places to which a value sinks from the root. -/
inductive SinksTo (comp : T → T → Bool) (storage : List T) (moved : T) : Nat → Prop where
  | root : SinksTo comp storage moved 0
  | sink {place child : Nat} {value : T} (above : SinksTo comp storage moved place)
      (smaller : SmallerChild comp storage place child value) (sinks : comp moved value = false) :
      SinksTo comp storage moved child

variable {place child : Nat} {storage : List T} {moved : T}

theorem SmallerChild.here (smaller : SmallerChild comp storage place child value) :
    storage[child]? = some value := by
  cases smaller with
  | left here _ => exact here
  | right _ here _ => exact here

theorem SmallerChild.range (smaller : SmallerChild comp storage place child value) :
    child = 2 * place + 1 ∨ child = 2 * place + 2 := by
  cases smaller with
  | left _ _ => exact .inl rfl
  | right _ _ _ => exact .inr rfl

theorem SmallerChild.congr {others : List T} (smaller : SmallerChild comp storage place child value)
    (same : ∀ other > place, storage[other]? = others[other]?) : SmallerChild comp others place child value := by
  have sameLeft := same (2 * place + 1) (by omega)
  have sameRight := same (2 * place + 2) (by omega)
  cases smaller with
  | left here noLess => exact .left (sameLeft ▸ here) fun right found => noLess right (sameRight.trans found)
  | right beside here less => exact .right (sameLeft ▸ beside) (sameRight ▸ here) less

theorem SmallerChild.least (order : StrictWeakOrder comp)
    (smaller : SmallerChild comp heap.storage place child value) {other : Nat} (positive : other > 0)
    (under : parentPlace other = place) : orTop comp (heap.placed other) (heap.placed child) = false := by
  have self : ∀ value : T, orTop comp (some value) (some value) = false := order.irrefl
  rw [show heap.placed child = some value from smaller.here]
  rcases (parentPlace_eq_iff positive).mp under with rfl | rfl
  · cases smaller with
    | left here _ =>
        rw [placed, here]
        exact self value
    | right beside here less =>
        rw [placed, beside]
        exact order.asymm less
  · cases smaller with
    | left here noLess =>
        cases right : heap.storage[2 * place + 2]? with
        | none =>
            rw [placed, right]
            rfl
        | some rightValue =>
            rw [placed, right]
            exact noLess rightValue right
    | right beside here less =>
        rw [placed, here]
        exact self value

theorem smallerChildIndex_eq (small : place + 1 < 1073741824) (inside : 2 * place + 1 < heap.storage.length) :
    ∃ child value, heap.smallerChildIndex comp place = .ok child ∧
      SmallerChild comp heap.storage place child value := by
  have small' : place < 1073741824 := by omega
  obtain ⟨left, atLeft⟩ := exists_placed inside
  simp only [smallerChildIndex, getIndexLeftChild_eq small', existRightChild_eq small, Outcome.ok_bind,
    decide_eq_true_eq]
  cases right : heap.storage[2 * place + 2]? with
  | none =>
      rw [if_neg (Nat.not_lt.mpr (List.getElem?_eq_none_iff.mp right)), leftSize small']
      exact ⟨_, left, rfl, .left atLeft fun value found => by
        rw [right] at found
        cases found⟩
  | some rightValue =>
      obtain ⟨rightInside, _⟩ := List.getElem?_eq_some_iff.mp right
      rw [if_pos rightInside, getRightChild_eq small right, Outcome.ok_bind, getLeftChild_eq small' atLeft,
        Outcome.ok_bind]
      by_cases less : comp rightValue left
      · rw [if_pos less, getIndexRightChild_eq small, Outcome.ok_bind, rightSize small]
        exact ⟨_, rightValue, rfl, .right atLeft right less⟩
      · rw [if_neg less, leftSize small']
        refine ⟨_, left, rfl, .left atLeft ?_⟩
        intro value found
        cases right.symm.trans found
        simpa using less

/-- The loop of `HeapifyDown`: a value has sunk to a place, and the elements after that place
are as they were. -/
structure Sinking (comp : T → T → Bool) (storage : List T) (moved : T) (heap : BinaryHeap T) (place : Nat) :
    Prop where
  sinks : SinksTo comp storage moved place
  length : heap.storage.length = storage.length
  here : place < storage.length → heap.storage[place]? = some moved
  below : ∀ other > place, heap.storage[other]? = storage[other]?
  order : DownOrder (orTop comp) heap.placed place

theorem Sinking.move (sinking : Sinking comp storage moved heap place)
    (order : StrictWeakOrder comp) (inside : place < storage.length)
    (smaller : SmallerChild comp heap.storage place child value) (sinks : comp moved value = false) :
    ∃ swapped, heap.swap place child = .ok swapped ∧ Sinking comp storage moved swapped child ∧
      swapped.storage.Perm heap.storage := by
  have range := smaller.range
  have atPlace := sinking.here inside
  obtain ⟨swapped, swap, swappedPlaced, perm⟩ := swap_exchanges (by omega) atPlace smaller.here
  refine ⟨swapped, swap, ⟨?_, perm.length_eq.trans sinking.length, ?_, ?_, ?_⟩, perm⟩
  · exact .sink sinking.sinks (smaller.congr sinking.below) sinks
  · intro _
    have moves := congrFun swappedPlaced child
    rw [exchanged_second] at moves
    exact moves.trans atPlace
  · intro other after
    have stays := congrFun swappedPlaced other
    rw [exchanged_other (by omega) (by omega)] at stays
    exact stays.trans (sinking.below other (by omega))
  · rw [swappedPlaced]
    apply sinking.order.move (by omega)
    · rw [parentPlace_eq_iff (by omega)]
      exact range
    · intro other positive under
      exact smaller.least order positive under
    · rw [placed, placed, atPlace, smaller.here]
      exact sinks

theorem sink_orders (order : StrictWeakOrder comp)
    (low : ∀ place, SinksTo comp storage moved place → place < 1073741824)
    (bounded : storage.length ≤ 2147483647) {fuel : Nat}
    (sinking : Sinking comp storage moved heap place) (inside : place ≤ storage.length)
    (enough : storage.length < place + fuel) :
    ∃ next, sink comp fuel heap place = .ok next ∧ HeapOrder (orTop comp) next.placed ∧
      next.storage.Perm heap.storage := by
  induction fuel generalizing heap place with
  | zero => omega
  | succ fuel ih =>
      have small := low place sinking.sinks
      have length := sinking.length
      simp only [sink, existLeftChild_eq small, Outcome.ok_bind, decide_eq_true_eq]
      by_cases existsLeft : 2 * place + 1 < heap.storage.length
      · obtain ⟨child, value, chosen, smaller⟩ :=
          @smallerChildIndex_eq _ _ comp _ (by omega : place + 1 < 1073741824) existsLeft
        have range := smaller.range
        have atPlace := sinking.here (by omega)
        rw [if_pos existsLeft, chosen, Outcome.ok_bind, element_eq atPlace, Outcome.ok_bind,
          element_eq smaller.here, Outcome.ok_bind]
        by_cases stays : comp moved value
        · have settled : orTop comp (heap.placed place) (heap.placed child) := by
            rw [placed, placed, atPlace, smaller.here]
            exact stays
          refine ⟨heap, if_pos stays, sinking.order.stay order.orTop ?_ settled, .refl _⟩
          intro other positive under
          exact smaller.least order positive under
        · obtain ⟨swapped, swap, swappedSinking, perm⟩ :=
            sinking.move order (by omega) smaller (by simpa using stays)
          obtain ⟨childInside, _⟩ := List.getElem?_eq_some_iff.mp smaller.here
          obtain ⟨next, done, ordered, nextPerm⟩ := ih swappedSinking (by omega) (by omega)
          refine ⟨next, ?_, ordered, nextPerm.trans perm⟩
          rw [if_neg stays, swap, Outcome.ok_bind]
          exact done
      · refine ⟨heap, if_neg existsLeft, sinking.order.finish ?_, .refl _⟩
        intro other positive under
        have range := (parentPlace_eq_iff positive).mp under
        rw [placed_eq_none (by omega)]
        rfl

end Dsac.BinaryHeap

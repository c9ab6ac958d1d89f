import Mathlib

namespace Dsac.Library

/-! Priority queues that yield a greatest element first. Which of several greatest
elements comes first is left to the implementation. -/

structure PriorityQueue (α : Type) [DecidableEq α] (less : α → α → Prop) where
  Queue : Type
  empty : Queue
  emplace : Queue → α → Queue
  /-- the element to be popped next, `none` for the empty queue -/
  top : Queue → Option α
  pop : Queue → Queue
  elements : Queue → Multiset α
  elements_empty : elements empty = 0
  elements_emplace : ∀ queue element, elements (emplace queue element) = element ::ₘ elements queue
  top_eq_none : ∀ queue, top queue = none → elements queue = 0
  top_mem : ∀ queue element, top queue = some element → element ∈ elements queue
  top_greatest : ∀ queue element, top queue = some element → ∀ other ∈ elements queue, ¬ less element other
  elements_pop : ∀ queue element, top queue = some element → elements (pop queue) = (elements queue).erase element

/-- The queue of elements in the order of their insertion, of which the first with the
greatest rank is popped. -/
def PriorityQueue.ofRank {α β : Type} [DecidableEq α] [LinearOrder β] {less : α → α → Prop} (rank : α → β)
    (respects : ∀ first second, less first second → rank first < rank second) : PriorityQueue α less where
  Queue := List α
  empty := []
  emplace queue element := queue ++ [element]
  top queue := queue.argmax rank
  pop queue := match queue.argmax rank with
    | none => queue
    | some element => queue.erase element
  elements queue := queue
  elements_empty := rfl
  elements_emplace queue element := Multiset.coe_eq_coe.mpr (List.perm_append_singleton element queue)
  top_eq_none queue none := by rw [List.argmax_eq_none.mp none]; rfl
  top_mem queue element found := List.argmax_mem found
  top_greatest queue element found other member := fun smaller =>
    List.not_lt_of_mem_argmax member found (respects element other smaller)
  elements_pop queue element found := by simp only [found, Multiset.coe_erase]

end Dsac.Library

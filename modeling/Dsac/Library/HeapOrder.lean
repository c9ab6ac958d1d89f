import Dsac.Library.StrictWeakOrder

namespace Dsac.Library

/-! Binary heaps in consecutive places. The order may be broken at one place while a value
rises to the root or sinks to the leaves. -/

/-- The place above another. -/
def parentPlace (place : Nat) : Nat := (place - 1) / 2

/-- The values with those at two places exchanged. -/
def exchanged {β : Type} (values : Nat → β) (first second : Nat) : Nat → β :=
  fun place => values (Equiv.swap first second place)

variable {β : Type} (before : β → β → Bool)

/-- No value is before the one above it. -/
def HeapOrder (values : Nat → β) : Prop :=
  ∀ place > 0, before (values place) (values (parentPlace place)) = false

/-- The order holds except that the value at one place may be before the one above it. -/
structure UpOrder (values : Nat → β) (place : Nat) : Prop where
  others : ∀ other > 0, other ≠ place → before (values other) (values (parentPlace other)) = false
  below : ∀ other > 0, parentPlace other = place → place > 0 →
    before (values other) (values (parentPlace place)) = false

/-- The order holds except that a value below one place may be before the one there. -/
structure DownOrder (values : Nat → β) (place : Nat) : Prop where
  others : ∀ other > 0, parentPlace other ≠ place → before (values other) (values (parentPlace other)) = false
  below : ∀ other > 0, parentPlace other = place → place > 0 →
    before (values other) (values (parentPlace place)) = false

variable {before} {values : Nat → β} {place child : Nat}

theorem parentPlace_lt (positive : 0 < place) : parentPlace place < place := by
  unfold parentPlace
  omega

theorem parentPlace_eq_iff (positive : 0 < child) :
    parentPlace child = place ↔ child = 2 * place + 1 ∨ child = 2 * place + 2 := by
  unfold parentPlace
  omega

theorem exchanged_first (values : Nat → β) (first second : Nat) : exchanged values first second first = values second := by
  rw [exchanged, Equiv.swap_apply_left]

theorem exchanged_second (values : Nat → β) (first second : Nat) : exchanged values first second second = values first := by
  rw [exchanged, Equiv.swap_apply_right]

theorem exchanged_other {first second other : Nat} (apart : other ≠ first) (apart' : other ≠ second) :
    exchanged values first second other = values other := by
  rw [exchanged, Equiv.swap_apply_of_ne_of_ne apart apart']

theorem exchanged_comm (values : Nat → β) (first second : Nat) :
    exchanged values first second = exchanged values second first := by
  unfold exchanged
  rw [Equiv.swap_comm]

theorem UpOrder.finish (upOrder : UpOrder before values place)
    (settled : place > 0 → before (values place) (values (parentPlace place)) = false) : HeapOrder before values := by
  intro other positive
  by_cases same : other = place
  · subst same
    exact settled positive
  · exact upOrder.others other positive same

theorem DownOrder.finish (downOrder : DownOrder before values place)
    (settled : ∀ other > 0, parentPlace other = place → before (values other) (values place) = false) :
    HeapOrder before values := by
  intro other positive
  by_cases same : parentPlace other = place
  · rw [same]
    exact settled other positive same
  · exact downOrder.others other positive same

/-- A value sinks by one place, to that of the first of the values below it. -/
theorem DownOrder.move (downOrder : DownOrder before values place) (positive : 0 < child)
    (under : parentPlace child = place)
    (least : ∀ other > 0, parentPlace other = place → before (values other) (values child) = false)
    (sinks : before (values place) (values child) = false) :
    DownOrder before (exchanged values place child) child := by
  have lower : place < child := under ▸ parentPlace_lt positive
  constructor
  · intro other otherPositive apart
    have higher := parentPlace_lt otherPositive
    by_cases moved : other = child
    · rw [moved, under, exchanged_second, exchanged_first]
      exact sinks
    by_cases here : other = place
    · rw [here] at higher
      rw [here, exchanged_first, exchanged_other (by omega) (by omega)]
      exact downOrder.below child positive under (by omega)
    rw [exchanged_other here moved]
    by_cases beside : parentPlace other = place
    · rw [beside, exchanged_first]
      exact least other otherPositive beside
    · rw [exchanged_other beside apart]
      exact downOrder.others other otherPositive beside
  · intro other otherPositive above _
    have highest := parentPlace_lt otherPositive
    have old := downOrder.others other otherPositive (by omega)
    rw [above] at old
    rw [under, exchanged_first, exchanged_other (by omega : other ≠ place) (by omega)]
    exact old

variable (order : StrictWeakOrder before)
include order

/-- The value at the root is before or level with all the others. -/
theorem HeapOrder.root_first (heapOrder : HeapOrder before values) (place : Nat) :
    before (values place) (values 0) = false := by
  induction place using Nat.strongRecOn with
  | ind place ih =>
      rcases Nat.eq_zero_or_pos place with rfl | positive
      · exact order.irrefl _
      · exact order.not_trans (heapOrder place positive) (ih _ (parentPlace_lt positive))

/-- A value rises by one place. -/
theorem UpOrder.move (upOrder : UpOrder before values place) (positive : 0 < place)
    (rises : before (values place) (values (parentPlace place))) :
    UpOrder before (exchanged values place (parentPlace place)) (parentPlace place) := by
  have higher := parentPlace_lt positive
  constructor
  · intro other otherPositive apart
    by_cases here : other = place
    · rw [here, exchanged_first, exchanged_second]
      exact order.asymm rises
    rw [exchanged_other here apart]
    by_cases under : parentPlace other = place
    · rw [under, exchanged_first]
      exact upOrder.below other otherPositive under positive
    have old := upOrder.others other otherPositive here
    by_cases beside : parentPlace other = parentPlace place
    · rw [beside] at old
      rw [beside, exchanged_second]
      by_contra less
      have through := order.trans _ _ _ (by simpa using less) rises
      rw [old] at through
      cases through
    · rw [exchanged_other under beside]
      exact old
  · intro other otherPositive above parentPositive
    have highest := parentPlace_lt parentPositive
    rw [exchanged_other (by omega : parentPlace (parentPlace place) ≠ place) (by omega)]
    have upper := upOrder.others (parentPlace place) parentPositive (by omega)
    by_cases here : other = place
    · rw [here, exchanged_first]
      exact upper
    · have lower := parentPlace_lt otherPositive
      rw [exchanged_other here (by omega)]
      have old := upOrder.others other otherPositive here
      rw [above] at old
      exact order.not_trans old upper

/-- A value that is before the first of those below it stays. -/
theorem DownOrder.stay (downOrder : DownOrder before values place)
    (least : ∀ other > 0, parentPlace other = place → before (values other) (values child) = false)
    (stays : before (values place) (values child)) : HeapOrder before values := by
  apply downOrder.finish
  intro other positive under
  by_contra less
  have through := order.trans _ _ _ (by simpa using less) stays
  rw [least other positive under] at through
  cases through

end Dsac.Library

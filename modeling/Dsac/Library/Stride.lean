import Dsac.Library.HeapOrder

namespace Dsac.Library

/-! Values that are sorted at a fixed distance from each other. A value is inserted by exchanges with
the one at that distance before it. -/

variable {β : Type} [LinearOrder β]

/-- Before `stop`, each value is at most the one at the distance after it. -/
def StrideOrder (distance stop : Nat) (values : Nat → β) : Prop :=
  ∀ place, place + distance < stop → values place ≤ values (place + distance)

/-- The same, except that the value at one place may be smaller than the one at the distance before it. -/
structure StrideGap (distance stop : Nat) (values : Nat → β) (place : Nat) : Prop where
  others : ∀ other, other + distance < stop → other + distance ≠ place → values other ≤ values (other + distance)
  around : ∀ other, other + distance = place → place + distance < stop → values other ≤ values (place + distance)

variable {distance stop place : Nat} {values : Nat → β}

theorem StrideOrder.empty (short : stop ≤ distance) : StrideOrder distance stop values := by
  intro place inside
  omega

/-- The value after the ordered ones may be out of order. -/
theorem StrideOrder.start (ordered : StrideOrder distance stop values) (positive : 0 < distance) :
    StrideGap distance (stop + 1) values stop := by
  constructor
  · intro other inside apart
    exact ordered other (by omega)
  · intro other _ inside
    omega

theorem StrideGap.finish (gap : StrideGap distance stop values place) (first : place < distance) :
    StrideOrder distance stop values := by
  intro other inside
  exact gap.others other inside (by omega)

/-- A value that is in order moves the gap to the place before it. -/
theorem StrideGap.keep (gap : StrideGap distance stop values (place + distance)) (positive : 0 < distance)
    (inside : place + distance < stop) (ordered : values place ≤ values (place + distance)) :
    StrideGap distance stop values place := by
  constructor
  · intro other within _
    by_cases here : other = place
    · rw [here]
      exact ordered
    · exact gap.others other within (by omega)
  · intro other before _
    have earlier := gap.others other (by omega) (by omega)
    rw [before] at earlier
    exact earlier.trans ordered

/-- A value that is out of order changes places with the one before it. -/
theorem StrideGap.exchange (gap : StrideGap distance stop values (place + distance)) (positive : 0 < distance)
    (inside : place + distance < stop) (less : values (place + distance) < values place) :
    StrideGap distance stop (exchanged values (place + distance) place) place := by
  constructor
  · intro other within apart
    by_cases here : other = place
    · rw [here, exchanged_first, exchanged_second]
      exact less.le
    by_cases after : other = place + distance
    · rw [after] at within ⊢
      rw [exchanged_first, exchanged_other (by omega) (by omega)]
      exact gap.around place rfl within
    · rw [exchanged_other after here, exchanged_other (by omega) apart]
      exact gap.others other within (by omega)
  · intro other before _
    have earlier := gap.others other (by omega) (by omega)
    rw [exchanged_first, exchanged_other (by omega : other ≠ place + distance) (by omega)]
    rwa [before] at earlier

/-- The values at multiples of the distance are sorted. -/
theorem StrideOrder.chain (ordered : StrideOrder distance stop values) (place count : Nat)
    (inside : place + count * distance < stop) : values place ≤ values (place + count * distance) := by
  induction count with
  | zero => rw [Nat.zero_mul, Nat.add_zero]
  | succ count inductionHypothesis =>
      have last : place + (count + 1) * distance = place + count * distance + distance := by ring
      rw [last] at inside ⊢
      exact (inductionHypothesis (by omega)).trans (ordered _ inside)

end Dsac.Library

import Mathlib

namespace Dsac.Library

/-- A strict weak ordering: a strict order whose incomparability is transitive. -/
structure StrictWeakOrder {α : Type} (compare : α → α → Bool) : Prop where
  irrefl : ∀ a, compare a a = false
  trans : ∀ a b c, compare a b → compare b c → compare a c
  incomparable_trans : ∀ a b c, compare a b = false → compare b a = false →
    compare b c = false → compare c b = false → compare a c = false ∧ compare c a = false

namespace StrictWeakOrder

variable {α : Type} {compare : α → α → Bool} (order : StrictWeakOrder compare)
include order

theorem asymm {a b : α} (less : compare a b) : compare b a = false := by
  by_contra greater
  have both := order.trans a b a less (by simpa using greater)
  rw [order.irrefl] at both
  cases both

/-- What is below a value is below every value that is equivalent to it. -/
theorem lt_of_lt_of_equiv {a b c : α} (less : compare a b) (notLess : compare b c = false)
    (notGreater : compare c b = false) : compare a c := by
  by_contra other
  have back : compare c a = false := by
    by_contra greater
    have above := order.trans c a b (by simpa using greater) less
    rw [notGreater] at above
    cases above
  have incomparable := order.incomparable_trans a c b (by simpa using other) back notGreater notLess
  rw [incomparable.1] at less
  cases less

theorem lt_of_equiv_of_lt {a b c : α} (less : compare b c) (notLess : compare a b = false)
    (notGreater : compare b a = false) : compare a c := by
  by_contra other
  have back : compare c a = false := by
    by_contra greater
    have above := order.trans b c a less (by simpa using greater)
    rw [notGreater] at above
    cases above
  have incomparable := order.incomparable_trans b a c notGreater notLess (by simpa using other) back
  rw [incomparable.1] at less
  cases less

theorem not_trans {a b c : α} (first : compare a b = false) (second : compare b c = false) :
    compare a c = false := by
  by_contra less
  have less : compare a c := by simpa using less
  cases back : compare b a with
  | true =>
      have below := order.trans b a c back less
      rw [second] at below
      cases below
  | false =>
      have below := order.lt_of_equiv_of_lt less back first
      rw [second] at below
      cases below

end StrictWeakOrder

variable {α : Type}

/-- Values compared by something that each of them has. -/
theorem StrictWeakOrder.on {α β : Type} {compare : β → β → Bool} (order : StrictWeakOrder compare) (entry : α → β) :
    StrictWeakOrder fun a b => compare (entry a) (entry b) where
  irrefl a := order.irrefl (entry a)
  trans a b c := order.trans (entry a) (entry b) (entry c)
  incomparable_trans a b c := order.incomparable_trans (entry a) (entry b) (entry c)

/-- `std::less`. -/
theorem StrictWeakOrder.less [LinearOrder α] : StrictWeakOrder fun a b : α => decide (a < b) where
  irrefl := by simp
  trans a b c := by simpa using lt_trans
  incomparable_trans a b c := by
    simp only [decide_eq_false_iff_not, not_lt]
    intro first second third fourth
    exact ⟨third.trans first, second.trans fourth⟩

/-- A total preorder: of two values one is at most the other. -/
structure TotalPreorder (le : α → α → Bool) : Prop where
  total : ∀ a b, le a b || le b a
  trans : ∀ a b c, le a b → le b c → le a c

/-- The strict part of a total preorder. -/
theorem TotalPreorder.strict {le : α → α → Bool} (order : TotalPreorder le) :
    StrictWeakOrder fun a b => !le b a where
  irrefl a := by simpa using order.total a a
  trans a b c := by
    simp only [Bool.not_eq_true', Bool.not_eq_eq_eq_not, Bool.not_true]
    intro first second
    by_contra above
    have total := order.total a b
    rw [first, Bool.or_false] at total
    rw [order.trans c a b (by simpa using above) total] at second
    cases second
  incomparable_trans a b c := by
    simp only [Bool.not_eq_false']
    intro first second third fourth
    exact ⟨order.trans c b a third first, order.trans a b c second fourth⟩

/-- The ordering with a greatest element added. -/
def orTop (compare : α → α → Bool) : Option α → Option α → Bool
  | some a, some b => compare a b
  | some _, none => true
  | none, _ => false

theorem StrictWeakOrder.orTop {compare : α → α → Bool} (order : StrictWeakOrder compare) :
    StrictWeakOrder (orTop compare) where
  irrefl a := by
    cases a with
    | none => rfl
    | some a => exact order.irrefl a
  trans a b c := by
    intro first second
    match a, b, c with
    | some a, some b, some c => exact order.trans a b c first second
    | some a, some b, none => rfl
  incomparable_trans a b c := by
    intro first second third fourth
    match a, b, c with
    | some a, some b, some c => exact order.incomparable_trans a b c first second third fourth
    | none, none, none => exact ⟨rfl, rfl⟩

end Dsac.Library

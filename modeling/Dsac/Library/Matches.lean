import Mathlib

namespace Dsac.Library

variable {ε α β γ δ : Type}

/-- Two computations that end alike. -/
def Matches (related : α → β → Prop) : Except ε α → Except ε β → Prop
  | .ok first, .ok second => related first second
  | .error first, .error second => first = second
  | _, _ => False

theorem Matches.bind {related : α → β → Prop} {later : γ → δ → Prop} {first : Except ε α}
    {second : Except ε β} {next : α → Except ε γ} {other : β → Except ε δ} (same : Matches related first second)
    (continues : ∀ left right, first = .ok left → related left right → Matches later (next left) (other right)) :
    Matches later (first >>= next) (second >>= other) := by
  cases first with
  | error fault =>
      cases second with
      | error => exact same
      | ok => exact same.elim
  | ok value =>
      cases second with
      | error => exact same.elim
      | ok result => exact continues value result rfl same

theorem Matches.map_fst {first second : Except ε (α × β)} {related : α × β → α × β → Prop}
    (same : Matches related first second) (agree : ∀ left right, related left right → left.1 = right.1) :
    second.map Prod.fst = first.map Prod.fst := by
  cases first with
  | error fault =>
      cases second with
      | error => exact congrArg Except.error (Eq.symm same)
      | ok => exact same.elim
  | ok value =>
      cases second with
      | error => exact same.elim
      | ok result => exact congrArg Except.ok (agree value result same).symm

end Dsac.Library

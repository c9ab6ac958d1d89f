import Mathlib

namespace Dsac.Library

/-! The indices of a table of `2 ^ (depth + 1)` entries that agree on their low bits,
and the table twice as long that repeats its entries. -/

theorem getElem?_append_self {α : Type u} (table : List α) {index : Nat}
    (inside : index < table.length + table.length) :
    (table ++ table)[index]? = table[index % table.length]? := by
  rcases Nat.lt_or_ge index table.length with low | high
  · rw [List.getElem?_append_left low, Nat.mod_eq_of_lt low]
  · rw [List.getElem?_append_right high, Nat.mod_eq_sub_mod high, Nat.mod_eq_of_lt (by omega)]

theorem splitImage_lt {index depth : Nat} (inside : index < 2 ^ (depth + 1)) :
    index ^^^ 2 ^ depth < 2 ^ (depth + 1) :=
  Nat.xor_lt_two_pow inside (Nat.pow_lt_pow_right (by decide) (Nat.lt_succ_self depth))

theorem splitImage_ne (index depth : Nat) : index ^^^ 2 ^ depth ≠ index := by
  intro same
  have bit : 2 ^ depth = 0 := by
    have cancelled := congrArg (index ^^^ ·) same
    simp only [← Nat.xor_assoc, Nat.xor_self, Nat.zero_xor] at cancelled
    exact cancelled
  exact absurd bit (Nat.two_pow_pos depth).ne'

theorem splitImage_modEq (index depth : Nat) : index ^^^ 2 ^ depth ≡ index [MOD 2 ^ depth] := by
  rw [Nat.ModEq, Nat.xor_mod_two_pow, Nat.mod_self, Nat.xor_zero]

/-- Two indices that agree on all bits but one are equal or split images of each other. -/
theorem eq_or_splitImage {index other depth : Nat} (inside : index < 2 ^ (depth + 1))
    (otherInside : other < 2 ^ (depth + 1)) (agree : other ≡ index [MOD 2 ^ depth]) :
    other = index ∨ other = index ^^^ 2 ^ depth := by
  have high : ∀ value, value < 2 ^ (depth + 1) → value / 2 ^ depth < 2 := by
    intro value bounded
    rw [Nat.div_lt_iff_lt_mul (Nat.two_pow_pos depth), Nat.mul_comm, ← Nat.pow_succ]
    exact bounded
  have sameParts : ∀ first second, first ≡ second [MOD 2 ^ depth] →
      first / 2 ^ depth = second / 2 ^ depth → first = second := by
    intro first second low equal
    rw [← Nat.mod_add_div first (2 ^ depth), ← Nat.mod_add_div second (2 ^ depth), equal]
    exact congrArg (· + _) low
  have bit : ∀ a b c : Nat, a < 2 → b < 2 → c < 2 → a ≠ c → b ≠ c → a = b := by omega
  by_cases equal : other / 2 ^ depth = index / 2 ^ depth
  · exact Or.inl (sameParts other index agree equal)
  · have different : (index ^^^ 2 ^ depth) / 2 ^ depth ≠ index / 2 ^ depth := fun same =>
      splitImage_ne index depth (sameParts _ _ (splitImage_modEq index depth) same)
    exact Or.inr (sameParts other _ (agree.trans (splitImage_modEq index depth).symm)
      (bit _ _ _ (high _ otherInside) (high _ (splitImage_lt inside)) (high _ inside) equal different))

end Dsac.Library

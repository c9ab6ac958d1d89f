import Mathlib

namespace Dsac.Library

/-! A number as the set of the places of its one-bits. -/

variable {mask place other size : Nat}

/-- The places of the one-bits. -/
def places (mask : Nat) : Set Nat := {place | mask.testBit place = true}

theorem mem_places : place ∈ places mask ↔ mask.testBit place = true := Iff.rfl

theorem testBit_single : (1 <<< place).testBit other = decide (place = other) := by
  rw [Nat.one_shiftLeft, Nat.testBit_two_pow]

/-- The test `(1 << place) & mask` of the C family. -/
theorem single_and_eq_zero : (1 <<< place) &&& mask = 0 ↔ mask.testBit place = false := by
  constructor
  · intro empty
    have bit := congrArg (fun number => Nat.testBit number place) empty
    simpa [Nat.testBit_and, testBit_single] using bit
  · intro absent
    refine Nat.eq_of_testBit_eq fun other => ?_
    rw [Nat.testBit_and, testBit_single, Nat.zero_testBit]
    by_cases same : place = other
    · rw [← same, absent, Bool.and_false]
    · rw [decide_eq_false same, Bool.false_and]

/-- The exclusive or removes an element. -/
theorem places_erase (member : place ∈ places mask) : places (mask ^^^ (1 <<< place)) = places mask \ {place} := by
  ext other
  rw [Set.mem_sdiff, Set.mem_singleton_iff, mem_places, mem_places, Nat.testBit_xor, testBit_single]
  by_cases same : place = other
  · subst same
    rw [mem_places.mp member]
    simp
  · simp [same, Ne.symm same]

theorem places_pair : places ((1 <<< place) ||| (1 <<< other)) = {place, other} := by
  ext element
  rw [mem_places, Nat.testBit_or, testBit_single, testBit_single, Set.mem_insert_iff, Set.mem_singleton_iff, Bool.or_eq_true,
    decide_eq_true_iff, decide_eq_true_iff, @eq_comm _ place, @eq_comm _ other]

theorem places_injective (same : places mask = places other) : mask = other := by
  refine Nat.eq_of_testBit_eq fun place => ?_
  rw [Bool.eq_iff_iff]
  exact Set.ext_iff.mp same place

theorem lt_of_mem_places (below : mask < 2 ^ size) (member : place ∈ places mask) : place < size := by
  by_contra beyond
  have less : mask < 2 ^ place := below.trans_le (pow_le_pow_right₀ (by norm_num) (not_lt.mp beyond))
  rw [mem_places, Nat.testBit_lt_two_pow less] at member
  cases member

/-- The number of all ones is the set of all places. -/
theorem places_all (size : Nat) : places ((1 <<< size) - 1) = {place | place < size} := by
  ext place
  rw [mem_places, Nat.one_shiftLeft, Nat.testBit_two_pow_sub_one, decide_eq_true_iff]
  rfl

theorem erase_lt (below : mask < 2 ^ size) (inside : place < size) : mask ^^^ (1 <<< place) < 2 ^ size := by
  refine Nat.xor_lt_two_pow below ?_
  rw [Nat.one_shiftLeft]
  exact pow_lt_pow_right₀ (by norm_num) inside

/-- The elements of a mask below a bound. -/
def elements (size mask : Nat) : Finset Nat := (Finset.range size).filter fun place => mask.testBit place

theorem coe_elements (below : mask < 2 ^ size) : (elements size mask : Set Nat) = places mask := by
  ext place
  rw [elements, Finset.coe_filter, Set.mem_ofPred_eq, Finset.mem_range]
  exact ⟨fun both => both.2, fun member => ⟨lt_of_mem_places below member, member⟩⟩

/-- The one-bits are counted by the binary digits. -/
theorem count_digits (below : mask < 2 ^ size) : (Nat.digits 2 mask).count 1 = (elements size mask).card := by
  induction size generalizing mask with
  | zero =>
      obtain rfl : mask = 0 := by omega
      rfl
  | succ size inductionHypothesis =>
      rw [pow_succ] at below
      have rest := inductionHypothesis (by omega : mask / 2 < 2 ^ size)
      rw [elements, Finset.card_filter] at rest ⊢
      rw [Finset.sum_range_succ']
      simp only [Nat.testBit_succ]
      rw [← rest]
      rcases Nat.eq_zero_or_pos mask with rfl | positive
      · rfl
      rw [Nat.digits_def' (by decide) positive, List.count_cons, Nat.testBit_zero]
      simp

theorem elements_erase (member : place ∈ elements size mask) :
    (elements size (mask ^^^ (1 <<< place))).card + 1 = (elements size mask).card := by
  have inside := (Finset.mem_filter.mp member).2
  have erased : elements size (mask ^^^ (1 <<< place)) = (elements size mask).erase place := by
    ext other
    have same := Set.ext_iff.mp (places_erase (mem_places.mpr inside)) other
    rw [Set.mem_sdiff, mem_places, mem_places, Set.mem_singleton_iff] at same
    rw [Finset.mem_erase, elements, elements, Finset.mem_filter, Finset.mem_filter, same]
    tauto
  rw [erased, Finset.card_erase_add_one member]

end Dsac.Library

import Mathlib

namespace Dsac

/-- The ways in which a call can leave the defined behaviour of the library.
A modelled function returns one of these instead of a value. -/
inductive Fault where
  /-- a null pointer is dereferenced -/
  | nullPointer
  /-- a node that was destroyed, or never allocated, is read or written -/
  | destroyedNode
  /-- an `assert` or `DSAC_ASSERT` fails -/
  | assertion
  /-- an array is indexed past its end -/
  | outOfRange
  /-- an `int` computation leaves the range of `int` -/
  | overflow
  /-- an empty `std::optional` is dereferenced -/
  | emptyOptional
  /-- an empty function object is called -/
  | emptyFunction
  /-- `shared_state_unexpected_state` is thrown -/
  | unexpectedState
  /-- `future_already_exposed` is thrown -/
  | futureAlreadyExposed
  /-- the value of an object that was moved from is used -/
  | movedFrom
  /-- `std::out_of_range` is thrown -/
  | thrownOutOfRange
  /-- `std::invalid_argument` is thrown -/
  | thrownInvalidArgument
  /-- `std::length_error` is thrown -/
  | thrownLengthError
  /-- `unexpected_syntax` is thrown -/
  | unexpectedSyntax
  /-- `loops_not_supported` is thrown -/
  | loopsNotSupported
  /-- `DisjointSetOutOfRange` is thrown -/
  | disjointSetOutOfRange
  /-- the bound on the recursion depth or on the loop count is used up -/
  | fuel
deriving DecidableEq, Repr

/-- A call either returns a value or ends in a fault. -/
abbrev Outcome (α : Type u) := Except Fault α

theorem Outcome.ok_bind {α β : Type u} (value : α) (next : α → Outcome β) :
    ((.ok value : Outcome α) >>= next) = next value := rfl

theorem Outcome.of_bind {α β : Type u} {call : Outcome α} {next : α → Outcome β} {result : β}
    (returned : (call >>= next) = .ok result) : ∃ value, call = .ok value ∧ next value = .ok result := by
  cases called : call with
  | error reason => simp only [called, bind, Except.bind, reduceCtorEq] at returned
  | ok value => exact ⟨value, rfl, by simpa only [called, Outcome.ok_bind] using returned⟩

end Dsac

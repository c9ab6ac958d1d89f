import Dsac.Concurrency.Futures.Combine

namespace Dsac.Futures

variable {m : Nat} {R E : Type}

/-- The one statement of the lambda of `first_of`: the exchange on `done_`, with the
result that it was called with. -/
structure FirstOf (R : Type) where
  result : R

/-- The lambda of `first_of`, with `done_` as its context. -/
def firstOf : Lambda (Fin m) R R Bool (FirstOf R) where
  context := false
  enter := FirstOf.mk
  step _ place done := .ok (if done then .leave else .set place.result, true)

/-- `first_of` up to its loop. -/
def FirstOf.call (executors : Fin m → Option E) :
    Outcome (Combination m R R E Bool (FirstOf R)) :=
  .ok (Combination.initial firstOf executors)

end Dsac.Futures

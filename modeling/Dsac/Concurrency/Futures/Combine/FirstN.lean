import Dsac.Concurrency.Futures.Combine

namespace Dsac.Futures

open Dsac.Library

variable {m : Nat} {R O E D P : Type}

namespace FirstN

/-- The context of `first_n`. An entry of `v` that was moved from stays engaged.
`arrivals` records the order of the increments of `completed`, which no code reads. -/
structure Context (m : Nat) (R : Type) where
  v : Fin m → Option (Option R)
  min : Nat
  completed : Nat
  stored : Nat
  arrivals : List (Fin m)

/-- The statements of the lambda, in their order. -/
inductive Place (R : Type) where
  /-- `completed.fetch_add(1)` -/
  | counting (data : R)
  /-- `v[i] = std::move(result_data)` -/
  | writing (data : R)
  /-- `stored.fetch_add(1)` -/
  | storing
  /-- the test of `v[j]`, with what was put into the new array so far -/
  | gathering (j : Nat) (gathered : List R)

def step (index : Fin m) (place : Place R) (context : Context m R) :
    Outcome (Continue (Place R) (Except String (List R)) × Context m R) :=
  match place with
  | .counting data =>
      let c := 1 + context.completed
      .ok (if c > context.min then .leave else .goto (.writing data),
        { context with completed := c, arrivals := context.arrivals ++ [index] })
  | .writing data =>
      .ok (.goto .storing, { context with v := Function.update context.v index (some (some data)) })
  | .storing =>
      let s := 1 + context.stored
      .ok (if s < context.min then .leave else .goto (.gathering 0 []),
        { context with stored := s })
  | .gathering j gathered =>
      if inside : j < m then
        match context.v ⟨j, inside⟩ with
        | none => .ok (.goto (.gathering (j + 1) gathered), context)
        | some none => .error .movedFrom
        | some (some data) =>
            .ok (.goto (.gathering (j + 1) (gathered ++ [data])),
              { context with v := Function.update context.v ⟨j, inside⟩ (some none) })
      else .ok (.set (.ok gathered), context)

end FirstN

/-- The lambda of `first_n`. A result of its future is an array, or the message of the
exception that stands in its place. -/
def firstN (n : Nat) :
    Lambda (Fin m) R (Except String (List R)) (FirstN.Context m R) (FirstN.Place R) where
  context := { v := fun _ => none, min := n, completed := 0, stored := 0, arrivals := [] }
  enter := .counting
  step := FirstN.step

namespace FirstN

/-- `first_n` up to its loop, from which it returns early if there are too few futures. -/
def call (n : Nat) (executors : Fin m → Option E) :
    Outcome (Combination m R (Except String (List R)) E (Context m R) (Place R)) :=
  let system := Combination.initial (firstN n) executors
  if m < n then
    match makeFutureOnError {} (.error "not enough futures") with
    | .error fault => .error fault
    | .ok (state, states) =>
        .ok { system with states, combinator := .returned (some state), promise := ⟨none, true⟩ }
  else .ok system

end FirstN

end Dsac.Futures

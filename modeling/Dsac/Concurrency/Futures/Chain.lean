import Dsac.Fault
import Dsac.Library.Run

namespace Dsac.Futures

open Dsac.Library

/-! Chains of futures: `async_via` or a promise, any number of `then`, and a `subscribe`. -/

variable {X T : Type}

/-- `result<T>`: a value, or the exception that was thrown instead. The values of all stages
have one type. -/
abbrev Result (X T : Type) := Except X T

/-- Where the first result comes from. -/
inductive Source (X T : Type) where
  /-- the owner of the promise sets it -/
  | promise (first : Result X T)
  /-- `async_via`, with what the routine returns or throws -/
  | asyncVia (routine : Result X T)

structure Chain (X T : Type) where
  source : Source X T
  /-- what each continuation returns or throws -/
  continuations : List (Result X T → Result X T)
  /-- the exception that the callback of `subscribe` throws, if any -/
  callback : Result X T → Option X

/-- Promise `i` and its future share the state `i`; the callback of state `i` sets promise `i + 1`,
and the last one is that of `subscribe`. -/
structure Links (X T : Type) where
  /-- the promises whose state was released -/
  released : Nat → Bool := fun _ => false
  result_ : Nat → Option (Result X T) := fun _ => none
  /-- the states that have their callbacks are those before this one -/
  attached : Nat := 0
  /-- the task of the executor that invokes the callback of the first state -/
  submitted : Option (Result X T) := none
  started : Bool := false
  /-- the calls of `set`, in their order -/
  sets : List (Result X T × Nat) := []
  /-- the invocations of callbacks, in their order -/
  deliveries : List (Result X T × Nat) := []

/-- What happens to a chain. -/
inductive ChainEvent where
  /-- the first promise is set -/
  | start
  /-- the executor runs the callback of the first state -/
  | task
  /-- the next `then` or `subscribe` -/
  | attach
deriving DecidableEq, Repr

/-- A call that may let an exception escape. -/
abbrev Delivers (X T : Type) := Result X T → Links X T → Outcome (Option X × Links X T)

namespace Links

/-- `promise.set`: the state is released, and gets the result; a callback that is there is delivered. -/
def set (doCallback : Delivers X T) (index : Nat) (value : Result X T) (links : Links X T) :
    Outcome (Option X × Links X T) :=
  if links.released index then .error .assertion
  else
    let links := { links with
      released := Function.update links.released index true
      result_ := Function.update links.result_ index (some value)
      sets := links.sets ++ [(value, index)] }
    if index < links.attached then doCallback value links else .ok (none, links)

/-- `try { promise.set(routine()); } catch (...) { promise.set(std::current_exception()); }` -/
def setCatching (doCallback : Delivers X T) (index : Nat) (routine : Result X T) (links : Links X T) :
    Outcome (Option X × Links X T) :=
  match routine with
  | .error exception => links.set doCallback index (.error exception)
  | .ok value => do
      match ← links.set doCallback index (.ok value) with
      | (none, links) => return (none, links)
      | (some exception, links) => links.set doCallback index (.error exception)

/-- `executor->submit`. -/
def submit (data : Result X T) (links : Links X T) : Outcome (Option X × Links X T) :=
  .ok (none, { links with submitted := some data })

end Links

namespace Chain

variable (chain : Chain X T)

/-- The callback of a state, with the continuations from there on. -/
def invoke : List (Result X T → Result X T) → Nat → Delivers X T
  | [], index, data, links =>
      .ok (chain.callback data, { links with deliveries := links.deliveries ++ [(data, index)] })
  | continuation :: rest, index, data, links =>
      { links with deliveries := links.deliveries ++ [(data, index)] }.setCatching (invoke rest (index + 1))
        (index + 1) (continuation data)

/-- `do_callback`: only the first state may have an executor. -/
def doCallback (index : Nat) : Delivers X T :=
  match chain.source, index with
  | .asyncVia _, 0 => fun data links => links.submit data
  | _, _ => chain.invoke (chain.continuations.drop index) index

/-- What escapes from a callback reaches the caller of `set` or `subscribe`, or the executor. -/
def step (links : Links X T) : ChainEvent → Outcome (Links X T)
  | .start =>
      if links.started then .ok links
      else do
        let links := { links with started := true }
        match chain.source with
        | .promise first => return (← links.set (chain.doCallback 0) 0 first).2
        | .asyncVia routine => return (← links.setCatching (chain.doCallback 0) 0 routine).2
  | .task =>
      match links.submitted with
      | none => .ok links
      | some data => do
          return (← chain.invoke chain.continuations 0 data { links with submitted := none }).2
  | .attach =>
      if links.attached ≤ chain.continuations.length then
        let index := links.attached
        let links := { links with attached := index + 1 }
        match links.result_ index with
        | none => .ok links
        | some data => do return (← chain.doCallback index data links).2
      else .ok links

/-- The first result. -/
def first : Result X T :=
  match chain.source with
  | .promise first => first
  | .asyncVia routine => routine

/-- The results of the stages. -/
def results : List (Result X T) :=
  chain.continuations.scanl (fun result continuation => continuation result) chain.first

/-- The last result. -/
def last : Result X T := chain.continuations.foldl (fun result continuation => continuation result) chain.first

/-- The promises are set, and the callbacks invoked, in their order and with the results of their
stages, each at most once; each has been once when the whole chain has run. -/
structure Once (links : Links X T) : Prop where
  sets : links.sets <+: chain.results.zipIdx
  deliveries : links.deliveries <+: chain.results.zipIdx
  complete : links.started → links.submitted = none → links.attached = chain.continuations.length + 1 →
    links.sets = chain.results.zipIdx ∧ links.deliveries = chain.results.zipIdx

/-- Some continuation returns. -/
def Returns : List (Result X T → Result X T) → Result X T → Prop
  | [], _ => False
  | continuation :: rest, data => (continuation data).isOk ∨ Returns rest (continuation data)

/-- The event begins a delivery that may reach the callback of `subscribe` through a `set`. -/
def Begins (links : Links X T) : ChainEvent → Prop
  | .start => links.started = false ∧ ∃ first, chain.source = .promise first
  | .task => links.submitted.isSome
  | .attach => False

/-- In a delivery through the whole chain the callback of `subscribe` does not throw, or else no
continuation returns. -/
def Harmless (links : Links X T) (event : ChainEvent) : Prop :=
  chain.Begins links event → links.attached = chain.continuations.length + 1 →
    chain.callback chain.last = none ∨ ¬ Returns chain.continuations chain.first

end Chain

end Dsac.Futures

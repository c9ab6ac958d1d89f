import Dsac.Memory
import Dsac.Concurrency.Futures.State

namespace Dsac.Futures

open Dsac.Library

variable {m : Nat} {ι R O E D P : Type}

/-- `promise<T>`, with the address of the shared state it holds. -/
structure Promise where
  state_ : Option Addr
  futureExtracted_ : Bool
deriving DecidableEq, Repr

namespace Promise

def new (state : Addr) : Promise where
  state_ := some state
  futureExtracted_ := false

/-- `std::move(*this).release_state()`: the promise is left with a null state. -/
def releaseState (promise : Promise) : Outcome (Addr × Promise) :=
  match promise.state_ with
  | none => .error .assertion
  | some state => .ok (state, { promise with state_ := none })

end Promise

namespace World

def new : World O E Unit := { SharedState.new with deliveries := [] }

/-- A whole call of `set_result` on a state that no other thread knows. -/
def callSetResult (result : O) : Nat → Setting O E → World O E Unit → Outcome (World O E Unit)
  | _, .returned, world => .ok world
  | 0, _, _ => .error .fuel
  | fuel + 1, at_, world =>
      match world.setResult result at_ with
      | .error fault => .error fault
      | .ok (after, world) => callSetResult result fuel after world

end World

/-- `make_future_on_error<T>(message)`, with the address of the state of the future. -/
def makeFutureOnError (states : Heap (World O E Unit)) (failure : O) :
    Outcome (Addr × Heap (World O E Unit)) :=
  match World.callSetResult failure 9 .asserting World.new with
  | .error fault => .error fault
  | .ok world => .ok (states.fresh, states.alloc world)

/-- What a step of a subscribed lambda goes on to. -/
inductive Continue (P O : Type) where
  | goto (place : P)
  /-- `ctx->promise_.set(result)`, the last statement of the lambda -/
  | set (result : O)
  | leave

/-- The context of a combinator, and the lambda that it subscribes to every future,
one step for each atomic action on the context. -/
structure Lambda (ι R O D P : Type) where
  context : D
  enter : R → P
  step : ι → P → D → Outcome (Continue P O × D)

/-- Where the callback of one future stands. -/
inductive Callback (P O E : Type) where
  | waiting
  | running (place : P)
  /-- at `release_state` inside `promise_.set` -/
  | releasing (result : O)
  /-- inside `set_result` on the released state -/
  | fulfilling (state : Addr) (result : O) (at_ : Setting O E)
  | returned

/-- Where the thread that called the combinator stands. -/
inductive Looping where
  | subscribing (index : Nat)
  /-- the callback of this future runs inside `subscribe` -/
  | calling (index : Nat)
  /-- the exchange on `future_extracted_` -/
  | extracting
  /-- `future{state_}` -/
  | copying
  | returned (future : Option Addr)
deriving DecidableEq, Repr

inductive Agent (m : Nat) where
  /-- the thread that called the combinator -/
  | combinator
  /-- the thread that fulfils the promise of a future -/
  | completer (index : Fin m)
  /-- the callback of a future, on whichever thread it was called -/
  | callback (index : Fin m)
deriving DecidableEq, Repr

/-- A combinator at work on `m` futures. `published` records the calls of
`ctx->promise_.set`, which no code reads. -/
structure Combination (m : Nat) (R O E D P : Type) where
  inputs : Fin m → System R E (Fin m) Empty
  callbacks : Fin m → Callback P O E
  context : D
  promise : Promise
  states : Heap (World O E Unit)
  published : List (Fin m × O)
  combinator : Looping

namespace Combination

/-- The context is made and the loop over the futures is about to start. -/
def initial (lambda : Lambda (Fin m) R O D P) (executors : Fin m → Option E) :
    Combination m R O E D P :=
  let states : Heap (World O E Unit) := {}
  { inputs := fun index => System.initial (executors index)
    callbacks := fun _ => .waiting
    context := lambda.context
    promise := Promise.new states.fresh
    states := states.alloc World.new
    published := []
    combinator := .subscribing 0 }

/-- The callback is invoked on the thread that takes this step. -/
def invokes : Setting R E → Bool
  | .calling (.running _ none) => true
  | _ => false

/-- One step of the loop over the futures and of `ctx->promise_.make_future()`. -/
def combine (results : Fin m → R) (system : Combination m R O E D P) :
    Outcome (Combination m R O E D P) :=
  match system.combinator with
  | .subscribing index =>
      if inside : index < m then
        let input := system.inputs ⟨index, inside⟩
        match input.consumer with
        | .returned => .ok { system with combinator := .subscribing (index + 1) }
        | at_ =>
            match input.step (results ⟨index, inside⟩) ⟨index, inside⟩ .consumer with
            | .error fault => .error fault
            | .ok next =>
                .ok { system with
                  inputs := Function.update system.inputs ⟨index, inside⟩ next
                  combinator := if invokes at_ then .calling index else .subscribing index }
      else .ok { system with combinator := .extracting }
  | .calling index =>
      if inside : index < m then
        match system.callbacks ⟨index, inside⟩ with
        | .returned => .ok { system with combinator := .subscribing index }
        | _ => .ok system
      else .ok system
  | .extracting =>
      if system.promise.futureExtracted_ then .error .futureAlreadyExposed
      else .ok { system with
        promise := { system.promise with futureExtracted_ := true }
        combinator := .copying }
  | .copying => .ok { system with combinator := .returned system.promise.state_ }
  | .returned _ => .ok system

/-- One step of `set_result` on a future. -/
def complete (results : Fin m → R) (index : Fin m) (system : Combination m R O E D P) :
    Outcome (Combination m R O E D P) :=
  match (system.inputs index).step (results index) index .producer with
  | .error fault => .error fault
  | .ok next => .ok { system with inputs := Function.update system.inputs index next }

/-- The data with which the callback is called once the future has delivered. -/
def received (input : System R E (Fin m) Empty) : Outcome (Option R) :=
  match input.world.deliveries with
  | [] => .ok none
  | .invoked _ data :: _ => .ok (some data)
  | .submitted _ (some (some _)) data :: _ => .ok (some data)
  | .submitted _ (some none) _ :: _ => .error .emptyFunction
  | .submitted _ none _ :: _ => .error .emptyOptional

/-- One step of the callback of a future. -/
def call (lambda : Lambda (Fin m) R O D P) (index : Fin m) (system : Combination m R O E D P) :
    Outcome (Combination m R O E D P) :=
  let goto (next : Callback P O E) := Function.update system.callbacks index next
  match system.callbacks index with
  | .waiting =>
      match received (system.inputs index) with
      | .error fault => .error fault
      | .ok none => .ok system
      | .ok (some data) => .ok { system with callbacks := goto (.running (lambda.enter data)) }
  | .running place =>
      match lambda.step index place system.context with
      | .error fault => .error fault
      | .ok (.goto next, context) => .ok { system with context, callbacks := goto (.running next) }
      | .ok (.leave, context) => .ok { system with context, callbacks := goto .returned }
      | .ok (.set result, context) =>
          .ok { system with
            context
            callbacks := goto (.releasing result)
            published := system.published ++ [(index, result)] }
  | .releasing result =>
      match system.promise.releaseState with
      | .error fault => .error fault
      | .ok (state, promise) =>
          .ok { system with promise, callbacks := goto (.fulfilling state result .asserting) }
  | .fulfilling _ _ .returned => .ok { system with callbacks := goto .returned }
  | .fulfilling state result at_ =>
      match load system.states state with
      | .error fault => .error fault
      | .ok world =>
          match world.setResult result at_ with
          | .error fault => .error fault
          | .ok (after, world) =>
              .ok { system with
                states := system.states.set state world
                callbacks := goto (.fulfilling state result after) }
  | .returned => .ok system

/-- One atomic step of one thread. The first step that faults ends the program. -/
def step (lambda : Lambda (Fin m) R O D P) (results : Fin m → R)
    (system : Combination m R O E D P) : Agent m → Outcome (Combination m R O E D P)
  | .combinator => system.combine results
  | .completer index => system.complete results index
  | .callback index => system.call lambda index

/-- The run of an interleaving from the start of the combinator, given by the thread
that takes each step. -/
def interleave (lambda : Lambda (Fin m) R O D P) (results : Fin m → R)
    (start : Outcome (Combination m R O E D P)) (schedule : List (Agent m)) :
    Outcome (Combination m R O E D P) :=
  match start with
  | .error fault => .error fault
  | .ok system => run (step lambda results) system schedule

end Combination

/-- Where the caller stands that calls `get` on the future it was returned. -/
inductive Reader (O : Type) where
  | waiting
  | getting (state : Addr) (at_ : Getting O)
deriving DecidableEq, Repr

inductive Participant (m : Nat) where
  | agent (agent : Agent m)
  /-- the caller of the combinator, inside `get` -/
  | reader
deriving DecidableEq, Repr

/-- A combinator at work and the caller of `get` on its future. -/
structure Session (m : Nat) (R O E D P : Type) where
  system : Combination m R O E D P
  reader : Reader O

namespace Session

/-- One step of `get`, which starts once the combinator has returned. -/
def read (session : Session m R O E D P) : Outcome (Session m R O E D P) :=
  match session.reader with
  | .waiting =>
      match session.system.combinator with
      | .returned none => .error .assertion
      | .returned (some state) => .ok { session with reader := .getting state .spinning }
      | _ => .ok session
  | .getting state at_ =>
      match load session.system.states state with
      | .error fault => .error fault
      | .ok world =>
          match world.getResult at_ with
          | .error fault => .error fault
          | .ok after => .ok { session with reader := .getting state after }

def step (lambda : Lambda (Fin m) R O D P) (results : Fin m → R)
    (session : Session m R O E D P) : Participant m → Outcome (Session m R O E D P)
  | .agent agent =>
      match session.system.step lambda results agent with
      | .error fault => .error fault
      | .ok system => .ok { session with system }
  | .reader => session.read

def interleave (lambda : Lambda (Fin m) R O D P) (results : Fin m → R)
    (start : Outcome (Combination m R O E D P)) (schedule : List (Participant m)) :
    Outcome (Session m R O E D P) :=
  match start with
  | .error fault => .error fault
  | .ok system => run (step lambda results) { system, reader := .waiting } schedule

end Session

end Dsac.Futures

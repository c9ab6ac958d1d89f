import Dsac.Concurrency.Futures.Then

namespace Dsac.Coroutines

open Dsac.Library Dsac.Futures

/-! Coroutines that return and await futures, by the calls that their promises and awaiters make
on the shared states. -/

variable {ι R X V E : Type}

/-- The body of a coroutine that holds some number of futures. -/
inductive Body (R X V : Type) : Nat → Type where
  /-- `co_return value` -/
  | returns {held : Nat} (value : V) : Body R X V held
  /-- an exception leaves the body -/
  | throws {held : Nat} (exception : X) : Body R X V held
  /-- an asynchronous operation is started, and gives a future -/
  | requests {held : Nat} (request : R) (next : Body R X V (held + 1)) : Body R X V held
  /-- a coroutine is called, and gives a future -/
  | calls {held : Nat} (callee : Body R X V 0) (next : Body R X V (held + 1)) : Body R X V held
  /-- `co_await std::move(future)`, which returns a value or throws -/
  | awaits {held : Nat} (future : Fin (held + 1)) (next : Result X V → Body R X V held) :
      Body R X V (held + 1)

/-- The body in direct style: an operation answers at once, and a call runs to its end. -/
def Body.denote (answer : R → Result X V) :
    {held : Nat} → Body R X V held → (Fin held → Result X V) → Result X V
  | _, .returns value, _ => .ok value
  | _, .throws exception, _ => .error exception
  | _, .requests request next, results =>
      next.denote answer (Fin.cons (α := fun _ => Result X V) (answer request) results)
  | _, .calls callee next, results =>
      next.denote answer (Fin.cons (α := fun _ => Result X V) (callee.denote answer Fin.elim0) results)
  | _, .awaits future next, results =>
      (next (results future)).denote answer (future.removeNth (α := fun _ => Result X V) results)

/-- Where a coroutine stands in its body. -/
inductive Point (R X V : Type) (held : Nat) where
  | running (body : Body R X V held)
  /-- suspended in a `co_await`, the result of which the rest of the body takes -/
  | suspended (next : Result X V → Body R X V held)

/-- The frame of a coroutine; a future is named by its shared state. -/
structure Frame (R X V : Type) where
  held : Nat
  futures : Fin held → Nat
  point : Point R X V held

/-- What a shared state was made for. -/
inductive Origin (R X V : Type) where
  | coroutine (body : Body R X V 0)
  | operation (request : R)

def Origin.denote (answer : R → Result X V) : Origin R X V → Result X V
  | .coroutine body => body.denote answer Fin.elim0
  | .operation request => answer request

/-- The handle of a coroutine is the shared state of its promise. -/
structure System (ι R X V E : Type) where
  /-- a callback resumes the coroutine with the handle that it captured -/
  states : Nat → SharedState (Result X V) E Nat
  frames : Nat → Option (Frame R X V)
  /-- the shared states that were made, in their order -/
  made : List (Origin R X V)
  /-- the operations under way, with the promises that they set -/
  operations : List (Nat × R)
  /-- the callbacks that were submitted to executors -/
  tasks : List (Option (Option Nat) × Result X V)
  /-- the coroutines that each thread runs, the innermost first -/
  active : ι → List Nat

inductive Event (ι R X V : Type) where
  /-- an idle thread calls a coroutine -/
  | call (thread : ι) (body : Body R X V 0)
  /-- the next step of a thread that runs a coroutine -/
  | act (thread : ι)
  /-- an idle thread sets the promise of an operation -/
  | complete (thread : ι) (index : Nat)
  /-- an idle thread runs a task of an executor -/
  | work (thread : ι) (index : Nat)

namespace System

variable [DecidableEq ι]

def initial : System ι R X V E where
  states _ := SharedState.new
  frames _ := none
  made := []
  operations := []
  tasks := []
  active _ := []

def setFrame (system : System ι R X V E) (handle : Nat) (frame : Option (Frame R X V)) : System ι R X V E :=
  { system with frames := Function.update system.frames handle frame }

def setActive (system : System ι R X V E) (thread : ι) (handles : List Nat) : System ι R X V E :=
  { system with active := Function.update system.active thread handles }

/-- A promise and its future, which share the next state. -/
def make (system : System ι R X V E) (origin : Origin R X V) (executor : Option E) : System ι R X V E :=
  { system with
    states := Function.update system.states system.made.length (SharedState.new.setExecutor executor)
    made := system.made ++ [origin] }

/-- `get_return_object`, and `initial_suspend`, which does not suspend. -/
def begin (system : System ι R X V E) (thread : ι) (body : Body R X V 0) : System ι R X V E :=
  ((system.make (.coroutine body) none).setFrame system.made.length (some ⟨0, Fin.elim0, .running body⟩)).setActive
    thread (system.made.length :: system.active thread)

/-- The callback of `await_suspend`: the awaiter gets the result, and the coroutine is resumed. -/
def resume (system : System ι R X V E) (thread : ι) (handle : Nat) (data : Result X V) :
    Outcome (System ι R X V E) :=
  match system.frames handle with
  | some ⟨held, futures, .suspended next⟩ =>
      .ok ((system.setFrame handle (some ⟨held, futures, .running (next data)⟩)).setActive thread
        (handle :: system.active thread))
  -- the coroutine is not suspended
  | some ⟨_, _, .running _⟩ => .error .assertion
  | none => .error .destroyedNode

/-- A call on a shared state, with the callback that it invokes or submits. -/
def call (system : System ι R X V E) (thread : ι) (index : Nat) (call : Call (Result X V) E Nat) :
    Outcome (System ι R X V E) := do
  let (exit, world) ← World.checked { system.states index with deliveries := [] } call
  let system := { system with states := Function.update system.states index world.toSharedState }
  match exit, world.deliveries.head? with
  | .threw, _ => .error .unexpectedState
  | .returned, some (.invoked handle data) => system.resume thread handle data
  | .returned, some (.submitted _ callback data) => .ok { system with tasks := system.tasks ++ [(callback, data)] }
  | .returned, none => .ok system

/-- `promise_.set`, and the end of the coroutine at `final_suspend`. -/
def finish (system : System ι R X V E) (thread : ι) (handle : Nat) (rest : List Nat) (result : Result X V) :
    Outcome (System ι R X V E) :=
  ((system.setFrame handle none).setActive thread rest).call thread handle (.setResult result)

-- what an operation answers, and the executor of its future
variable (answer : R → Result X V) (executor : R → Option E)

/-- A coroutine runs up to its next call. -/
def advance (system : System ι R X V E) (thread : ι) (handle : Nat) (rest : List Nat) :
    {held : Nat} → (Fin held → Nat) → Body R X V held → Outcome (System ι R X V E)
  | _, _, .returns value => system.finish thread handle rest (.ok value)
  | _, _, .throws exception => system.finish thread handle rest (.error exception)
  | held, futures, .requests request next =>
      let frame : Frame R X V := ⟨held + 1, Fin.cons system.made.length futures, .running next⟩
      let system := { system with operations := system.operations ++ [(system.made.length, request)] }
      .ok ((system.setFrame handle (some frame)).make (.operation request) (executor request))
  | held, futures, .calls callee next =>
      let frame : Frame R X V := ⟨held + 1, Fin.cons system.made.length futures, .running next⟩
      .ok ((system.setFrame handle (some frame)).begin thread callee)
  | held + 1, futures, .awaits future next =>
      let frame : Frame R X V := ⟨held, future.removeNth futures, .suspended next⟩
      ((system.setFrame handle (some frame)).setActive thread rest).call thread (futures future)
        (.setCallback handle)

def act (system : System ι R X V E) (thread : ι) : Outcome (System ι R X V E) :=
  match system.active thread with
  | [] => .ok system
  | handle :: rest =>
      match system.frames handle with
      | some ⟨_, futures, .running body⟩ => system.advance executor thread handle rest futures body
      -- the coroutine is not running
      | some ⟨_, _, .suspended _⟩ => .error .assertion
      | none => .error .destroyedNode

/-- `promise.set` of an operation. -/
def complete (system : System ι R X V E) (thread : ι) (index : Nat) : Outcome (System ι R X V E) :=
  match system.operations[index]? with
  | none => .ok system
  | some (promise, request) =>
      { system with operations := system.operations.eraseIdx index }.call thread promise
        (.setResult (answer request))

/-- The task that `do_callback` submitted. -/
def work (system : System ι R X V E) (thread : ι) (index : Nat) : Outcome (System ι R X V E) :=
  match system.tasks[index]? with
  | none => .ok system
  | some (none, _) => .error .emptyOptional
  | some (some none, _) => .error .emptyFunction
  | some (some (some handle), data) =>
      { system with tasks := system.tasks.eraseIdx index }.resume thread handle data

/-- An event that the state rules out changes nothing. -/
def step (system : System ι R X V E) : Event ι R X V → Outcome (System ι R X V E)
  | .call thread body => .ok (if system.active thread = [] then system.begin thread body else system)
  | .act thread => system.act executor thread
  | .complete thread index =>
      if system.active thread = [] then system.complete answer thread index else .ok system
  | .work thread index => if system.active thread = [] then system.work thread index else .ok system

/-- The run of an interleaving. -/
def interleave (schedule : List (Event ι R X V)) : Outcome (System ι R X V E) :=
  run (step answer executor) initial schedule

end System

end Dsac.Coroutines

import Dsac.Fault
import Dsac.Library.Run

namespace Dsac.Futures

open Dsac.Library

/-- `detail::state`: the enumerators are flags in a `uint8_t`. -/
abbrev State := BitVec 8

namespace State

def start : State := 1 <<< 0
def onlyResult : State := 1 <<< 1
def onlyCallback : State := 1 <<< 2
def done : State := 1 <<< 3

end State

variable {T E C ι : Type}

/-- `shared_state<T>`. A callback that was moved from is an empty function
object, which the inner option of `callback_` stands for. -/
structure SharedState (T E C : Type) where
  executor_ : Option E
  result_ : Option T
  callback_ : Option (Option C)
  state_ : State

/-- What the user observes of `do_callback`: the callback ran on this thread, or
a task that owns what `callback_` held was submitted to the executor. -/
inductive Delivery (T E C : Type) where
  | invoked (callback : C) (data : T)
  | submitted (executor : E) (callback : Option (Option C)) (data : T)
deriving DecidableEq, Repr

/-- The shared state, and the effects on its environment in their order. -/
structure World (T E C : Type) extends SharedState T E C where
  deliveries : List (Delivery T E C)

namespace SharedState

def new : SharedState T E C where
  executor_ := none
  result_ := none
  callback_ := none
  state_ := State.start

def hasResult (shared : SharedState T E C) : Bool :=
  0 != (shared.state_ &&& (State.onlyResult ||| State.done))

def hasCallback (shared : SharedState T E C) : Bool :=
  0 != (shared.state_ &&& (State.onlyCallback ||| State.done))

def getExecutor (shared : SharedState T E C) : Option E := shared.executor_

def setExecutor (shared : SharedState T E C) (exec : Option E) : SharedState T E C :=
  { shared with executor_ := exec }

end SharedState

/-- The next atomic step of a thread inside `do_callback`. -/
inductive DoCallback (T E : Type) where
  /-- `assert(state_ == done)` -/
  | asserting
  /-- `auto data = *result_` -/
  | copying
  /-- `executor = get_executor()` -/
  | choosing (data : T)
  /-- `executor->submit(...)` or `(*callback_)(...)` -/
  | running (data : T) (executor : Option E)

/-- The next atomic step of a thread inside `set_result` or `set_callback`. -/
inductive Setting (T E : Type) where
  /-- the assertion on entry -/
  | asserting
  /-- the `emplace` of the payload -/
  | emplacing
  /-- the load of `state_` -/
  | loading
  /-- the compare-exchange on `state_` -/
  | exchanging
  /-- the store of `done` -/
  | storing
  | calling (next : DoCallback T E)
  | returned

/-- The next atomic step of a thread inside `get_result`. -/
inductive Getting (T : Type) where
  | spinning
  | copying
  | returned (data : T)
deriving DecidableEq, Repr

namespace World

def doCallback (world : World T E C) : DoCallback T E → Outcome (Setting T E × World T E C)
  | .asserting =>
      if world.state_ = State.done then .ok (.calling .copying, world) else .error .assertion
  | .copying =>
      match world.result_ with
      | none => .error .emptyOptional
      | some data => .ok (.calling (.choosing data), world)
  | .choosing data => .ok (.calling (.running data world.getExecutor), world)
  | .running data (some executor) =>
      -- an engaged optional stays engaged when it is moved from
      .ok (.returned, { world with
        callback_ := world.callback_.map fun _ => none
        deliveries := world.deliveries ++ [.submitted executor world.callback_ data] })
  | .running data none =>
      match world.callback_ with
      | none => .error .emptyOptional
      | some none => .error .emptyFunction
      | some (some callback) =>
          .ok (.returned, { world with deliveries := world.deliveries ++ [.invoked callback data] })

def setResult (result : T) (world : World T E C) :
    Setting T E → Outcome (Setting T E × World T E C)
  | .asserting => if world.hasResult then .error .assertion else .ok (.emplacing, world)
  | .emplacing => .ok (.loading, { world with result_ := some result })
  | .loading =>
      if world.state_ = State.start then .ok (.exchanging, world)
      else if world.state_ = State.onlyCallback then .ok (.storing, world)
      else .error .unexpectedState
  | .exchanging =>
      if world.state_ = State.start then .ok (.returned, { world with state_ := State.onlyResult })
      else if world.state_ = State.onlyCallback then .ok (.storing, world)
      else .error .assertion
  | .storing => .ok (.calling .asserting, { world with state_ := State.done })
  | .calling next => world.doCallback next
  | .returned => .ok (.returned, world)

def setCallback (callback : C) (world : World T E C) :
    Setting T E → Outcome (Setting T E × World T E C)
  | .asserting => if world.hasCallback then .error .assertion else .ok (.emplacing, world)
  | .emplacing => .ok (.loading, { world with callback_ := some (some callback) })
  | .loading =>
      if world.state_ = State.start then .ok (.exchanging, world)
      else if world.state_ = State.onlyResult then .ok (.storing, world)
      else .error .unexpectedState
  | .exchanging =>
      if world.state_ = State.start then .ok (.returned, { world with state_ := State.onlyCallback })
      else if world.state_ = State.onlyResult then .ok (.storing, world)
      else .error .assertion
  | .storing => .ok (.calling .asserting, { world with state_ := State.done })
  | .calling next => world.doCallback next
  | .returned => .ok (.returned, world)

def getResult (world : World T E C) : Getting T → Outcome (Getting T)
  | .spinning => .ok (if world.hasResult then .copying else .spinning)
  | .copying =>
      match world.result_ with
      | none => .error .emptyOptional
      | some data => .ok (.returned data)
  | .returned data => .ok (.returned data)

end World

/-- One producer, one consumer and any number of threads that wait for the result. -/
inductive Thread (ι : Type) where
  | producer
  | consumer
  | reader (index : ι)
deriving DecidableEq, Repr

structure System (T E C ι : Type) where
  world : World T E C
  producer : Setting T E
  consumer : Setting T E
  readers : ι → Getting T

namespace System

/-- Every thread stands before the first step of its call. -/
def initial (executor : Option E) : System T E C ι where
  world := { SharedState.new.setExecutor executor with deliveries := [] }
  producer := .asserting
  consumer := .asserting
  readers := fun _ => .spinning

/-- One atomic step of one thread. The first step that faults ends the program. -/
def step [DecidableEq ι] (result : T) (callback : C) (system : System T E C ι) :
    Thread ι → Outcome (System T E C ι)
  | .producer =>
      match system.world.setResult result system.producer with
      | .error fault => .error fault
      | .ok (producer, world) => .ok { system with world, producer }
  | .consumer =>
      match system.world.setCallback callback system.consumer with
      | .error fault => .error fault
      | .ok (consumer, world) => .ok { system with world, consumer }
  | .reader index =>
      match system.world.getResult (system.readers index) with
      | .error fault => .error fault
      | .ok reader => .ok { system with readers := Function.update system.readers index reader }

/-- The run of an interleaving, given by the thread that takes each step. -/
def interleave [DecidableEq ι] (executor : Option E) (result : T) (callback : C)
    (schedule : List (Thread ι)) : Outcome (System T E C ι) :=
  run (step result callback) (initial executor) schedule

end System

end Dsac.Futures

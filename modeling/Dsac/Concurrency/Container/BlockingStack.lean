import Dsac.Concurrency.Lockfree.Stack
import Dsac.Concurrency.Synchronization.Mutex

namespace Dsac.BlockingStack

open Dsac.Library Dsac.Library.AtomicObject Dsac.LockFreeStack

variable {ι T : Type}

/-- Where a thread stands that calls `push` and `pop` any number of times. -/
inductive Place (T : Type) where
  | outside
  /-- the constructor of the guard, and the first step under the mutex -/
  | locking (operation : Operation T)
  /-- `std::move(stack_.top())` -/
  | moving
  /-- `stack_.pop()` -/
  | popping (value : T)
  /-- the destructor of the guard -/
  | unlocking (reply : Reply T)
deriving DecidableEq, Repr

structure System (ι T : Type) where
  mutex_ : Mutex.System ι
  /-- from the top; a value is none once it has been moved out -/
  stack_ : List (Option T)
  places : ι → Place T
  /-- the calls and returns so far -/
  history : List (Observed ι (Operation T) (Reply T))

inductive Event (ι T : Type) where
  /-- a thread outside calls `push` or `pop` -/
  | call (thread : ι) (operation : Operation T)
  /-- the next step of a thread; `chosen` are the threads that a `FUTEX_WAKE` picks -/
  | act (thread : ι) (chosen : List ι)
  /-- `FUTEX_WAIT` returns without a wake-up -/
  | spurious (thread : ι)
deriving DecidableEq, Repr

namespace System

variable [DecidableEq ι]

def initial : System ι T where
  mutex_ := Mutex.System.initial
  stack_ := []
  places _ := .outside
  history := []

def goto (system : System ι T) (thread : ι) (place : Place T) : System ι T :=
  { system with places := Function.update system.places thread place }

/-- `stack_.push` of `push`, or the test of `pop`. -/
def enter (system : System ι T) (thread : ι) : Operation T → System ι T
  | .push value => { system with stack_ := some value :: system.stack_ }.goto thread (.unlocking .pushed)
  | .pop => system.goto thread (if system.stack_.isEmpty then .unlocking (.popped none) else .moving)

def act (system : System ι T) (thread : ι) (chosen : List ι) : Outcome (System ι T) :=
  match system.places thread with
  | .outside => .ok system
  | .locking operation =>
      if system.mutex_.places thread = .holding then .ok (system.enter thread operation)
      else .ok { system with mutex_ := system.mutex_.act thread chosen }
  | .moving =>
      match system.stack_ with
      | [] => .error .outOfRange
      | none :: _ => .error .movedFrom
      | some value :: rest => .ok ({ system with stack_ := none :: rest }.goto thread (.popping value))
  | .popping value =>
      match system.stack_ with
      | [] => .error .outOfRange
      | _ :: rest => .ok ({ system with stack_ := rest }.goto thread (.unlocking (.popped (some value))))
  | .unlocking reply =>
      if system.mutex_.places thread = .idle then
        .ok ({ system with history := system.history ++ [Observed.respond thread reply] }.goto thread .outside)
      else .ok { system with mutex_ := system.mutex_.act thread chosen }

/-- An event that the place of its thread rules out changes nothing. -/
def step (system : System ι T) : Event ι T → Outcome (System ι T)
  | .call thread operation =>
      match system.places thread with
      | .outside =>
          .ok ({ system with
            mutex_ := system.mutex_.step (.call thread)
            history := system.history ++ [Observed.invoke thread operation] }.goto thread (.locking operation))
      | _ => .ok system
  | .act thread chosen => system.act thread chosen
  | .spurious thread => .ok { system with mutex_ := system.mutex_.step (.spurious thread) }

/-- The run of an interleaving. -/
def interleave (schedule : List (Event ι T)) : Outcome (System ι T) := run step initial schedule

end System

end Dsac.BlockingStack

import Dsac.Fault
import Dsac.Library.Run

namespace Dsac.Mvar

open Dsac.Library

variable {ι T : Type}

/-- The calls of `put` and `take`. -/
inductive Call (T : Type) where
  | put (data : T)
  | take
deriving DecidableEq, Repr

/-- The predicate that the call waits for. -/
def Call.ready : Call T → Option T → Bool
  | .put _, storage => !storage.isSome
  | .take, storage => storage.isSome

/-- A call that has changed `storage_`; `take` has the old content in `result`. -/
inductive Done (T : Type) where
  | stored (data : T)
  | taken (result : Option T)
deriving DecidableEq, Repr

/-- The calls that wait for the notification: `put` notifies `has_value_storage_` and `take`
notifies `not_value_storage_`. -/
def Done.notifies : Done T → Call T → Bool
  | .stored _, .take | .taken _, .put _ => true
  | .stored _, .put _ | .taken _, .take => false

/-- Where a thread stands that calls `put` and `take` any number of times. -/
inductive Place (T : Type) where
  | idle
  /-- the construction of `lock` -/
  | locking (call : Call T)
  /-- the predicate of `wait` -/
  | testing (call : Call T)
  /-- `wait` is about to unlock `mutex_` and sleep, in one step -/
  | sleeping (call : Call T)
  | asleep (call : Call T)
  /-- the lock of `mutex_` on the way out of a wait -/
  | relocking (call : Call T)
  /-- `storage_.emplace` or `result.swap(storage_)` -/
  | acting (call : Call T)
  /-- `notify_all()` -/
  | notifying (done : Done T)
  /-- the return, which destroys `lock` -/
  | unlocking (done : Done T)
deriving DecidableEq, Repr

/-- The place of a thread after a notification. -/
def Place.notified (done : Done T) : Place T → Place T
  | .asleep call => if done.notifies call then .relocking call else .asleep call
  | place => place

/-- The place of a thread whose wait ends without a notification. -/
def Place.roused : Place T → Place T
  | .asleep call => .relocking call
  | place => place

structure System (ι T : Type) where
  storage_ : Option T
  /-- the owner of `mutex_` -/
  mutex_ : Option ι
  places : ι → Place T
  /-- the values that went into `storage_` and those that came out of it -/
  stored : List T
  taken : List T
  /-- the values of the completed puts and those that completed takes have returned -/
  puts : List T
  takes : List T

inductive Event (ι T : Type) where
  /-- an idle thread calls `put` or `take` -/
  | call (thread : ι) (call : Call T)
  /-- the next step of a thread -/
  | act (thread : ι)
  /-- a wait ends without a notification -/
  | spurious (thread : ι)
deriving DecidableEq, Repr

namespace System

variable [DecidableEq ι]

/-- Both constructors; a value that the mvar is made with counts as put. -/
def initial (storage : Option T) : System ι T where
  storage_ := storage
  mutex_ := none
  places _ := .idle
  stored := storage.toList
  taken := []
  puts := storage.toList
  takes := []

def goto (system : System ι T) (thread : ι) (place : Place T) : System ι T :=
  { system with places := Function.update system.places thread place }

/-- The lock of `mutex_`, which is free to go on only when nobody owns it. -/
def lock (system : System ι T) (thread : ι) (call : Call T) : System ι T :=
  match system.mutex_ with
  | none => { system with mutex_ := some thread }.goto thread (.testing call)
  | some _ => system

/-- The next step of `put` or `take`. -/
def act (system : System ι T) (thread : ι) : Outcome (System ι T) :=
  match system.places thread with
  | .idle | .asleep _ => .ok system
  | .locking call | .relocking call => .ok (system.lock thread call)
  | .testing call =>
      .ok (system.goto thread (if call.ready system.storage_ then .acting call else .sleeping call))
  | .sleeping call => .ok ({ system with mutex_ := none }.goto thread (.asleep call))
  | .acting (.put data) =>
      .ok ({ system with storage_ := some data, stored := system.stored ++ [data] }.goto thread
        (.notifying (.stored data)))
  | .acting .take =>
      .ok ({ system with storage_ := none, taken := system.taken ++ system.storage_.toList }.goto thread
        (.notifying (.taken system.storage_)))
  | .notifying done =>
      .ok ({ system with places := fun other => (system.places other).notified done }.goto thread
        (.unlocking done))
  | .unlocking (.stored data) =>
      .ok ({ system with mutex_ := none, puts := system.puts ++ [data] }.goto thread .idle)
  | .unlocking (.taken (some value)) =>
      .ok ({ system with mutex_ := none, takes := system.takes ++ [value] }.goto thread .idle)
  | .unlocking (.taken none) => .error .emptyOptional

/-- An event that the place of its thread rules out changes nothing. -/
def step (system : System ι T) : Event ι T → Outcome (System ι T)
  | .call thread call =>
      .ok (if system.places thread matches .idle then system.goto thread (.locking call) else system)
  | .act thread => system.act thread
  | .spurious thread => .ok (system.goto thread (system.places thread).roused)

/-- The run of an interleaving. -/
def interleave (storage : Option T) (schedule : List (Event ι T)) : Outcome (System ι T) :=
  run step (initial storage) schedule

end System

end Dsac.Mvar

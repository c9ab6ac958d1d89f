import Dsac.Fault
import Dsac.Library.Run
import Dsac.Library.WaitQueue

namespace Dsac.Semaphore

open Dsac.Library

variable {ι : Type}

/-- The number of values of `std::size_t`. -/
def sizeRange : Nat := 2 ^ 64

/-- Where a thread stands that acquires and releases any number of times. -/
inductive Place where
  | idle
  /-- the lock of `mutex_` by `guard` in `acquire` -/
  | locking
  /-- `tokens_.load() != 0U` -/
  | testing
  /-- `wait` is about to unlock `mutex_` and sleep, in one step -/
  | sleeping
  | asleep
  /-- the lock of `mutex_` on the way out of `wait` -/
  | relocking
  /-- `--tokens_` -/
  | taking
  /-- the unlock of `mutex_` by `guard` -/
  | unlocking
  /-- `++tokens_` in `release` -/
  | increasing
  /-- `not_zero_.notify_one()` -/
  | notifying
deriving DecidableEq, Repr

structure System (ι : Type) where
  tokens_ : Nat
  /-- the owner of `mutex_` -/
  mutex_ : Option ι
  /-- the sleepers on `not_zero_` -/
  sleepers : List ι
  places : ι → Place

inductive Event (ι : Type) where
  /-- an idle thread calls `acquire` -/
  | acquire (thread : ι)
  /-- an idle thread calls `release` -/
  | release (thread : ι)
  /-- the next atomic step of a thread; `chosen` are the threads that a notification picks -/
  | act (thread : ι) (chosen : List ι)
  /-- `wait` returns without a notification -/
  | spurious (thread : ι)
deriving DecidableEq, Repr

namespace System

variable [DecidableEq ι]

def initial (consumers : Nat) : System ι where
  tokens_ := consumers
  mutex_ := none
  sleepers := []
  places _ := .idle

def goto (system : System ι) (thread : ι) (place : Place) : System ι :=
  { system with places := Function.update system.places thread place }

/-- Those of the chosen threads that sleep go on to lock `mutex_` again. -/
def wake (system : System ι) (chosen : List ι) : System ι :=
  { system with
    sleepers := WaitQueue.asleep system.sleepers chosen
    places := WaitQueue.moved system.places (WaitQueue.woken system.sleepers chosen) .relocking }

/-- The lock of `mutex_`, which is free to go on only when nobody owns it. -/
def lock (system : System ι) (thread : ι) : System ι :=
  match system.mutex_ with
  | none => { system with mutex_ := some thread }.goto thread .testing
  | some _ => system

/-- The next atomic step of `acquire` or `release`. -/
def act (system : System ι) (thread : ι) (chosen : List ι) : System ι :=
  match system.places thread with
  | .idle | .asleep => system
  | .locking | .relocking => system.lock thread
  | .testing => system.goto thread (if system.tokens_ ≠ 0 then .taking else .sleeping)
  | .sleeping =>
      { system with mutex_ := none, sleepers := system.sleepers ++ [thread] }.goto thread .asleep
  | .taking =>
      { system with tokens_ := (system.tokens_ + (sizeRange - 1)) % sizeRange }.goto thread .unlocking
  | .unlocking => { system with mutex_ := none }.goto thread .idle
  | .increasing => { system with tokens_ := (system.tokens_ + 1) % sizeRange }.goto thread .notifying
  | .notifying =>
      if WaitQueue.Wakes system.sleepers chosen then (system.wake chosen).goto thread .idle
      else system

/-- An event that the place of its thread rules out changes nothing. -/
def step (system : System ι) : Event ι → System ι
  | .acquire thread => if system.places thread = .idle then system.goto thread .locking else system
  | .release thread => if system.places thread = .idle then system.goto thread .increasing else system
  | .act thread chosen => system.act thread chosen
  | .spurious thread => if system.places thread = .asleep then system.wake [thread] else system

/-- The run of an interleaving. No step of it faults. -/
def interleave (consumers : Nat) (schedule : List (Event ι)) : Outcome (System ι) :=
  run (fun system event => .ok (system.step event)) (initial consumers) schedule

end System

end Dsac.Semaphore

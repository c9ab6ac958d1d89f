import Dsac.Library.WaitQueue

namespace Dsac.Mutex

open Dsac.Library

variable {ι : Type}

/-- `compare_and_set`: the value that the word had, and the word afterwards. -/
def compareAndSet (word expected desired : Int) : Int × Int :=
  (word, if word = expected then desired else word)

/-- Where a thread stands that locks and unlocks the mutex any number of times. -/
inductive Place where
  | idle
  | finished
  /-- the first `compare_and_set` of `lock` -/
  | trying
  /-- the body of the loop, with `c` -/
  | looping (c : Int)
  /-- the call of `FUTEX_WAIT` -/
  | waiting
  | asleep
  /-- the condition of the loop -/
  | taking
  | holding
  /-- `state_.store(0)` in `unlock` -/
  | clearing
  /-- the call of `FUTEX_WAKE` -/
  | waking
deriving DecidableEq, Repr

structure System (ι : Type) where
  state_ : Int
  sleepers : List ι
  places : ι → Place

inductive Event (ι : Type) where
  /-- an idle thread calls `lock` -/
  | call (thread : ι)
  /-- an idle thread ends -/
  | finish (thread : ι)
  /-- the next atomic step of a thread; `chosen` are the threads that a `FUTEX_WAKE` picks -/
  | act (thread : ι) (chosen : List ι)
  /-- `FUTEX_WAIT` returns without a wake-up -/
  | spurious (thread : ι)
deriving DecidableEq, Repr

namespace System

variable [DecidableEq ι]

def initial : System ι where
  state_ := 0
  sleepers := []
  places _ := .idle

def goto (system : System ι) (thread : ι) (place : Place) : System ι :=
  { system with places := Function.update system.places thread place }

/-- Those of the chosen threads that sleep return from `FUTEX_WAIT`. -/
def wake (system : System ι) (chosen : List ι) : System ι :=
  { system with
    sleepers := WaitQueue.asleep system.sleepers chosen
    places := WaitQueue.moved system.places (WaitQueue.woken system.sleepers chosen) .taking }

/-- The next atomic step of `lock` or `unlock`. -/
def act (system : System ι) (thread : ι) (chosen : List ι) : System ι :=
  match system.places thread with
  | .idle | .finished | .asleep => system
  | .trying =>
      let (c, word) := compareAndSet system.state_ 0 1
      { system with state_ := word }.goto thread (if c ≠ 0 then .looping c else .holding)
  | .looping c =>
      if c = 2 then system.goto thread .waiting
      else
        let (marked, word) := compareAndSet system.state_ 1 2
        { system with state_ := word }.goto thread (if marked ≠ 0 then .waiting else .taking)
  | .waiting =>
      if system.state_ = 2 then
        { system with sleepers := system.sleepers ++ [thread] }.goto thread .asleep
      else system.goto thread .taking
  | .taking =>
      let (c, word) := compareAndSet system.state_ 0 2
      { system with state_ := word }.goto thread (if c ≠ 0 then .looping c else .holding)
  | .holding =>
      { system with state_ := system.state_ - 1 }.goto thread
        (if system.state_ ≠ 1 then .clearing else .idle)
  | .clearing => { system with state_ := 0 }.goto thread .waking
  | .waking =>
      if WaitQueue.Wakes system.sleepers chosen then (system.wake chosen).goto thread .idle
      else system

/-- An event that the place of its thread rules out changes nothing. -/
def step (system : System ι) : Event ι → System ι
  | .call thread => if system.places thread = .idle then system.goto thread .trying else system
  | .finish thread => if system.places thread = .idle then system.goto thread .finished else system
  | .act thread chosen => system.act thread chosen
  | .spurious thread =>
      if system.places thread = .asleep then system.wake [thread] else system

/-- The state after an interleaving. -/
def interleave (schedule : List (Event ι)) : System ι := schedule.foldl step initial

end System

end Dsac.Mutex

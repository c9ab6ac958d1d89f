import Dsac.Fault
import Dsac.Library.Run

namespace Dsac.StaticThreadPool

open Dsac.Library

/-! `static_thread_poll` over its `unbounded_blocking_mpmc_queue`. The workers run
`worker_routine`, any number of client threads call `submit`, and one thread calls `join`. -/

variable {κ τ : Type} {workers : Nat}

/-- The workers, the clients, and the thread that calls `join`. -/
abbrev Thread (workers : Nat) (κ : Type) := Fin workers ⊕ Option κ

abbrev Thread.worker (index : Fin workers) : Thread workers κ := .inl index

abbrev Thread.client (name : κ) : Thread workers κ := .inr (some name)

abbrev Thread.joiner : Thread workers κ := .inr none

/-- What a call of `push` is for. A `join` has some more pills to push after this one. -/
inductive Errand (τ : Type) where
  | submit (task : τ)
  | join (rest : Nat)
deriving DecidableEq, Repr

/-- The argument of the push; the empty task is the poison pill. -/
def Errand.item : Errand τ → Option τ
  | .submit task => some task
  | .join _ => none

inductive Place (τ : Type) where
  /-- a client between two calls, or the caller of `join` before it -/
  | idle
  | ready
  /-- `push`: the construction of `guard`, `push_back`, the destruction of `guard`, and `notify_one` -/
  | entering (errand : Errand τ)
  | pushing (errand : Errand τ)
  | exiting (errand : Errand τ)
  | notifying (errand : Errand τ)
  /-- `join` waits for the worker at an index -/
  | joining (index : Nat)
  | joined
  /-- `pop`: the construction of `guard` -/
  | locking
  /-- the predicate of `wait` -/
  | testing
  /-- `wait` is about to unlock `mutex_` and sleep, in one step -/
  | sleeping
  | asleep
  /-- the lock of `mutex_` on the way out of a wait -/
  | relocking
  /-- `pop_no_lock` -/
  | popping
  /-- the destruction of `guard` in `pop` -/
  | leaving (item : Option τ)
  /-- the loop of `worker_routine` -/
  | looping (item : Option τ)
  | finished
deriving DecidableEq, Repr

/-- The calls of `push` that `join` makes for a number of workers, and what follows them. -/
def Place.pills : Nat → Place τ
  | 0 => .joining 0
  | rest + 1 => .entering (.join rest)

/-- The place after a call of `push`. -/
def Errand.after : Errand τ → Place τ
  | .submit _ => .idle
  | .join rest => .pills rest

structure System (workers : Nat) (κ τ : Type) where
  buffer_ : List (Option τ)
  /-- the owner of `mutex_` -/
  mutex_ : Option (Thread workers κ)
  places : Thread workers κ → Place τ
  /-- the tasks that `submit` was called with, and those that were executed -/
  submitted : List τ
  executed : List τ
  /-- how many poison pills each thread has popped -/
  pills : Thread workers κ → Nat

inductive Event (workers : Nat) (κ τ : Type) where
  /-- an idle client calls `submit` -/
  | submit (name : κ) (task : τ)
  /-- `join` is called, after all calls of `submit` -/
  | join
  /-- the next step of a thread; `chosen` is the sleeper that a notification picks -/
  | act (thread : Thread workers κ) (chosen : Fin workers)
  /-- a wait ends without a notification -/
  | spurious (index : Fin workers)

namespace System

variable [DecidableEq κ] [Fintype κ] [DecidableEq τ]

def initial : System workers κ τ where
  buffer_ := []
  mutex_ := none
  places
    | .inl _ => .locking
    | .inr (some _) => .idle
    | .inr none => .ready
  submitted := []
  executed := []
  pills _ := 0

def goto (system : System workers κ τ) (thread : Thread workers κ) (place : Place τ) : System workers κ τ :=
  { system with places := Function.update system.places thread place }

/-- The lock of `mutex_`, which is free to go on only when nobody owns it. -/
def lock (system : System workers κ τ) (thread : Thread workers κ) (place : Place τ) : System workers κ τ :=
  match system.mutex_ with
  | none => { system with mutex_ := some thread }.goto thread place
  | some _ => system

/-- `not_empty_.notify_one()` wakes one of the sleepers, if there are any. -/
def notifyOne (system : System workers κ τ) (thread : Thread workers κ) (errand : Errand τ)
    (chosen : Fin workers) : System workers κ τ :=
  if system.places (.worker chosen) = .asleep then
    (system.goto (.worker chosen) .relocking).goto thread errand.after
  else if ∃ sleeper : Fin workers, system.places (.worker sleeper) = .asleep then system
  else system.goto thread errand.after

/-- The next step of a thread. -/
def act (system : System workers κ τ) (thread : Thread workers κ) (chosen : Fin workers) :
    Outcome (System workers κ τ) :=
  match system.places thread with
  | .idle | .ready | .asleep | .finished | .joined => .ok system
  | .entering errand => .ok (system.lock thread (.pushing errand))
  | .pushing errand =>
      .ok ({ system with buffer_ := system.buffer_ ++ [errand.item] }.goto thread (.exiting errand))
  | .exiting errand => .ok ({ system with mutex_ := none }.goto thread (.notifying errand))
  | .notifying errand => .ok (system.notifyOne thread errand chosen)
  | .joining index =>
      if inside : index < workers then
        if system.places (.worker ⟨index, inside⟩) = .finished then
          .ok (system.goto thread (.joining (index + 1)))
        else .ok system
      else .ok (system.goto thread .joined)
  | .locking | .relocking => .ok (system.lock thread .testing)
  | .testing => .ok (system.goto thread (if system.buffer_.isEmpty then .sleeping else .popping))
  | .sleeping => .ok ({ system with mutex_ := none }.goto thread .asleep)
  | .popping =>
      match system.buffer_ with
      | [] => .error .outOfRange
      | item :: rest =>
          .ok ({ system with
            buffer_ := rest
            pills := Function.update system.pills thread
              (system.pills thread + if item = none then 1 else 0) }.goto thread (.leaving item))
  | .leaving item => .ok ({ system with mutex_ := none }.goto thread (.looping item))
  | .looping none => .ok (system.goto thread .finished)
  | .looping (some task) =>
      .ok ({ system with executed := system.executed ++ [task] }.goto thread .locking)

/-- An event that the place of its thread rules out changes nothing. -/
def step (system : System workers κ τ) : Event workers κ τ → Outcome (System workers κ τ)
  | .submit name task =>
      if system.places (.client name) = .idle ∧ system.places .joiner = .ready then
        .ok ({ system with submitted := system.submitted ++ [task] }.goto (.client name)
          (.entering (.submit task)))
      else .ok system
  | .join =>
      if system.places .joiner = .ready ∧ ∀ name, system.places (.client name) = .idle then
        .ok (system.goto .joiner (.pills workers))
      else .ok system
  | .act thread chosen => system.act thread chosen
  | .spurious index =>
      if system.places (.worker index) = .asleep then .ok (system.goto (.worker index) .relocking)
      else .ok system

/-- The run of an interleaving. -/
def interleave (schedule : List (Event workers κ τ)) : Outcome (System workers κ τ) :=
  run step initial schedule

end System

end Dsac.StaticThreadPool

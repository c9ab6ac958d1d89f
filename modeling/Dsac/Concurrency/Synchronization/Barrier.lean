import Mathlib

namespace Dsac.Barrier

variable {ι : Type}

/-- The number of values of `std::size_t`. -/
def sizeRange : Nat := 2 ^ 64

/-- `state`. -/
inductive Mode where
  | blocking
  | unblocking
deriving DecidableEq, Repr

/-- Where a thread stands that calls `arrive_and_wait` any number of times. -/
inductive Place where
  | idle
  /-- the construction of `lock` -/
  | locking
  /-- the branch on `state_` and the count -/
  | arriving
  /-- `cv_.notify_all()` -/
  | notifying
  /-- the predicate of `wait`, `state_ == awaited` -/
  | testing (awaited : Mode)
  /-- `wait` is about to unlock `mutex_` and sleep, in one step -/
  | sleeping (awaited : Mode)
  | asleep (awaited : Mode)
  /-- the lock of `mutex_` on the way out of a wait -/
  | relocking (awaited : Mode)
  /-- the destruction of `lock` -/
  | unlocking
deriving DecidableEq, Repr

/-- The place of a thread after a notification. -/
def Place.notified : Place → Place
  | .asleep awaited => .relocking awaited
  | place => place

structure System (ι : Type) where
  size_awaited_threads_ : Nat
  current_awaited_threads_ : Nat
  state_ : Mode
  /-- the owner of `mutex_` -/
  mutex_ : Option ι
  places : ι → Place
  /-- how many calls each thread has entered, been counted in, and returned from -/
  entered : ι → Nat
  arrived : ι → Nat
  returned : ι → Nat

inductive Event (ι : Type) where
  /-- an idle thread calls `arrive_and_wait` -/
  | call (thread : ι)
  /-- the next step of a thread -/
  | act (thread : ι)
  /-- a wait ends without a notification -/
  | spurious (thread : ι)
deriving DecidableEq, Repr

namespace System

variable [DecidableEq ι]

def initial (size_awaited_threads : Nat) : System ι where
  size_awaited_threads_ := size_awaited_threads
  current_awaited_threads_ := size_awaited_threads
  state_ := .blocking
  mutex_ := none
  places _ := .idle
  entered _ := 0
  arrived _ := 0
  returned _ := 0

def goto (system : System ι) (thread : ι) (place : Place) : System ι :=
  { system with places := Function.update system.places thread place }

/-- The lock of `mutex_`, which is free to go on only when nobody owns it. -/
def lock (system : System ι) (thread : ι) (place : Place) : System ι :=
  match system.mutex_ with
  | none => { system with mutex_ := some thread }.goto thread place
  | some _ => system

/-- The branches of `arrive_and_wait`; `mutex_` is locked. -/
def arrive (system : System ι) (thread : ι) : System ι :=
  let counted := { system with arrived := Function.update system.arrived thread (system.arrived thread + 1) }
  match system.state_ with
  | .blocking =>
      let current := (system.current_awaited_threads_ + (sizeRange - 1)) % sizeRange
      if current = 0 then
        { counted with current_awaited_threads_ := current, state_ := .unblocking }.goto thread .notifying
      else { counted with current_awaited_threads_ := current }.goto thread (.testing .unblocking)
  | .unblocking =>
      let current := (system.current_awaited_threads_ + 1) % sizeRange
      if current = system.size_awaited_threads_ then
        { counted with current_awaited_threads_ := current, state_ := .blocking }.goto thread .notifying
      else { counted with current_awaited_threads_ := current }.goto thread (.testing .blocking)

/-- The next step of `arrive_and_wait`. -/
def act (system : System ι) (thread : ι) : System ι :=
  match system.places thread with
  | .idle | .asleep _ => system
  | .locking => system.lock thread .arriving
  | .arriving => system.arrive thread
  | .notifying =>
      { system with places := fun other => (system.places other).notified }.goto thread .unlocking
  | .testing awaited =>
      system.goto thread (if system.state_ = awaited then .unlocking else .sleeping awaited)
  | .sleeping awaited => { system with mutex_ := none }.goto thread (.asleep awaited)
  | .relocking awaited => system.lock thread (.testing awaited)
  | .unlocking =>
      { system with
        mutex_ := none
        returned := Function.update system.returned thread (system.returned thread + 1) }.goto thread .idle

/-- An event that the place of its thread rules out changes nothing. -/
def step (system : System ι) : Event ι → System ι
  | .call thread =>
      if system.places thread = .idle then
        { system with
          entered := Function.update system.entered thread (system.entered thread + 1) }.goto thread .locking
      else system
  | .act thread => system.act thread
  | .spurious thread => system.goto thread (system.places thread).notified

/-- The state after an interleaving. -/
def interleave (size_awaited_threads : Nat) (schedule : List (Event ι)) : System ι :=
  schedule.foldl step (initial size_awaited_threads)

end System

end Dsac.Barrier

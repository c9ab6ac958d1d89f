import Dsac.Fault
import Dsac.Library.AtomicObject
import Dsac.Library.Run

namespace Dsac.LockFreeStack

open Dsac.Library Dsac.Library.AtomicObject

variable {ι α T : Type}

/-- `node`. The value is none once it has been moved out. -/
structure Node (α T : Type) where
  value : Option T
  next : Option α
deriving DecidableEq, Repr

/-- The calls of a thread. -/
inductive Operation (T : Type) where
  | push (value : T)
  | pop
deriving DecidableEq, Repr

inductive Reply (T : Type) where
  | pushed
  | popped (value : Option T)
deriving DecidableEq, Repr

/-- What `pop` has to finish after `try_to_erase_free_list`. -/
inductive Rest (α T : Type) where
  | taken (current : α) (value : T)
  | empty
deriving DecidableEq, Repr

/-- Where a thread stands that calls `push` and `pop` any number of times. -/
inductive Place (α T : Type) where
  | idle
  /-- `stack_.load()` of `push` -/
  | loading (value : T)
  /-- `node::make` -/
  | making (value : T) (next : Option α)
  /-- the compare exchange of `push_to(stack_, new_node)` -/
  | pushing (node : α)
  /-- `++popped_count` -/
  | entering
  /-- `stack_.load()` of `pop` -/
  | starting
  /-- `current->next` -/
  | reading (current : α)
  /-- the compare exchange of `pop` -/
  | swapping (current : α) (next : Option α)
  /-- `std::move(current->value)` -/
  | taking (current : α)
  /-- `free_stack_.load()` of `try_to_erase_free_list` -/
  | listing (rest : Rest α T)
  /-- `popped_count == 1` -/
  | counting (head : α) (rest : Rest α T)
  /-- the compare exchange that detaches the list -/
  | detaching (head : α) (rest : Rest α T)
  /-- the loop test of `erase`, and `current->next` -/
  | erasing (current : Option α) (rest : Rest α T)
  /-- `delete current` of `erase` -/
  | deleting (current : α) (next : Option α) (rest : Rest α T)
  /-- `--popped_count` -/
  | leaving (rest : Rest α T)
  /-- `delete current` of `pop` -/
  | destroying (current : α) (value : T)
  /-- `free_stack_.load()` of `pop` -/
  | relinking (current : α) (value : T)
  /-- the write to `current->next` -/
  | relinked (current : α) (head : Option α) (value : T)
  /-- the compare exchange of `push_to(free_stack_, current)` -/
  | freeing (current : α) (value : T)
  | returning (reply : Reply T)
deriving DecidableEq, Repr

/-- The place after `pop` has seen this head of the stack. -/
def Place.seen : Option α → Place α T
  | some current => .reading current
  | none => .listing .empty

structure System (ι α T : Type) where
  heap : α → Option (Node α T)
  stack_ : Option α
  free_stack_ : Option α
  popped_count : Nat
  places : ι → Place α T
  /-- the calls and returns so far -/
  history : List (Observed ι (Operation T) (Reply T))

inductive Event (ι α T : Type) where
  /-- an idle thread calls `push` or `pop` -/
  | call (thread : ι) (operation : Operation T)
  /-- the next step of a thread; an allocation takes the address, and a weak compare exchange
  may fail spuriously -/
  | act (thread : ι) (address : α) (spurious : Bool)
deriving DecidableEq, Repr

/-- The number of values of `std::size_t`. -/
def sizeRange : Nat := 2 ^ 64

namespace System

variable [DecidableEq ι] [DecidableEq α]

def initial : System ι α T where
  heap _ := none
  stack_ := none
  free_stack_ := none
  popped_count := 0
  places _ := .idle
  history := []

def goto (system : System ι α T) (thread : ι) (place : Place α T) : System ι α T :=
  { system with places := Function.update system.places thread place }

def setNode (system : System ι α T) (address : α) (node : Option (Node α T)) : System ι α T :=
  { system with heap := Function.update system.heap address node }

/-- The next step of `push` or `pop`. -/
def act (system : System ι α T) (thread : ι) (address : α) (spurious : Bool) : Outcome (System ι α T) :=
  match system.places thread with
  | .idle => .ok system
  | .loading value => .ok (system.goto thread (.making value system.stack_))
  | .making value next =>
      match system.heap address with
      | none => .ok ((system.setNode address (some ⟨some value, next⟩)).goto thread (.pushing address))
      | some _ => .ok system
  | .pushing node =>
      match system.heap node with
      | none => .error .destroyedNode
      | some cell =>
          if system.stack_ = cell.next ∧ spurious = false then
            .ok ({ system with stack_ := some node }.goto thread (.returning .pushed))
          else .ok (system.setNode node (some { cell with next := system.stack_ }))
  | .entering =>
      .ok ({ system with popped_count := (system.popped_count + 1) % sizeRange }.goto thread .starting)
  | .starting => .ok (system.goto thread (.seen system.stack_))
  | .reading current =>
      match system.heap current with
      | none => .error .destroyedNode
      | some cell => .ok (system.goto thread (.swapping current cell.next))
  | .swapping current next =>
      if system.stack_ = some current ∧ spurious = false then
        .ok ({ system with stack_ := next }.goto thread (.taking current))
      else .ok (system.goto thread (.seen system.stack_))
  | .taking current =>
      match system.heap current with
      | none => .error .destroyedNode
      | some ⟨none, _⟩ => .error .movedFrom
      | some ⟨some value, next⟩ =>
          .ok ((system.setNode current (some ⟨none, next⟩)).goto thread (.listing (.taken current value)))
  | .listing rest =>
      match system.free_stack_ with
      | none => .ok (system.goto thread (.leaving rest))
      | some head => .ok (system.goto thread (.counting head rest))
  | .counting head rest =>
      .ok (system.goto thread (if system.popped_count = 1 then .detaching head rest else .leaving rest))
  | .detaching head rest =>
      if system.free_stack_ = some head then
        .ok ({ system with free_stack_ := none }.goto thread (.erasing (some head) rest))
      else .ok (system.goto thread (.leaving rest))
  | .erasing none rest => .ok (system.goto thread (.leaving rest))
  | .erasing (some current) rest =>
      match system.heap current with
      | none => .error .destroyedNode
      | some cell => .ok (system.goto thread (.deleting current cell.next rest))
  | .deleting current next rest =>
      match system.heap current with
      | none => .error .destroyedNode
      | some _ => .ok ((system.setNode current none).goto thread (.erasing next rest))
  | .leaving rest =>
      let count := (system.popped_count + (sizeRange - 1)) % sizeRange
      .ok ({ system with popped_count := count }.goto thread
        (match rest with
        | .empty => .returning (.popped none)
        | .taken current value => if count = 0 then .destroying current value else .relinking current value))
  | .destroying current value =>
      match system.heap current with
      | none => .error .destroyedNode
      | some _ => .ok ((system.setNode current none).goto thread (.returning (.popped (some value))))
  | .relinking current value => .ok (system.goto thread (.relinked current system.free_stack_ value))
  | .relinked current head value =>
      match system.heap current with
      | none => .error .destroyedNode
      | some cell =>
          .ok ((system.setNode current (some { cell with next := head })).goto thread (.freeing current value))
  | .freeing current value =>
      match system.heap current with
      | none => .error .destroyedNode
      | some cell =>
          if system.free_stack_ = cell.next ∧ spurious = false then
            .ok ({ system with free_stack_ := some current }.goto thread (.returning (.popped (some value))))
          else .ok (system.setNode current (some { cell with next := system.free_stack_ }))
  | .returning reply =>
      .ok ({ system with history := system.history ++ [Observed.respond thread reply] }.goto thread .idle)

/-- An event that the place of its thread rules out changes nothing. -/
def step (system : System ι α T) : Event ι α T → Outcome (System ι α T)
  | .call thread operation =>
      match system.places thread with
      | .idle =>
          .ok ({ system with history := system.history ++ [Observed.invoke thread operation] }.goto thread
            (match operation with
            | .push value => .loading value
            | .pop => .entering))
      | _ => .ok system
  | .act thread address spurious => system.act thread address spurious

/-- The run of an interleaving. -/
def interleave (schedule : List (Event ι α T)) : Outcome (System ι α T) := run step initial schedule

end System

end Dsac.LockFreeStack

import Dsac.Fault
import Dsac.Library.Generations
import Dsac.Library.Heap

namespace Dsac.Fibers

open Dsac.Library

/-! `go` and `fiber_scheduler`. A switch to the context of a fiber runs it until it switches back. -/

/-- What a routine does: it calls `go` for some routines, and then it returns or throws. -/
inductive Routine (L : Type) where
  | mk (label : L) (calls : List (Routine L)) (throws : Bool)

variable {L : Type}

def Routine.calls : Routine L → List (Routine L)
  | mk _ calls _ => calls

def Routine.throws : Routine L → Bool
  | mk _ _ throws => throws

structure Fiber (L : Type) where
  scheduler : Option Addr
  routine : Routine L
  stack : Nat

/-- The stacks that `fiber_stack_allocator` keeps are listed from the back. -/
structure FiberScheduler where
  currentFiber : Option Addr := none
  fibers : List Addr := []
  freeStacks : List Nat := []

/-- What happens to the fibers of a thread. -/
inductive Event (L : Type) where
  /-- a stack is given to a new fiber -/
  | given (fiber : Addr) (stack : Nat)
  | submitted (caller : Option Addr) (fiber : Addr) (routine : Routine L)
  | started (fiber : Addr) (routine : Routine L)
  /-- the routine has returned or thrown -/
  | finished (fiber : Addr)
  | destroyed (fiber : Addr)

/-- A thread with its schedulers and fibers. Stacks are numbered as they are made. -/
structure Thread (L : Type) where
  kScheduler : Option Addr := none
  schedulers : Heap FiberScheduler := {}
  fibers : Heap (Fiber L) := {}
  nextStack : Nat := 0
  log : List (Event L) := []

namespace Thread

def record (thread : Thread L) (event : Event L) : Thread L := { thread with log := thread.log ++ [event] }

def scheduler (thread : Thread L) (self : Addr) : Outcome FiberScheduler :=
  match thread.schedulers.get self with
  | some scheduler => .ok scheduler
  | none => .error .destroyedNode

def store (thread : Thread L) (self : Addr) (scheduler : FiberScheduler) : Thread L :=
  { thread with schedulers := thread.schedulers.set self scheduler }

def fiber (thread : Thread L) (address : Addr) : Outcome (Fiber L) :=
  match thread.fibers.get address with
  | some fiber => .ok fiber
  | none => .error .destroyedNode

end Thread

/-- `fiber_stack_allocator::allocate`, with the number of the next new stack. -/
def allocate (freeStacks : List Nat) (nextStack : Nat) : Nat × List Nat × Nat :=
  match freeStacks with
  | [] => (nextStack, [], nextStack + 1)
  | stack :: freeStacks => (stack, freeStacks, nextStack)

/-- `fiber_stack_allocator::release` -/
def release (freeStacks : List Nat) (stack : Nat) : List Nat := stack :: freeStacks

/-- `submit(child_routine)` -/
def submitChild (self : Addr) (routine : Routine L) (thread : Thread L) : Outcome (Thread L) := do
  let scheduler ← thread.scheduler self
  let (stack, freeStacks, nextStack) := allocate scheduler.freeStacks thread.nextStack
  let fiber := thread.fibers.fresh
  .ok { thread with
    fibers := thread.fibers.alloc ⟨thread.kScheduler, routine, stack⟩
    schedulers := thread.schedulers.set self { scheduler with fibers := scheduler.fibers ++ [fiber], freeStacks }
    nextStack
    log := thread.log ++ [.given fiber stack, .submitted scheduler.currentFiber fiber routine] }

/-- A call of the routine, and whether it throws. -/
def invoke (go : Routine L → Thread L → Outcome (Thread L)) (routine : Routine L) (thread : Thread L) :
    Outcome (Thread L × Bool) := do
  let thread ← routine.calls.foldlM (fun thread child => go child thread) thread
  .ok (thread, routine.throws)

/-- `fiber::run`, and the scheduler to whose context it switches. -/
def run (go : Routine L → Thread L → Outcome (Thread L)) (address : Addr) (thread : Thread L) :
    Outcome (Thread L × Option Addr) := do
  let fiber ← thread.fiber address
  let (thread, _) ← invoke go fiber.routine (thread.record (.started address fiber.routine))
  let fiber ← thread.fiber address
  .ok (thread.record (.finished address), fiber.scheduler)

/-- `switch_to`. The scheduler goes on when the fiber switches to its context. -/
def switchTo (go : Routine L → Thread L → Outcome (Thread L)) (self address : Addr) (thread : Thread L) :
    Outcome (Thread L) := do
  let scheduler ← thread.scheduler self
  let (thread, target) ← run go address (thread.store self { scheduler with currentFiber := some address })
  if target = some self then do
    let scheduler ← thread.scheduler self
    .ok (thread.store self { scheduler with currentFiber := none })
  else .error .nullPointer

/-- `dispatch_of` -/
def dispatchOf (self address : Addr) (thread : Thread L) : Outcome (Thread L) := do
  let fiber ← thread.fiber address
  let scheduler ← thread.scheduler self
  let thread := thread.store self { scheduler with freeStacks := release scheduler.freeStacks fiber.stack }
  .ok ({ thread with fibers := thread.fibers.free address }.record (.destroyed address))

/-- `while (not fibers_.empty())` -/
def drain (go : Routine L → Thread L → Outcome (Thread L)) (self : Addr) : Nat → Thread L → Outcome (Thread L)
  | 0, _ => .error .fuel
  | fuel + 1, thread => do
      let scheduler ← thread.scheduler self
      match scheduler.fibers with
      | [] => .ok thread
      | fiber :: fibers => do
          let thread ← switchTo go self fiber (thread.store self { scheduler with fibers })
          drain go self fuel (← dispatchOf self fiber thread)

/-- `submit(entry_routine)`, with its `defer` -/
def submitEntry (go : Routine L → Thread L → Outcome (Thread L)) (fuel : Nat) (self : Addr) (routine : Routine L)
    (thread : Thread L) : Outcome (Thread L) := do
  let thread ← submitChild self routine { thread with kScheduler := some self }
  let thread ← drain go self fuel thread
  .ok { thread with kScheduler := none }

/-- The fuel bounds the depth of the calls and the number of iterations of each loop. -/
def go : Nat → Routine L → Thread L → Outcome (Thread L)
  | 0, _, _ => .error .fuel
  | fuel + 1, routine, thread =>
      match thread.kScheduler with
      | some scheduler => submitChild scheduler routine thread
      | none => do
          let self := thread.schedulers.fresh
          let thread ← submitEntry (go fuel) fuel self routine { thread with schedulers := thread.schedulers.alloc {} }
          .ok { thread with schedulers := thread.schedulers.free self }

end Dsac.Fibers

import Dsac.Concurrency.Fibers

namespace Dsac.Fibers

open Dsac.Library

/-! What one turn of the scheduler's loop does: the first fiber of the queue runs to its end, its
children are put at the end of the queue, and it is destroyed. -/

variable {L : Type}

/-- The fibers that have a stack, with it. -/
def hold (held : List (Addr × Nat)) : Event L → List (Addr × Nat)
  | .given fiber stack => held ++ [(fiber, stack)]
  | .destroyed fiber => held.filter (·.1 ≠ fiber)
  | _ => held

def holders (log : List (Event L)) : List (Addr × Nat) := log.foldl hold []

/-- At no time two live fibers have the same stack. -/
def Exclusive (log : List (Event L)) : Prop :=
  ∀ start rest, log = start ++ rest → ((holders start).map Prod.snd).Nodup

def Event.isGiven : Event L → Bool
  | .given .. => true
  | _ => false

/-- The events apart from the distribution of the stacks. -/
def told (log : List (Event L)) : List (Event L) := log.filter fun event => !event.isGiven

/-- A fiber submits routines to new fibers. -/
def submissions (caller : Addr) : Addr → List (Routine L) → List (Event L)
  | _, [] => []
  | fiber, routine :: rest => .submitted (some caller) fiber routine :: submissions caller (fiber + 1) rest

variable {self first caller : Addr} {base tail : List (Event L)} {current : Option Addr} {waiting : List (Routine L)}
  {thread : Thread L} {routine : Routine L} {event : Event L} {held : List (Addr × Nat)}

theorem holders_append (tail more : List (Event L)) : holders (tail ++ more) = more.foldl hold (holders tail) :=
  List.foldl_append

theorem Exclusive.snoc (exclusive : Exclusive tail) (next : ((hold (holders tail) event).map Prod.snd).Nodup) :
    Exclusive (tail ++ [event]) := by
  intro start rest split
  rcases List.eq_nil_or_concat rest with rfl | ⟨front, last, rfl⟩
  · rw [List.append_nil] at split
    rw [← split, holders_append]
    exact next
  · rw [List.concat_eq_append, ← List.append_assoc] at split
    exact exclusive start front (List.append_inj_left' split rfl)

/-- An event that does not concern the stacks changes none of this. -/
theorem Exclusive.snoc_same (exclusive : Exclusive tail) (same : hold (holders tail) event = holders tail) :
    Exclusive (tail ++ [event]) := by
  refine exclusive.snoc ?_
  rw [same]
  exact exclusive tail [] (List.append_nil tail).symm

/-- The state of the loop: which fiber runs, the routines that wait in the fibers from `first` on, and the
events since the call of `go`. -/
structure Serving (owner : Addr) (base tail : List (Event L)) (current : Option Addr) (first : Addr)
    (waiting : List (Routine L)) (thread : Thread L) : Prop where
  active : thread.kScheduler = some owner
  logged : thread.log = base ++ tail
  scheduler : ∃ free, thread.schedulers.get owner = some ⟨current, List.range' first waiting.length, free⟩ ∧
    ((holders tail).map Prod.snd ++ free).Nodup ∧ ∀ stack ∈ (holders tail).map Prod.snd ++ free, stack < thread.nextStack
  next : thread.fibers.fresh = first + waiting.length
  queued : ∀ (index : Nat) (routine : Routine L), waiting[index]? = some routine → ∃ stack,
    thread.fibers.get (first + index) = some ⟨some owner, routine, stack⟩ ∧ (first + index, stack) ∈ holders tail
  exclusive : Exclusive tail

theorem scheduler_of_get {scheduler : FiberScheduler} (here : thread.schedulers.get self = some scheduler) :
    thread.scheduler self = .ok scheduler := by
  rw [Thread.scheduler, here]

theorem fiber_of_get {address : Addr} {fiber : Fiber L} (here : thread.fibers.get address = some fiber) :
    thread.fiber address = .ok fiber := by
  rw [Thread.fiber, here]

/-- The allocator gives a stack that no live fiber has. -/
theorem allocate_fresh {used free : List Nat} {nextStack : Nat} (distinct : (used ++ free).Nodup)
    (below : ∀ stack ∈ used ++ free, stack < nextStack) :
    let given := allocate free nextStack
    ((used ++ [given.1]) ++ given.2.1).Nodup ∧ ∀ stack ∈ (used ++ [given.1]) ++ given.2.1, stack < given.2.2 := by
  cases free with
  | nil =>
      rw [List.append_nil] at distinct below
      refine ⟨?_, ?_⟩
      · rw [allocate, List.append_nil, List.nodup_append]
        refine ⟨distinct, List.nodup_singleton _, ?_⟩
        intro stack member other new
        rw [List.mem_singleton.mp new]
        exact (below stack member).ne
      · intro stack member
        rw [allocate, List.append_nil, List.mem_append, List.mem_singleton] at member
        rcases member with member | rfl
        · exact Nat.lt_succ_of_lt (below stack member)
        · exact Nat.lt_succ_self _
  | cons stack free =>
      have same : used ++ [stack] ++ free = used ++ stack :: free := by
        rw [List.append_assoc, List.singleton_append]
      rw [allocate]
      dsimp only
      rw [same]
      exact ⟨distinct, below⟩

theorem submitChild_eq {scheduler : FiberScheduler} (here : thread.schedulers.get self = some scheduler) (routine : Routine L) :
    submitChild self routine thread =
      .ok { thread with
        fibers := thread.fibers.alloc ⟨thread.kScheduler, routine, (allocate scheduler.freeStacks thread.nextStack).1⟩
        schedulers := thread.schedulers.set self { scheduler with
          fibers := scheduler.fibers ++ [thread.fibers.fresh]
          freeStacks := (allocate scheduler.freeStacks thread.nextStack).2.1 }
        nextStack := (allocate scheduler.freeStacks thread.nextStack).2.2
        log := thread.log ++ [.given thread.fibers.fresh (allocate scheduler.freeStacks thread.nextStack).1,
          .submitted scheduler.currentFiber thread.fibers.fresh routine] } := by
  rw [submitChild, scheduler_of_get here]
  rfl

/-- A new fiber waits at the end of the queue. -/
theorem Serving.submitChild (serving : Serving self base tail current first waiting thread) (routine : Routine L) :
    ∃ next stack, submitChild self routine thread = .ok next ∧
      Serving self base (tail ++ [.given thread.fibers.fresh stack, .submitted current thread.fibers.fresh routine])
        current first (waiting ++ [routine]) next ∧
      (∀ address < thread.fibers.fresh, next.fibers.get address = thread.fibers.get address) := by
  obtain ⟨free, here, distinct, below⟩ := serving.scheduler
  obtain ⟨newDistinct, newBelow⟩ := allocate_fresh distinct below
  have inside := Heap.lt_fresh_of_get here
  have same : ∀ address < thread.fibers.fresh,
      (thread.fibers.alloc ⟨thread.kScheduler, routine, (allocate free thread.nextStack).1⟩).get address =
        thread.fibers.get address := fun address old => Heap.get_alloc_of_ne (Nat.ne_of_lt old)
  refine ⟨_, (allocate free thread.nextStack).1, submitChild_eq here routine, ?_, same⟩
  · have holding : holders (tail ++ [.given thread.fibers.fresh (allocate free thread.nextStack).1,
        .submitted current thread.fibers.fresh routine]) =
        holders tail ++ [(thread.fibers.fresh, (allocate free thread.nextStack).1)] := holders_append tail _
    constructor
    · exact serving.active
    · simp only [serving.logged, List.append_assoc]
    · refine ⟨(allocate free thread.nextStack).2.1, ?_, ?_, ?_⟩
      · rw [Heap.get_set_self inside, List.length_append, List.length_singleton, List.range'_concat, serving.next, one_mul]
      · rw [holding, List.map_append]
        exact newDistinct
      · rw [holding, List.map_append]
        exact newBelow
    · rw [Heap.fresh_alloc, serving.next, List.length_append, List.length_singleton, Nat.add_assoc]
    · intro index other found
      rcases Nat.lt_or_ge index waiting.length with old | new
      · rw [List.getElem?_append_left old] at found
        obtain ⟨stack, live, holds⟩ := serving.queued index other found
        refine ⟨stack, ?_, ?_⟩
        · rw [same _ (by rw [serving.next]; exact Nat.add_lt_add_left old first), live]
        · rw [holding]
          exact List.mem_append_left _ holds
      · have last : index = waiting.length := by
          have := (List.getElem?_eq_some_iff.mp found).1
          rw [List.length_append, List.length_singleton] at this
          omega
        subst last
        rw [List.getElem?_concat_length, Option.some.injEq] at found
        refine ⟨(allocate free thread.nextStack).1, ?_, ?_⟩
        · rw [← serving.next, Heap.get_alloc_fresh, serving.active, found]
        · rw [holding, ← serving.next]
          exact List.mem_append_right _ (List.mem_singleton.mpr rfl)
    · have first : Exclusive (tail ++ [.given thread.fibers.fresh (allocate free thread.nextStack).1]) := by
        refine serving.exclusive.snoc ?_
        rw [hold, List.map_append]
        exact (List.nodup_append.mp newDistinct).1
      rw [← List.singleton_append, ← List.append_assoc]
      exact first.snoc_same rfl

theorem told_append (tail more : List (Event L)) : told (tail ++ more) = told tail ++ told more := List.filter_append _ _

theorem Serving.record (serving : Serving self base tail current first waiting thread)
    (same : hold (holders tail) event = holders tail) :
    Serving self base (tail ++ [event]) current first waiting (thread.record event) := by
  have holding : holders (tail ++ [event]) = holders tail := (holders_append tail [event]).trans same
  constructor
  · exact serving.active
  · rw [Thread.record, serving.logged, List.append_assoc]
  · rw [holding]
    exact serving.scheduler
  · exact serving.next
  · rw [holding]
    exact serving.queued
  · exact serving.exclusive.snoc_same same

theorem Serving.switch (serving : Serving self base tail current first waiting thread) (next : Option Addr) :
    ∃ scheduler, thread.scheduler self = .ok scheduler ∧
      Serving self base tail next first waiting (thread.store self { scheduler with currentFiber := next }) := by
  obtain ⟨free, here, distinct⟩ := serving.scheduler
  refine ⟨_, scheduler_of_get here, serving.active, serving.logged, ⟨free, ?_, distinct⟩, serving.next, serving.queued,
    serving.exclusive⟩
  exact Heap.get_set_self (Heap.lt_fresh_of_get here)

/-- The fiber at the front of the queue is taken from it. -/
theorem Serving.pop (serving : Serving self base tail current first (routine :: waiting) thread) :
    ∃ scheduler fibers stack, thread.scheduler self = .ok scheduler ∧ scheduler.fibers = first :: fibers ∧
      Serving self base tail current (first + 1) waiting (thread.store self { scheduler with fibers }) ∧
      thread.fibers.get first = some ⟨some self, routine, stack⟩ ∧ (first, stack) ∈ holders tail := by
  obtain ⟨free, here, distinct⟩ := serving.scheduler
  obtain ⟨stack, live, holds⟩ := serving.queued 0 routine rfl
  refine ⟨_, List.range' (first + 1) waiting.length, stack, scheduler_of_get here, ?_, ?_, live, holds⟩
  · rw [List.length_cons, List.range'_succ]
  · refine ⟨serving.active, serving.logged, ⟨free, Heap.get_set_self (Heap.lt_fresh_of_get here), distinct⟩, ?_, ?_,
      serving.exclusive⟩
    · have length := serving.next
      rw [List.length_cons] at length
      rw [Nat.add_assoc, Nat.add_comm 1]
      exact length
    · intro index other found
      obtain ⟨stack, live, holds⟩ := serving.queued (index + 1) other found
      have place : first + 1 + index = first + (index + 1) := by
        rw [Nat.add_assoc, Nat.add_comm 1]
      rw [place]
      exact ⟨stack, live, holds⟩

/-- A routine submits those that it calls. -/
theorem Serving.calls {go : Routine L → Thread L → Outcome (Thread L)} (calls : List (Routine L))
    (nested : ∀ child thread, thread.kScheduler = some self → go child thread = Fibers.submitChild self child thread)
    (serving : Serving self base tail (some caller) first waiting thread) :
    ∃ next more, calls.foldlM (fun thread child => go child thread) thread = .ok next ∧
      Serving self base (tail ++ more) (some caller) first (waiting ++ calls) next ∧
      told more = submissions caller thread.fibers.fresh calls ∧
      (∀ address < thread.fibers.fresh, next.fibers.get address = thread.fibers.get address) ∧
      ∀ pair ∈ holders tail, pair ∈ holders (tail ++ more) := by
  induction calls generalizing tail waiting thread with
  | nil => exact ⟨thread, [], rfl, by rwa [List.append_nil, List.append_nil], rfl, fun _ _ => rfl, by simp⟩
  | cons child calls inductionHypothesis =>
      obtain ⟨moved, stack, submitted, servingMoved, same⟩ := serving.submitChild child
      obtain ⟨next, more, run, servingNext, story, sameNext, kept⟩ := inductionHypothesis servingMoved
      have fresh : moved.fibers.fresh = thread.fibers.fresh + 1 := by
        rw [servingMoved.next, serving.next, List.length_append, List.length_singleton, Nat.add_assoc]
      rw [List.append_assoc] at servingNext
      rw [List.append_assoc] at kept
      refine ⟨next, _, ?_, by rwa [List.append_assoc] at servingNext, ?_, ?_, ?_⟩
      · rw [List.foldlM_cons, nested child thread serving.active, submitted]
        exact run
      · rw [told_append, story, fresh]
        rfl
      · intro address old
        rw [sameNext address (by rw [fresh]; exact Nat.lt_succ_of_lt old), same address old]
      · intro pair member
        refine kept pair ?_
        rw [holders_append]
        exact List.mem_append_left _ member

/-- A stack that is given back belongs to no other fiber. -/
theorem release_fresh {address : Addr} {stack : Nat} {free : List Nat} (distinct : (held.map Prod.snd ++ free).Nodup)
    (holds : (address, stack) ∈ held) :
    ((held.filter (·.1 ≠ address)).map Prod.snd ++ release free stack).Nodup ∧
      ∀ other ∈ (held.filter (·.1 ≠ address)).map Prod.snd ++ release free stack, other ∈ held.map Prod.snd ++ free := by
  obtain ⟨heldDistinct, freeDistinct, apart⟩ := List.nodup_append.mp distinct
  have fewer : ((held.filter (·.1 ≠ address)).map Prod.snd).Sublist (held.map Prod.snd) := List.filter_sublist.map Prod.snd
  have owned : stack ∈ held.map Prod.snd := List.mem_map_of_mem holds
  constructor
  · rw [release, List.nodup_middle, List.nodup_cons, List.mem_append]
    refine ⟨?_, List.nodup_append.mpr ⟨heldDistinct.sublist fewer, freeDistinct, ?_⟩⟩
    · rintro (member | member)
      · obtain ⟨⟨other, _⟩, kept, rfl⟩ := List.mem_map.mp member
        obtain ⟨otherHolds, different⟩ := List.mem_filter.mp kept
        have same := List.inj_on_of_nodup_map heldDistinct otherHolds holds rfl
        rw [Prod.mk.injEq] at same
        simp [same.1] at different
      · exact apart stack owned stack member rfl
    · intro other member third inFree
      exact apart other (fewer.subset member) third inFree
  · intro other member
    rw [release, List.mem_append, List.mem_cons] at member
    rcases member with member | rfl | member
    · exact List.mem_append_left _ (fewer.subset member)
    · exact List.mem_append_left _ owned
    · exact List.mem_append_right _ member

theorem dispatchOf_eq {address : Addr} {fiber : Fiber L} {scheduler : FiberScheduler}
    (live : thread.fibers.get address = some fiber) (here : thread.schedulers.get self = some scheduler) :
    dispatchOf self address thread =
      .ok ({ thread.store self { scheduler with freeStacks := release scheduler.freeStacks fiber.stack } with
        fibers := thread.fibers.free address }.record (.destroyed address)) := by
  rw [dispatchOf, fiber_of_get live, Outcome.ok_bind, scheduler_of_get here]
  rfl

/-- The fiber that has run is destroyed, and its stack is kept for another one. -/
theorem Serving.dispatch {address : Addr} {fiber : Fiber L} (serving : Serving self base tail current first waiting thread)
    (live : thread.fibers.get address = some fiber) (holds : (address, fiber.stack) ∈ holders tail) (before : address < first) :
    ∃ next, dispatchOf self address thread = .ok next ∧
      Serving self base (tail ++ [.destroyed address]) current first waiting next ∧
      next.fibers = thread.fibers.free address := by
  obtain ⟨free, here, distinct, below⟩ := serving.scheduler
  obtain ⟨newDistinct, subset⟩ := release_fresh distinct holds
  have holding : holders (tail ++ [.destroyed address]) = (holders tail).filter (·.1 ≠ address) :=
    holders_append tail [.destroyed address]
  refine ⟨_, dispatchOf_eq live here, ?_, rfl⟩
  constructor
  · exact serving.active
  · simp only [Thread.record, Thread.store, serving.logged, List.append_assoc]
  · refine ⟨release free fiber.stack, Heap.get_set_self (Heap.lt_fresh_of_get here), ?_, ?_⟩
    · rw [holding]
      exact newDistinct
    · rw [holding]
      exact fun stack member => below stack (subset stack member)
  · simp only [Thread.record, Thread.store, Heap.fresh_free, serving.next]
  · intro index other found
    obtain ⟨stack, otherLive, otherHolds⟩ := serving.queued index other found
    have apart : first + index ≠ address := Nat.ne_of_gt (Nat.lt_of_lt_of_le before (Nat.le_add_right first index))
    refine ⟨stack, ?_, ?_⟩
    · rw [← otherLive]
      exact Heap.get_free_of_ne apart
    · rw [holding]
      exact List.mem_filter.mpr ⟨otherHolds, by simpa using apart⟩
  · refine serving.exclusive.snoc ?_
    exact (List.nodup_append.mp newDistinct).1

/-- What the events of one fiber are, when its children begin at `next`. -/
def chapter (fiber next : Addr) (routine : Routine L) : List (Event L) :=
  .started fiber routine :: (submissions fiber next routine.calls ++ [.finished fiber, .destroyed fiber])

/-- One iteration of the loop. -/
theorem Serving.turn {go : Routine L → Thread L → Outcome (Thread L)}
    (nested : ∀ child thread, thread.kScheduler = some self → go child thread = Fibers.submitChild self child thread)
    (serving : Serving self base tail none first (routine :: waiting) thread) (fuel : Nat) :
    ∃ next more, drain go self (fuel + 1) thread = drain go self fuel next ∧
      Serving self base (tail ++ more) none (first + 1) (waiting ++ routine.calls) next ∧
      told more = chapter first (first + 1 + waiting.length) routine ∧
      next.fibers.get first = none ∧ ∀ address < first, next.fibers.get address = thread.fibers.get address := by
  obtain ⟨scheduler, fibers, stack, loaded, queue, popped, live, holds⟩ := serving.pop
  obtain ⟨second, loadedSecond, switched⟩ := popped.switch (some first)
  have begun := switched.record (rfl : hold (holders tail) (.started first routine) = holders tail)
  obtain ⟨third, more, called, servingThird, story, same, kept⟩ := begun.calls routine.calls nested
  have old : ∀ address < first + 1, third.fibers.get address = thread.fibers.get address := by
    intro address below
    refine same address (Nat.lt_of_lt_of_le below ?_)
    rw [begun.next]
    exact Nat.le_add_right _ _
  have liveThird := (old first (Nat.lt_succ_self first)).trans live
  have finished := servingThird.record (rfl : hold (holders _) (.finished first) = holders _)
  obtain ⟨fourth, loadedFourth, back⟩ := finished.switch none
  have holdsThird : (first, stack) ∈ holders (tail ++ [.started first routine] ++ more ++ [.finished first]) := by
    rw [holders_append]
    refine kept _ ?_
    rw [holders_append]
    exact holds
  obtain ⟨next, dispatched, servingNext, fibersNext⟩ := back.dispatch liveThird holdsThird (Nat.lt_succ_self first)
  refine ⟨next, [.started first routine] ++ more ++ [.finished first] ++ [.destroyed first], ?_, ?_, ?_, ?_, ?_⟩
  · have ran : switchTo go self first (thread.store self { scheduler with fibers }) =
        .ok ((third.record (.finished first)).store self { fourth with currentFiber := none }) := by
      have liveSecond : Thread.fiber ((thread.store self { scheduler with fibers }).store self
          { second with currentFiber := some first }) first = .ok ⟨some self, routine, stack⟩ := fiber_of_get live
      rw [switchTo, loadedSecond, Outcome.ok_bind, run, liveSecond, Outcome.ok_bind, invoke, called, Outcome.ok_bind]
      simp only [Outcome.ok_bind, fiber_of_get liveThird, if_true, loadedFourth]
    rw [drain, loaded, Outcome.ok_bind]
    simp only [queue, ran, Outcome.ok_bind, dispatched]
  · simpa only [List.append_assoc] using servingNext
  · rw [told_append, told_append, told_append, story, begun.next, chapter, List.append_assoc]
    rfl
  · rw [fibersNext]
    exact Heap.get_free_self
  · intro address below
    rw [fibersNext, Heap.get_free_of_ne (Nat.ne_of_lt below)]
    exact old address (Nat.lt_succ_of_lt below)

end Dsac.Fibers

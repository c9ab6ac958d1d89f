import Dsac.Library.Monitor
import Dsac.Library.WaitQueue
import Dsac.Concurrency.Executors.StaticThreadPool

namespace Dsac.StaticThreadPool

open Dsac.Library

/-! What the pool has done when `join` returns, and why it gets there. -/

variable {κ τ : Type} {workers : Nat}

namespace Place

/-- The thread owns `mutex_`. -/
def Locks : Place τ → Prop
  | .pushing _ | .exiting _ | .testing | .sleeping | .popping | .leaving _ => True
  | _ => False

/-- The thread will look at the buffer before it sleeps or ends, or wake a worker that does. -/
def credit : Place τ → Nat
  | .exiting _ | .notifying _ | .locking | .testing | .relocking | .popping => 1
  | .leaving item | .looping item => if item = none then 0 else 1
  | _ => 0

/-- A worker that has popped its poison pill. -/
def popped : Place τ → Nat
  | .leaving none | .looping none | .finished => 1
  | _ => 0

/-- The poison pills that the thread will push, or has popped. -/
def due (workers : Nat) : Place τ → Nat
  | .ready => workers
  | .entering (.join rest) | .pushing (.join rest) => rest + 1
  | .exiting (.join rest) | .notifying (.join rest) => rest
  | .leaving none | .looping none | .finished => 1
  | _ => 0

/-- How often the thread holds a task that is not in the buffer and not executed. -/
def held [DecidableEq τ] (task : τ) : Place τ → Nat
  | .entering (.submit other) | .pushing (.submit other) => if other = task then 1 else 0
  | .leaving (some other) | .looping (some other) => if other = task then 1 else 0
  | _ => 0

/-- Which threads stand at the place. -/
def Role (thread : Thread workers κ) : Place τ → Prop
  | .idle | .entering (.submit _) | .pushing (.submit _) | .exiting (.submit _)
  | .notifying (.submit _) => ∃ name, thread = .client name
  | .ready | .entering (.join _) | .pushing (.join _) | .exiting (.join _) | .notifying (.join _)
  | .joining _ | .joined => thread = .joiner
  | _ => ∃ index, thread = .worker index

/-- The workers that `join` has waited for. -/
def Awaited (index : Fin workers) : Place τ → Prop
  | .joining next => index < next
  | .joined => True
  | _ => False

end Place

namespace System

/-- What the place of one thread says about the rest. -/
structure Stands (system : System workers κ τ) (thread : Thread workers κ) (place : Place τ) : Prop where
  role : place.Role thread
  pills : system.pills thread = place.popped
  full : place = .popping → system.buffer_ ≠ []
  empty : place = .sleeping → system.buffer_ = []
  awaited : ∀ index : Fin workers, place.Awaited index → system.places (.worker index) = .finished

variable [DecidableEq κ] [Fintype κ] [DecidableEq τ]

/-- The invariant: once `join` has begun nobody submits, the pills stand behind the tasks, every
pill and every task is accounted for, and while a worker sleeps somebody cares for each item. -/
structure Safe (system : System workers κ τ) : Prop where
  owned : Monitor.Owned Place.Locks system.places system.mutex_
  stands : ∀ thread, system.Stands thread (system.places thread)
  closed : system.places .joiner ≠ .ready → ∀ name, system.places (.client name) = .idle
  orderly : system.buffer_.Pairwise fun first second => first = none → second = none
  drained : ∀ thread, (system.places thread).popped = 1 → ∀ item ∈ system.buffer_, item = none
  due : system.buffer_.count none + WaitQueue.total (Place.due workers) system.places = workers
  tasks : ∀ task, system.submitted.count task = system.executed.count task +
    WaitQueue.total (Place.held task) system.places + system.buffer_.count (some task)
  covered : (∃ index : Fin workers, system.places (.worker index) = .asleep) →
    system.buffer_.length ≤ WaitQueue.total Place.credit system.places

variable {system next : System workers κ τ} {thread : Thread workers κ} {place old : Place τ}

omit [DecidableEq κ] in
theorem initial_safe : Safe (initial : System workers κ τ) where
  owned thread := by
    rcases thread with index | _ | name <;> exact ⟨False.elim, nofun⟩
  stands thread := by
    rcases thread with index | _ | name
    · exact ⟨⟨index, rfl⟩, rfl, nofun, nofun, fun _ => False.elim⟩
    · exact ⟨rfl, rfl, nofun, nofun, fun _ => False.elim⟩
    · exact ⟨⟨name, rfl⟩, rfl, nofun, nofun, fun _ => False.elim⟩
  closed opened := absurd rfl opened
  orderly := .nil
  drained _ _ _ member := nomatch member
  due := by
    simp [WaitQueue.total, initial, Place.due]
  tasks task := by
    simp [WaitQueue.total, initial, Place.held]
  covered := by
    rintro ⟨index, asleep⟩
    cases asleep

omit [DecidableEq τ] in
theorem total_update (weight : Place τ → Nat)
    (places : next.places = Function.update system.places thread place) :
    WaitQueue.total weight next.places + weight (system.places thread) =
      WaitQueue.total weight system.places + weight place := by
  rw [places]
  exact WaitQueue.total_update weight system.places thread place

/-- One thread moves. What the others' places say stays true if the buffer does not change,
or if the thread owns `mutex_`. -/
theorem Safe.move (safe : system.Safe) (places : next.places = Function.update system.places thread place)
    (owned : Monitor.Owned Place.Locks next.places next.mutex_) (here : next.Stands thread place)
    (pills : ∀ other, other ≠ thread → next.pills other = system.pills other)
    (buffer : next.buffer_ = system.buffer_ ∨ (system.places thread).Locks)
    (running : system.places thread ≠ .finished)
    (closed : next.places .joiner ≠ .ready → ∀ name, next.places (.client name) = .idle)
    (orderly : next.buffer_.Pairwise fun first second => first = none → second = none)
    (drained : ∀ item ∈ next.buffer_,
      (∃ other, (system.places other).popped = 1) ∨ place.popped = 1 → item = none)
    (due : next.buffer_.count none + place.due workers =
      system.buffer_.count none + (system.places thread).due workers)
    (tasks : ∀ task, next.submitted.count task + system.executed.count task +
        (system.places thread).held task + system.buffer_.count (some task) =
      system.submitted.count task + next.executed.count task + place.held task +
        next.buffer_.count (some task))
    (covered : (∃ index : Fin workers, next.places (.worker index) = .asleep) →
      next.buffer_.length ≤ WaitQueue.total Place.credit next.places) : next.Safe := by
  refine ⟨owned, ?_, closed, orderly, ?_, ?_, ?_, covered⟩
  rotate_left
  · intro other popped item member
    rw [places] at popped
    by_cases same : other = thread
    · subst same
      rw [Function.update_self] at popped
      exact drained item member (Or.inr popped)
    · rw [Function.update_of_ne same] at popped
      exact drained item member (Or.inl ⟨other, popped⟩)
  · have moved := total_update (Place.due workers) places
    have before := safe.due
    omega
  · intro task
    have moved := total_update (Place.held task) places
    have before := safe.tasks task
    have balance := tasks task
    omega
  · intro other
    by_cases same : other = thread
    · subst same
      rwa [places, Function.update_self]
    rw [places, Function.update_of_ne same]
    have stands := safe.stands other
    have sameBuffer : (system.places other).Locks → next.buffer_ = system.buffer_ := by
      intro otherLocks
      rcases buffer with kept | locks
      · exact kept
      · exact absurd (safe.owned.unique otherLocks locks) same
    refine ⟨stands.role, (pills other same).trans stands.pills, ?_, ?_, ?_⟩
    · intro popping
      rw [sameBuffer (by rw [popping]; trivial)]
      exact stands.full popping
    · intro sleeping
      rw [sameBuffer (by rw [sleeping]; trivial)]
      exact stands.empty sleeping
    · intro index awaited
      have finished := stands.awaited index awaited
      rw [places, Function.update_of_ne, finished]
      rintro rfl
      exact running finished

theorem Safe.closed_of_inside (safe : system.Safe) (at_ : system.places thread = old) (unready : old ≠ .ready)
    (unidle : old ≠ .idle) (places : next.places = Function.update system.places thread place)
    (started : next.places .joiner ≠ .ready) (name : κ) : next.places (.client name) = .idle := by
  subst at_
  rw [places] at started ⊢
  have closed : system.places .joiner ≠ .ready := by
    by_cases same : .joiner = thread
    · rw [same]
      exact unready
    · rwa [Function.update_of_ne same] at started
  have idle := safe.closed closed name
  rw [Function.update_of_ne, idle]
  rintro rfl
  exact unidle idle

/-- A thread inside a call moves on, and leaves the buffer and the records alone. -/
theorem Safe.goto (safe : system.Safe) (at_ : system.places thread = old) {mutex : Option (Thread workers κ)}
    (owned : Monitor.Owned Place.Locks (Function.update system.places thread place) mutex)
    (here : system.Stands thread place) (inside : old ≠ .ready ∧ old ≠ .idle ∧ old ≠ .finished)
    (due : place.due workers = old.due workers) (held : ∀ task, place.held task = old.held task)
    (covered : (∃ index : Fin workers, Function.update system.places thread place (.worker index) = .asleep) →
      system.buffer_.length ≤ WaitQueue.total Place.credit (Function.update system.places thread place)) :
    ({ system with mutex_ := mutex }.goto thread place).Safe := by
  subst at_
  obtain ⟨unready, unidle, running⟩ := inside
  refine safe.move rfl owned ⟨here.role, here.pills, here.full, here.empty, ?_⟩ (fun _ _ => rfl) (Or.inl rfl)
    running ?_ safe.orderly ?_ ?_ ?_ covered
  · intro index awaited
    have finished := here.awaited index awaited
    refine (Function.update_of_ne ?_ _ _).trans finished
    rintro rfl
    exact running finished
  · exact safe.closed_of_inside rfl unready unidle rfl
  · rintro item member (⟨other, popped⟩ | popped)
    · exact safe.drained other popped item member
    · apply safe.drained thread _ item member
      rw [← (safe.stands thread).pills, here.pills, popped]
  · show system.buffer_.count none + _ = _
    rw [due]
  · intro task
    show system.submitted.count task + system.executed.count task + _ + system.buffer_.count (some task) =
      system.submitted.count task + system.executed.count task + place.held task +
        system.buffer_.count (some task)
    rw [held]

omit [Fintype κ] [DecidableEq τ] in
theorem asleep_of_update {other : Thread workers κ} (place : Place τ) (awake : place ≠ .asleep)
    (asleep : Function.update system.places thread place other = .asleep) : system.places other = .asleep := by
  by_cases same : other = thread
  · rw [same, Function.update_self] at asleep
    exact absurd asleep awake
  · rwa [Function.update_of_ne same] at asleep

/-- While a thread keeps its credit, the items of the buffer stay cared for. -/
theorem Safe.covered_of_credit (safe : system.Safe) (at_ : system.places thread = old)
    (awake : place ≠ .asleep) (credit : old.credit ≤ place.credit) :
    (∃ index : Fin workers, Function.update system.places thread place (.worker index) = .asleep) →
      system.buffer_.length ≤ WaitQueue.total Place.credit (Function.update system.places thread place) := by
  subst at_
  rintro ⟨index, asleep⟩
  have sleeping := asleep_of_update place awake asleep
  have covered := safe.covered ⟨index, sleeping⟩
  have moved := WaitQueue.total_update Place.credit system.places thread place
  omega

/-! Before `join` begins there is no pill anywhere. -/

theorem Safe.unpopped (safe : system.Safe) (ready : system.places .joiner = .ready) :
    none ∉ system.buffer_ ∧ ∀ thread, (system.places thread).popped = 0 := by
  have due := safe.due
  have own := WaitQueue.le_total (Place.due workers) system.places .joiner
  rw [ready, Place.due] at own
  constructor
  · intro member
    have counted := List.count_pos_iff.mpr member
    omega
  · intro thread
    by_cases same : thread = .joiner
    · rw [same, ready]
      rfl
    · have both := WaitQueue.add_le_total (Place.due workers) system.places same
      rw [ready, Place.due] at both
      have covers : (system.places thread).popped ≤ (system.places thread).due workers := by
        cases system.places thread with
        | leaving item | looping item => cases item <;> exact le_rfl
        | finished => exact le_rfl
        | _ => exact Nat.zero_le _
      omega

omit [DecidableEq κ] in
theorem Safe.ready_of_client (safe : system.Safe) {name : κ}
    (busy : system.places (.client name) ≠ .idle) : system.places .joiner = .ready := by
  by_contra started
  exact busy (safe.closed started name)

/-! The steps. -/

theorem Safe.lock (safe : system.Safe) (at_ : system.places thread = old) (here : system.Stands thread place)
    (locks : place.Locks) (inside : old ≠ .ready ∧ old ≠ .idle ∧ old ≠ .finished)
    (due : place.due workers = old.due workers) (held : ∀ task, place.held task = old.held task)
    (credit : old.credit ≤ place.credit) : (system.lock thread place).Safe := by
  cases owner : system.mutex_ with
  | some other => rwa [System.lock, owner]
  | none =>
      simp only [System.lock, owner]
      have owned := safe.owned
      rw [owner] at owned
      apply safe.goto at_ (owned.take locks) here inside due held (safe.covered_of_credit at_ _ credit)
      rintro rfl
      cases locks

theorem Safe.enter (safe : system.Safe) {errand : Errand τ} (at_ : system.places thread = .entering errand) :
    (system.lock thread (.pushing errand)).Safe := by
  have stands := safe.stands thread
  rw [at_] at stands
  refine safe.lock at_ ?_ trivial ⟨nofun, nofun, nofun⟩ ?_ ?_ le_rfl
  · refine ⟨?_, stands.pills, nofun, nofun, fun _ => False.elim⟩
    cases errand <;> exact stands.role
  · cases errand <;> rfl
  · cases errand <;> exact fun _ => rfl

theorem Safe.exit (safe : system.Safe) {errand : Errand τ} (at_ : system.places thread = .exiting errand) :
    ({ system with mutex_ := none }.goto thread (.notifying errand)).Safe := by
  have stands := safe.stands thread
  rw [at_] at stands
  refine safe.goto at_ (safe.owned.leave (by rw [at_]; trivial) id) ?_ ⟨nofun, nofun, nofun⟩ ?_ (fun _ => rfl)
    (safe.covered_of_credit at_ nofun le_rfl)
  · refine ⟨?_, stands.pills, nofun, nofun, fun _ => False.elim⟩
    cases errand <;> exact stands.role
  · cases errand <;> rfl

theorem Safe.test (safe : system.Safe) (at_ : system.places thread = .testing) :
    (system.goto thread (if system.buffer_.isEmpty then .sleeping else .popping)).Safe := by
  have stands := safe.stands thread
  rw [at_] at stands
  split
  next isEmpty =>
    have empty : system.buffer_ = [] := List.isEmpty_iff.mp isEmpty
    refine safe.goto at_ (safe.owned.keep (by rw [at_]; exact Iff.rfl))
      ⟨stands.role, stands.pills, nofun, fun _ => empty, fun _ => False.elim⟩ ⟨nofun, nofun, nofun⟩ rfl
      (fun _ => rfl) ?_
    rw [empty]
    exact fun _ => Nat.zero_le _
  next occupied =>
    have full : system.buffer_ ≠ [] := fun empty => occupied (List.isEmpty_iff.mpr empty)
    exact safe.goto at_ (safe.owned.keep (by rw [at_]; exact Iff.rfl))
      ⟨stands.role, stands.pills, fun _ => full, nofun, fun _ => False.elim⟩ ⟨nofun, nofun, nofun⟩ rfl
      (fun _ => rfl) (safe.covered_of_credit at_ nofun le_rfl)

theorem Safe.sleep (safe : system.Safe) (at_ : system.places thread = .sleeping) :
    ({ system with mutex_ := none }.goto thread .asleep).Safe := by
  have stands := safe.stands thread
  rw [at_] at stands
  refine safe.goto at_ (safe.owned.leave (by rw [at_]; trivial) id)
    ⟨stands.role, stands.pills, nofun, nofun, fun _ => False.elim⟩ ⟨nofun, nofun, nofun⟩ rfl (fun _ => rfl) ?_
  rw [stands.empty rfl]
  exact fun _ => Nat.zero_le _

theorem Safe.push (safe : system.Safe) {errand : Errand τ} (at_ : system.places thread = .pushing errand) :
    ({ system with buffer_ := system.buffer_ ++ [errand.item] }.goto thread (.exiting errand)).Safe := by
  have stands := safe.stands thread
  rw [at_] at stands
  have locks : (system.places thread).Locks := by
    rw [at_]
    trivial
  -- A task is pushed before any pill is.
  have first : ∀ task, errand = .submit task → system.places .joiner = .ready := by
    rintro task rfl
    obtain ⟨name, rfl⟩ := stands.role
    exact safe.ready_of_client (by rw [at_]; nofun)
  refine safe.move rfl (safe.owned.keep (by rw [at_]; exact Iff.rfl)) ?_ (fun _ _ => rfl) (Or.inr locks)
    (by rw [at_]; nofun) ?_ ?_ ?_ ?_ ?_ ?_
  · refine ⟨?_, stands.pills, nofun, nofun, fun _ => False.elim⟩
    cases errand <;> exact stands.role
  · exact safe.closed_of_inside at_ nofun nofun rfl
  · show (system.buffer_ ++ [errand.item]).Pairwise _
    rw [List.pairwise_append]
    refine ⟨safe.orderly, List.pairwise_singleton _ _, ?_⟩
    intro item member last lastMember pill
    rw [List.mem_singleton] at lastMember
    subst lastMember pill
    cases errand with
    | join rest => rfl
    | submit task => exact absurd member (safe.unpopped (first task rfl)).1
  · rintro item member (⟨other, popped⟩ | popped)
    · rcases List.mem_append.mp member with old | last
      · exact safe.drained other popped item old
      · rw [List.mem_singleton] at last
        cases errand with
        | join rest => exact last
        | submit task =>
            have nothing := (safe.unpopped (first task rfl)).2 other
            omega
    · cases popped
  · rw [at_]
    show (system.buffer_ ++ [errand.item]).count none + _ = _
    rw [List.count_append]
    cases errand with
    | join rest =>
        simp only [Errand.item, Place.due, List.count_singleton_self]
        omega
    | submit task => simp [Errand.item, Place.due]
  · intro task
    rw [at_]
    show system.submitted.count task + system.executed.count task + _ + system.buffer_.count (some task) =
      system.submitted.count task + system.executed.count task + _ +
        (system.buffer_ ++ [errand.item]).count (some task)
    rw [List.count_append]
    cases errand with
    | join rest => simp [Errand.item, Place.held]
    | submit other =>
        simp only [Errand.item, Place.held, List.count_singleton, beq_iff_eq, Option.some.injEq]
        omega
  · rintro ⟨index, asleep⟩
    have covered := safe.covered ⟨index, asleep_of_update (.exiting errand) nofun asleep⟩
    have moved := WaitQueue.total_update Place.credit system.places thread (.exiting errand)
    rw [at_] at moved
    simp only [Place.credit] at moved
    show (system.buffer_ ++ [errand.item]).length ≤
      WaitQueue.total Place.credit (Function.update system.places thread (.exiting errand))
    rw [List.length_append, List.length_singleton]
    omega

/-- A worker takes the first item. If it is a pill then only pills are left. -/
theorem Safe.pop (safe : system.Safe) (at_ : system.places thread = .popping) {item : Option τ}
    {rest : List (Option τ)} (buffer : system.buffer_ = item :: rest) :
    ({ system with
      buffer_ := rest
      pills := Function.update system.pills thread
        (system.pills thread + if item = none then 1 else 0) }.goto thread (.leaving item)).Safe := by
  have stands := safe.stands thread
  rw [at_] at stands
  have locks : (system.places thread).Locks := by
    rw [at_]
    trivial
  have orderly := safe.orderly
  rw [buffer, List.pairwise_cons] at orderly
  refine safe.move rfl (safe.owned.keep (by rw [at_]; exact Iff.rfl)) ?_ ?_ (Or.inr locks)
    (by rw [at_]; nofun) (safe.closed_of_inside at_ nofun nofun rfl) orderly.2 ?_ ?_ ?_ ?_
  · refine ⟨?_, ?_, nofun, nofun, fun _ => False.elim⟩
    · cases item <;> exact stands.role
    · refine (Function.update_self _ _ _).trans ?_
      rw [stands.pills]
      cases item <;> rfl
  · exact fun other different => Function.update_of_ne different _ _
  · rintro later member (⟨other, popped⟩ | popped)
    · exact safe.drained other popped later (buffer ▸ List.mem_cons_of_mem _ member)
    · cases item with
      | none => exact orderly.1 later member rfl
      | some task => cases popped
  · rw [at_, buffer, List.count_cons]
    show rest.count none + _ = _
    cases item <;> simp [Place.due]
  · intro task
    rw [at_, buffer, List.count_cons]
    show system.submitted.count task + system.executed.count task + _ + _ =
      system.submitted.count task + system.executed.count task + _ + rest.count (some task)
    cases item with
    | none => simp [Place.held]
    | some other =>
        simp only [Place.held, beq_iff_eq, Option.some.injEq]
        omega
  · rintro ⟨index, asleep⟩
    have covered := safe.covered ⟨index, asleep_of_update (.leaving item) nofun asleep⟩
    have moved := WaitQueue.total_update Place.credit system.places thread (.leaving item)
    rw [at_] at moved
    rw [buffer, List.length_cons] at covered
    simp only [Place.credit] at moved
    show rest.length ≤ WaitQueue.total Place.credit (Function.update system.places thread (.leaving item))
    split_ifs at moved <;> omega

theorem Safe.leave (safe : system.Safe) {item : Option τ} (at_ : system.places thread = .leaving item) :
    ({ system with mutex_ := none }.goto thread (.looping item)).Safe := by
  have stands := safe.stands thread
  rw [at_] at stands
  refine safe.goto at_ (safe.owned.leave (by rw [at_]; trivial) id) ?_ ⟨nofun, nofun, nofun⟩ ?_ ?_
    (safe.covered_of_credit at_ nofun le_rfl)
  · refine ⟨?_, ?_, nofun, nofun, fun _ => False.elim⟩
    · cases item <;> exact stands.role
    · rw [stands.pills]
      cases item <;> rfl
  · cases item <;> rfl
  · cases item <;> exact fun _ => rfl

theorem Safe.finish (safe : system.Safe) (at_ : system.places thread = .looping none) :
    (system.goto thread .finished).Safe := by
  have stands := safe.stands thread
  rw [at_] at stands
  exact safe.goto at_ (safe.owned.keep (by rw [at_]; exact Iff.rfl))
    ⟨stands.role, stands.pills, nofun, nofun, fun _ => False.elim⟩ ⟨nofun, nofun, nofun⟩ rfl (fun _ => rfl)
    (safe.covered_of_credit at_ nofun le_rfl)

theorem Safe.execute (safe : system.Safe) {task : τ} (at_ : system.places thread = .looping (some task)) :
    ({ system with executed := system.executed ++ [task] }.goto thread .locking).Safe := by
  have stands := safe.stands thread
  rw [at_] at stands
  refine safe.move rfl (safe.owned.keep (by rw [at_]; exact Iff.rfl))
    ⟨stands.role, stands.pills, nofun, nofun, fun _ => False.elim⟩ (fun _ _ => rfl) (Or.inl rfl)
    (by rw [at_]; nofun) (safe.closed_of_inside at_ nofun nofun rfl) safe.orderly ?_ ?_ ?_
    (safe.covered_of_credit at_ nofun le_rfl)
  · rintro item member (⟨other, popped⟩ | popped)
    · exact safe.drained other popped item member
    · cases popped
  · rw [at_]
    rfl
  · intro other
    rw [at_]
    show system.submitted.count other + system.executed.count other + _ + system.buffer_.count (some other) =
      system.submitted.count other + (system.executed ++ [task]).count other + _ +
        system.buffer_.count (some other)
    simp only [Place.held, List.count_append, List.count_singleton, beq_iff_eq]
    omega

theorem Safe.rouse (safe : system.Safe) (at_ : system.places thread = .asleep) :
    (system.goto thread .relocking).Safe := by
  have stands := safe.stands thread
  rw [at_] at stands
  exact safe.goto at_ (safe.owned.keep (by rw [at_]; exact Iff.rfl))
    ⟨stands.role, stands.pills, nofun, nofun, fun _ => False.elim⟩ ⟨nofun, nofun, nofun⟩ rfl (fun _ => rfl)
    (safe.covered_of_credit at_ nofun (Nat.zero_le _))

/-- A thread that has notified goes on, and leaves its credit to the worker that it woke. -/
theorem Safe.notified (safe : system.Safe) {errand : Errand τ} (at_ : system.places thread = .notifying errand)
    (slack : (∃ index : Fin workers, system.places (.worker index) = .asleep) →
      system.buffer_.length + 1 ≤ WaitQueue.total Place.credit system.places) :
    (system.goto thread errand.after).Safe := by
  have stands := safe.stands thread
  rw [at_] at stands
  have covered : ∀ {place : Place τ}, place ≠ .asleep →
      (∃ index : Fin workers, Function.update system.places thread place (.worker index) = .asleep) →
      system.buffer_.length ≤ WaitQueue.total Place.credit (Function.update system.places thread place) := by
    rintro place awake ⟨index, asleep⟩
    have enough := slack ⟨index, asleep_of_update place awake asleep⟩
    have moved := WaitQueue.total_update Place.credit system.places thread place
    rw [at_] at moved
    simp only [Place.credit] at moved
    omega
  match errand with
  | .submit task =>
      exact safe.goto at_ (safe.owned.keep (by rw [at_]; exact Iff.rfl))
        ⟨stands.role, stands.pills, nofun, nofun, fun _ => False.elim⟩ ⟨nofun, nofun, nofun⟩ rfl
        (fun _ => rfl) (covered nofun)
  | .join 0 =>
      exact safe.goto at_ (safe.owned.keep (by rw [at_]; exact Iff.rfl))
        ⟨stands.role, stands.pills, nofun, nofun, fun index before => absurd before (Nat.not_lt_zero index)⟩
        ⟨nofun, nofun, nofun⟩ rfl (fun _ => rfl) (covered nofun)
  | .join (rest + 1) =>
      exact safe.goto at_ (safe.owned.keep (by rw [at_]; exact Iff.rfl))
        ⟨stands.role, stands.pills, nofun, nofun, fun _ => False.elim⟩ ⟨nofun, nofun, nofun⟩ rfl
        (fun _ => rfl) (covered nofun)

theorem Safe.notifyOne (safe : system.Safe) {errand : Errand τ}
    (at_ : system.places thread = .notifying errand) (chosen : Fin workers) :
    (system.notifyOne thread errand chosen).Safe := by
  rw [System.notifyOne]
  split_ifs with asleep sleeping
  · have other : thread ≠ .worker chosen := by
      rintro rfl
      cases at_.symm.trans asleep
    refine (safe.rouse asleep).notified ((Function.update_of_ne other _ _).trans at_) fun _ => ?_
    have covered := safe.covered ⟨chosen, asleep⟩
    have moved := WaitQueue.total_update Place.credit system.places (.worker chosen) .relocking
    rw [asleep] at moved
    simp only [Place.credit] at moved
    show system.buffer_.length + 1 ≤
      WaitQueue.total Place.credit (Function.update system.places (.worker chosen) .relocking)
    omega
  · exact safe
  · exact safe.notified at_ fun some => absurd some sleeping

theorem Safe.waitFor (safe : system.Safe) {index : Nat} (at_ : system.places thread = .joining index)
    (inside : index < workers) (finished : system.places (.worker ⟨index, inside⟩) = .finished) :
    (system.goto thread (.joining (index + 1))).Safe := by
  have stands := safe.stands thread
  rw [at_] at stands
  refine safe.goto at_ (safe.owned.keep (by rw [at_]; exact Iff.rfl))
    ⟨stands.role, stands.pills, nofun, nofun, fun other before => ?_⟩ ⟨nofun, nofun, nofun⟩ rfl
    (fun _ => rfl) (safe.covered_of_credit at_ nofun le_rfl)
  rcases Nat.lt_succ_iff_lt_or_eq.mp before with earlier | same
  · exact stands.awaited other earlier
  · have here : other = ⟨index, inside⟩ := Fin.ext same
    rw [here, finished]

theorem Safe.ended (safe : system.Safe) {index : Nat} (at_ : system.places thread = .joining index)
    (outside : ¬ index < workers) : (system.goto thread .joined).Safe := by
  have stands := safe.stands thread
  rw [at_] at stands
  refine safe.goto at_ (safe.owned.keep (by rw [at_]; exact Iff.rfl))
    ⟨stands.role, stands.pills, nofun, nofun, fun other _ => ?_⟩ ⟨nofun, nofun, nofun⟩ rfl
    (fun _ => rfl) (safe.covered_of_credit at_ nofun le_rfl)
  exact stands.awaited other (other.isLt.trans_le (Nat.le_of_not_lt outside))

theorem act_safe (safe : system.Safe) (thread : Thread workers κ) (chosen : Fin workers) :
    ∃ next, system.act thread chosen = .ok next ∧ next.Safe := by
  have stands := safe.stands thread
  cases at_ : system.places thread with
  | idle | ready | asleep | finished | joined => exact ⟨system, by rw [act, at_], safe⟩
  | entering errand => exact ⟨_, by rw [act, at_], safe.enter at_⟩
  | pushing errand => exact ⟨_, by rw [act, at_], safe.push at_⟩
  | exiting errand => exact ⟨_, by rw [act, at_], safe.exit at_⟩
  | notifying errand => exact ⟨_, by rw [act, at_], safe.notifyOne at_ chosen⟩
  | joining index =>
      rw [act, at_]
      dsimp only
      split_ifs with inside finished
      · exact ⟨_, rfl, safe.waitFor at_ inside finished⟩
      · exact ⟨system, rfl, safe⟩
      · exact ⟨_, rfl, safe.ended at_ inside⟩
  | locking | relocking =>
      rw [at_] at stands
      refine ⟨_, by rw [act, at_], ?_⟩
      exact safe.lock at_ ⟨stands.role, stands.pills, nofun, nofun, fun _ => False.elim⟩ trivial
        ⟨nofun, nofun, nofun⟩ rfl (fun _ => rfl) le_rfl
  | testing => exact ⟨_, by rw [act, at_], safe.test at_⟩
  | sleeping => exact ⟨_, by rw [act, at_], safe.sleep at_⟩
  | popping =>
      rw [at_] at stands
      obtain ⟨item, rest, buffer⟩ := List.exists_cons_of_ne_nil (stands.full rfl)
      exact ⟨_, by rw [act, at_]; simp only [buffer], safe.pop at_ buffer⟩
  | leaving item => exact ⟨_, by rw [act, at_], safe.leave at_⟩
  | looping item =>
      cases item with
      | none => exact ⟨_, by rw [act, at_], safe.finish at_⟩
      | some task => exact ⟨_, by rw [act, at_], safe.execute at_⟩

theorem Safe.submit (safe : system.Safe) {name : κ} (task : τ) (idle : system.places (.client name) = .idle)
    (ready : system.places .joiner = .ready) :
    ({ system with submitted := system.submitted ++ [task] }.goto (.client name)
      (.entering (.submit task))).Safe := by
  have stands := safe.stands (.client name)
  rw [idle] at stands
  refine safe.move rfl (safe.owned.keep (by rw [idle]; exact Iff.rfl))
    ⟨stands.role, stands.pills, nofun, nofun, fun _ => False.elim⟩ (fun _ _ => rfl) (Or.inl rfl)
    (by rw [idle]; nofun) ?_ safe.orderly ?_ ?_ ?_
    (safe.covered_of_credit idle nofun le_rfl)
  · have other : (Thread.joiner : Thread workers κ) ≠ .client name := nofun
    intro started
    refine absurd ?_ started
    show Function.update system.places (.client name) (.entering (.submit task)) .joiner = .ready
    rw [Function.update_of_ne other, ready]
  · rintro item member (⟨other, popped⟩ | popped)
    · exact safe.drained other popped item member
    · cases popped
  · rw [idle]
    rfl
  · intro other
    rw [idle]
    show (system.submitted ++ [task]).count other + system.executed.count other + _ +
        system.buffer_.count (some other) =
      system.submitted.count other + system.executed.count other + _ + system.buffer_.count (some other)
    simp only [Place.held, List.count_append, List.count_singleton, beq_iff_eq]
    omega

theorem Safe.join (safe : system.Safe) (ready : system.places .joiner = .ready)
    (idle : ∀ name, system.places (.client name) = .idle) : (system.goto .joiner (.pills workers)).Safe := by
  have stands := safe.stands .joiner
  rw [ready] at stands
  have unpopped := (safe.unpopped ready).2
  have move : ∀ place : Place τ, system.Stands .joiner place → ¬ place.Locks → place ≠ .asleep →
      place.popped = 0 → place.due workers = workers → (∀ task, place.held task = 0) →
      (system.goto .joiner place).Safe := by
    intro place here unlocked awake none due held
    refine safe.move rfl (safe.owned.keep ?_) ⟨here.role, here.pills, here.full, here.empty, ?_⟩
      (fun _ _ => rfl) (Or.inl rfl) (by rw [ready]; nofun) ?_ safe.orderly ?_ ?_ ?_
      (safe.covered_of_credit ready awake (Nat.zero_le _))
    · rw [ready]
      exact iff_of_false unlocked id
    · intro index awaited
      have other : (Thread.worker index : Thread workers κ) ≠ .joiner := nofun
      show Function.update system.places .joiner place (.worker index) = .finished
      rw [Function.update_of_ne other]
      exact here.awaited index awaited
    · intro _ name
      have other : (Thread.client name : Thread workers κ) ≠ .joiner := nofun
      show Function.update system.places .joiner place (.client name) = .idle
      rw [Function.update_of_ne other]
      exact idle name
    · rintro item - (⟨other, popped⟩ | popped)
      · have nothing := unpopped other
        omega
      · omega
    · rw [ready, due]
      rfl
    · intro task
      rw [ready, held]
      rfl
  cases workers with
  | zero =>
      exact move (.joining 0) ⟨rfl, stands.pills, nofun, nofun, fun index => index.elim0⟩ id nofun rfl rfl
        (fun _ => rfl)
  | succ rest =>
      exact move (.entering (.join rest)) ⟨rfl, stands.pills, nofun, nofun, fun _ => False.elim⟩ id nofun rfl rfl
        (fun _ => rfl)

theorem step_safe (safe : system.Safe) (event : Event workers κ τ) :
    ∃ next, system.step event = .ok next ∧ next.Safe := by
  cases event with
  | submit name task =>
      rw [step]
      split_ifs with allowed
      · exact ⟨_, rfl, safe.submit task allowed.1 allowed.2⟩
      · exact ⟨system, rfl, safe⟩
  | join =>
      rw [step]
      split_ifs with allowed
      · exact ⟨_, rfl, safe.join allowed.1 allowed.2⟩
      · exact ⟨system, rfl, safe⟩
  | act thread chosen => exact act_safe safe thread chosen
  | spurious index =>
      rw [step]
      split_ifs with asleep
      · exact ⟨_, rfl, safe.rouse asleep⟩
      · exact ⟨system, rfl, safe⟩

/-! What the invariant says about the pool. -/

omit [DecidableEq κ] in
theorem Safe.pills_le (safe : system.Safe) (index : Fin workers) : system.pills (.worker index) ≤ 1 := by
  rw [(safe.stands _).pills]
  cases system.places (.worker index) with
  | leaving item | looping item => cases item <;> simp [Place.popped]
  | _ => simp [Place.popped]

omit [DecidableEq κ] in
/-- A task is never executed more often than it was submitted. -/
theorem Safe.executed_le (safe : system.Safe) (task : τ) :
    system.executed.count task ≤ system.submitted.count task := by
  have tasks := safe.tasks task
  omega

/-- All workers sleep beside an item, and nobody is about to notify one of them. -/
def Forgotten (system : System workers κ τ) : Prop :=
  (∀ index : Fin workers, system.places (.worker index) = .asleep) ∧ system.buffer_ ≠ [] ∧
    ∀ thread errand, system.places thread ≠ .exiting errand ∧ system.places thread ≠ .notifying errand

omit [DecidableEq κ] in
theorem Safe.not_forgotten [NeZero workers] (safe : system.Safe) : ¬ system.Forgotten := by
  rintro ⟨asleep, items, quiet⟩
  have nothing : ∀ thread, (system.places thread).credit = 0 := by
    intro thread
    have role := (safe.stands thread).role
    cases at_ : system.places thread with
    | exiting errand => exact absurd at_ (quiet thread errand).1
    | notifying errand => exact absurd at_ (quiet thread errand).2
    | locking | testing | relocking | popping | leaving item | looping item =>
        rw [at_] at role
        obtain ⟨index, rfl⟩ : ∃ index, thread = .worker index := role
        cases at_.symm.trans (asleep index)
    | _ => rfl
  have covered := safe.covered ⟨0, asleep 0⟩
  rw [WaitQueue.total, Finset.sum_eq_zero fun thread _ => nothing thread] at covered
  exact items (List.length_eq_zero_iff.mp (Nat.le_zero.mp covered))

omit [DecidableEq κ] in
/-- What is left to do once `join` has returned: nothing. -/
theorem Safe.all_executed [NeZero workers] (safe : system.Safe) (joined : system.places .joiner = .joined) :
    system.executed.Perm system.submitted ∧ ∀ index : Fin workers, system.pills (.worker index) = 1 := by
  have stands := safe.stands .joiner
  rw [joined] at stands
  have finished : ∀ index : Fin workers, system.places (.worker index) = .finished := fun index =>
    stands.awaited index trivial
  have idle := safe.closed (by rw [joined]; nofun)
  constructor
  · rw [List.perm_iff_count]
    intro task
    have held : ∀ thread, (system.places thread).held task = 0 := by
      rintro (index | _ | name)
      · rw [finished index]
        rfl
      · rw [joined]
        rfl
      · rw [idle name]
        rfl
    have gone : system.buffer_.count (some task) = 0 := by
      rw [List.count_eq_zero]
      intro member
      cases safe.drained (.worker 0) (by rw [finished 0]; rfl) _ member
    have tasks := safe.tasks task
    rw [WaitQueue.total, Finset.sum_eq_zero fun thread _ => held thread] at tasks
    omega
  · intro index
    rw [(safe.stands _).pills, finished index]
    rfl

omit [DecidableEq κ] in
/-- While `join` waits, some worker is awake or all have ended. -/
theorem Safe.not_stuck (safe : system.Safe) {position : Nat} (joining : system.places .joiner = .joining position) :
    (∃ index : Fin workers, system.places (.worker index) ≠ .asleep ∧ system.places (.worker index) ≠ .finished) ∨
      ∀ index : Fin workers, system.places (.worker index) = .finished := by
  by_contra! stuck
  obtain ⟨rest, sleeper, unfinished⟩ := stuck
  have either : ∀ index : Fin workers, system.places (.worker index) = .asleep ∨
      system.places (.worker index) = .finished := fun index => or_iff_not_imp_left.mpr (rest index)
  have asleep := (either sleeper).resolve_right unfinished
  have idle := safe.closed (by rw [joining]; nofun)
  have credit : ∀ thread, (system.places thread).credit = 0 := by
    rintro (index | _ | name)
    · rcases either index with slept | finished
      · rw [slept]
        rfl
      · rw [finished]
        rfl
    · rw [joining]
      rfl
    · rw [idle name]
      rfl
  have covered := safe.covered ⟨sleeper, asleep⟩
  rw [WaitQueue.total, Finset.sum_eq_zero fun thread _ => credit thread] at covered
  have empty : system.buffer_ = [] := List.length_eq_zero_iff.mp (Nat.le_zero.mp covered)
  have due := safe.due
  have fewer : WaitQueue.total (Place.due workers) system.places < workers := by
    rw [WaitQueue.total, Fintype.sum_sum_type, Fintype.sum_option]
    have callers : ∑ name : κ, (system.places (.inr (some name))).due workers = 0 :=
      Finset.sum_eq_zero fun name _ => by rw [idle name]; rfl
    have own : (system.places (.inr none)).due workers = 0 := by rw [joining]; rfl
    rw [callers, own, Nat.add_zero]
    calc ∑ index : Fin workers, (system.places (.inl index)).due workers
      _ < ∑ _index : Fin workers, 1 := by
          apply Finset.sum_lt_sum
          · intro index _
            rcases either index with slept | finished
            · rw [slept]
              exact Nat.zero_le _
            · rw [finished]
              exact le_rfl
          · exact ⟨sleeper, Finset.mem_univ _, by rw [asleep]; exact Nat.one_pos⟩
      _ = workers := by simp
  rw [empty, List.count_nil] at due
  omega

/-- **The pool executes every task once and ends.** In every interleaving of at least one worker,
no worker pops a second pill, no task is executed more often than it was submitted, the workers
do not sleep beside an item that nobody will tell them of, a waiting `join` is never stuck, and
when it returns every task has been executed and every worker has popped its pill. -/
theorem interleave_executes_all (schedule : List (Event (workers + 1) κ τ)) :
    ∃ system, interleave schedule = .ok system ∧
      (∀ index : Fin (workers + 1), system.pills (.worker index) ≤ 1) ∧
      (∀ task, system.executed.count task ≤ system.submitted.count task) ∧
      ¬ system.Forgotten ∧
      (∀ position, system.places .joiner = .joining position →
        (∃ index : Fin (workers + 1), system.places (.worker index) ≠ .asleep ∧
          system.places (.worker index) ≠ .finished) ∨
        ∀ index : Fin (workers + 1), system.places (.worker index) = .finished) ∧
      (system.places .joiner = .joined → system.executed.Perm system.submitted ∧
        ∀ index : Fin (workers + 1), system.pills (.worker index) = 1) := by
  obtain ⟨system, ran, safe⟩ := @run_invariant _ _ Fault step (fun _ _ => True) (fun _ system => Safe system)
    (fun _ system event safe _ => step_safe safe event) [] _ initial_safe schedule
    (Meets.of_forall _ (fun _ _ => trivial) _ _)
  exact ⟨system, ran, safe.pills_le, safe.executed_le, safe.not_forgotten, fun _ => safe.not_stuck,
    safe.all_executed⟩

end System

end Dsac.StaticThreadPool

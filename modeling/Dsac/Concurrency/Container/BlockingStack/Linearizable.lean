import Dsac.Concurrency.Container.BlockingStack
import Dsac.Concurrency.Lockfree.Stack.Lifo
import Dsac.Concurrency.Synchronization.Mutex.Places

namespace Dsac.BlockingStack

open Dsac.Library Dsac.Library.AtomicObject Dsac.LockFreeStack

/-! Under the mutex, the operations take effect one after the other. -/

variable {ι T : Type}

namespace Place

/-- Where the thread then stands towards the mutex. -/
def Fits (mutexPlace : Mutex.Place) : Place T → Prop
  | .outside => mutexPlace = .idle
  | .locking _ => Mutex.System.Locks mutexPlace
  | .moving | .popping _ => mutexPlace = .holding
  | .unlocking _ => Mutex.System.Unlocks mutexPlace

/-- Where the thread then stands towards the stack as an object: the operation takes effect
where it changes the container, or finds it empty. -/
def status : Place T → Status (Operation T) (Reply T)
  | .outside => .idle
  | .locking operation => .invoked operation
  | .moving | .popping _ => .invoked .pop
  | .unlocking reply => .decided reply

/-- What the thread knows of the container, and of the values that the object has. -/
def Shows (stack_ : List (Option T)) (values : List T) : Place T → Prop
  | .moving => values ≠ []
  | .popping value => ∃ rest, values = value :: rest ∧ stack_ = none :: rest.map some
  | _ => True

/-- The thread has moved the top value out of the container. -/
def Popping (place : Place T) : Prop := ∃ value, place = .popping value

theorem Shows.of_not_holding {mutexPlace : Mutex.Place} {place : Place T} (fits : place.Fits mutexPlace)
    (released : mutexPlace ≠ .holding) (stack_ : List (Option T)) (values : List T) :
    place.Shows stack_ values ∧ ¬ place.Popping := by
  cases place with
  | moving | popping _ => exact absurd fits released
  | outside | locking _ | unlocking _ => exact ⟨trivial, nofun⟩

end Place

namespace System

variable [DecidableEq ι]

/-- The invariant: the threads keep to the mutex, and what the object has is in the container. -/
structure Sound (system : System ι T) (order : List (ι × Operation T × Reply T)) (values : List T) : Prop where
  safe : system.mutex_.Safe
  fits : ∀ thread, (system.places thread).Fits (system.mutex_.places thread)
  shows : ∀ thread, (system.places thread).Shows system.stack_ values
  whole : (∀ thread, ¬ (system.places thread).Popping) → system.stack_ = values.map some
  reached : Reaches lifo [] system.history order values (fun thread => (system.places thread).status)

theorem initial_sound : Sound (initial : System ι T) [] [] where
  safe := Mutex.System.initial_safe
  fits _ := rfl
  shows _ := trivial
  whole _ := rfl
  reached := .start

variable {system : System ι T} {order : List (ι × Operation T × Reply T)} {values : List T} {thread : ι}
  {place : Place T}

@[simp] theorem goto_places_self : (system.goto thread place).places thread = place := Function.update_self _ _ _

theorem goto_places_of_ne {other : ι} (different : other ≠ thread) :
    (system.goto thread place).places other = system.places other := Function.update_of_ne different _ _

@[simp] theorem goto_mutex : (system.goto thread place).mutex_ = system.mutex_ := rfl

theorem goto_status (system : System ι T) (thread : ι) (place : Place T) :
    (fun other => ((system.goto thread place).places other).status) =
      Function.update (fun other => (system.places other).status) thread place.status := by
  funext other
  by_cases same : other = thread
  · subst same
    rw [goto_places_self, Function.update_self]
  · rw [goto_places_of_ne same, Function.update_of_ne same]

/-- The thread with the mutex is alone at the container. -/
theorem Sound.alone (sound : system.Sound order values) (holds : system.mutex_.places thread = .holding)
    {other : ι} (different : other ≠ thread) (stack_ : List (Option T)) (remaining : List T) :
    (system.places other).Shows stack_ remaining ∧ ¬ (system.places other).Popping := by
  refine Place.Shows.of_not_holding (sound.fits other) (fun held => different ?_) stack_ remaining
  exact sound.safe.unique other thread (by rw [held]; trivial) (by rw [holds]; trivial)

/-- A step of the thread that has the mutex. -/
theorem Sound.move (sound : system.Sound order values) (holds : system.mutex_.places thread = .holding)
    {stack_ : List (Option T)} {remaining : List T} {performed : List (ι × Operation T × Reply T)}
    (fits : place.Fits .holding) (shows_ : place.Shows stack_ remaining)
    (whole : ¬ place.Popping → stack_ = remaining.map some)
    (reached : Reaches lifo [] system.history performed remaining
      (Function.update (fun other => (system.places other).status) thread place.status)) :
    ({ system with stack_ := stack_ }.goto thread place).Sound performed remaining where
  safe := sound.safe
  fits other := by
    by_cases same : other = thread
    · subst same
      rw [goto_places_self]
      exact holds ▸ fits
    · rw [goto_places_of_ne same]
      exact sound.fits other
  shows other := by
    by_cases same : other = thread
    · subst same
      rw [goto_places_self]
      exact shows_
    · rw [goto_places_of_ne same]
      exact (sound.alone holds same stack_ remaining).1
  whole nobody := whole (by simpa only [goto_places_self] using nobody thread)
  reached := by
    rw [goto_status]
    exact reached

/-- A step of the mutex, after which every thread stands where it fits. -/
theorem Sound.lock (sound : system.Sound order values) {mutex_ : Mutex.System ι} (safe : mutex_.Safe)
    (fits : ∀ other, (system.places other).Fits (mutex_.places other)) :
    { system with mutex_ := mutex_ }.Sound order values :=
  { sound with safe := safe, fits := fits }

/-- A thread that is woken is still in front of its operation. -/
theorem Sound.fits_woken (sound : system.Sound order values) {mutexPlace : Mutex.Place}
    (woken : mutexPlace = system.mutex_.places thread ∨
      system.mutex_.places thread = .asleep ∧ mutexPlace = .taking) :
    (system.places thread).Fits mutexPlace := by
  have fits := sound.fits thread
  rcases woken with still | ⟨slept, taking⟩
  · rw [still]
    exact fits
  · rw [slept] at fits
    rw [taking]
    cases at_ : system.places thread with
    | locking operation => trivial
    | outside | moving | popping _ | unlocking _ =>
        rw [at_] at fits
        cases fits

/-- The step of a thread in `lock` or `unlock`. -/
theorem Sound.advance (sound : system.Sound order values) (chosen : List ι)
    (here : (system.places thread).Fits ((system.mutex_.act thread chosen).places thread)) :
    { system with mutex_ := system.mutex_.act thread chosen }.Sound order values := by
  refine sound.lock (Mutex.System.act_safe sound.safe thread chosen) fun other => ?_
  by_cases same : other = thread
  · subst same
    exact here
  · exact sound.fits_woken (Mutex.System.act_places_of_ne sound.safe same chosen)

/-- A call or a return, which leaves the container as it is. -/
theorem Sound.turn (sound : system.Sound order values) {mutex_ : Mutex.System ι}
    {history : List (Observed ι (Operation T) (Reply T))} (safe : mutex_.Safe)
    (others : ∀ other, other ≠ thread → mutex_.places other = system.mutex_.places other)
    (quiet : ¬ (system.places thread).Popping) (fits : place.Fits (mutex_.places thread))
    (shows_ : place.Shows system.stack_ values)
    (reached : Reaches lifo [] history order values
      (Function.update (fun other => (system.places other).status) thread place.status)) :
    ({ system with mutex_ := mutex_, history := history }.goto thread place).Sound order values where
  safe := safe
  fits other := by
    by_cases same : other = thread
    · subst same
      rw [goto_places_self]
      exact fits
    · rw [goto_places_of_ne same, goto_mutex, others other same]
      exact sound.fits other
  shows other := by
    by_cases same : other = thread
    · subst same
      rw [goto_places_self]
      exact shows_
    · rw [goto_places_of_ne same]
      exact sound.shows other
  whole nobody := sound.whole fun other => by
    by_cases same : other = thread
    · subst same
      exact quiet
    · simpa only [goto_places_of_ne same] using nobody other
  reached := by
    rw [goto_status]
    exact reached

/-- A thread in front of an operation takes the mutex or waits for it. -/
theorem Sound.locking (sound : system.Sound order values) {operation : Operation T} (chosen : List ι)
    (at_ : system.places thread = .locking operation) (waits : system.mutex_.places thread ≠ .holding) :
    { system with mutex_ := system.mutex_.act thread chosen }.Sound order values := by
  have fits := sound.fits thread
  refine sound.advance chosen ?_
  rw [at_] at fits ⊢
  exact Mutex.System.act_locks fits waits chosen

/-- A thread after an operation gives the mutex back. -/
theorem Sound.unlocking (sound : system.Sound order values) {reply : Reply T} (chosen : List ι)
    (at_ : system.places thread = .unlocking reply) :
    { system with mutex_ := system.mutex_.act thread chosen }.Sound order values := by
  have fits := sound.fits thread
  refine sound.advance chosen ?_
  rw [at_] at fits ⊢
  exact Mutex.System.act_unlocks fits chosen

/-- The container is whole while the thread with the mutex has moved nothing out. -/
theorem Sound.whole_of_holding (sound : system.Sound order values) (holds : system.mutex_.places thread = .holding)
    (here : ¬ (system.places thread).Popping) : system.stack_ = values.map some := by
  refine sound.whole fun other => ?_
  by_cases same : other = thread
  · subst same
    exact here
  · exact (sound.alone holds same [] []).2

/-- The first step under the mutex performs a push, and a pop that finds the stack empty. -/
theorem Sound.enter (sound : system.Sound order values) {operation : Operation T}
    (at_ : system.places thread = .locking operation) (holds : system.mutex_.places thread = .holding) :
    ∃ order values, (system.enter thread operation).Sound order values := by
  have whole := sound.whole_of_holding holds (by rw [at_]; nofun)
  have performs := sound.reached.perform thread operation (by rw [at_]; rfl)
  cases operation with
  | push value =>
      refine ⟨_, value :: values, sound.move holds trivial trivial (fun _ => ?_) performs⟩
      rw [whole, List.map_cons]
  | pop =>
      cases values with
      | nil =>
          have empty : system.stack_.isEmpty = true := by rw [whole]; rfl
          simp only [System.enter, empty, if_true]
          exact ⟨_, _, sound.move holds trivial trivial (fun _ => whole) performs⟩
      | cons value rest =>
          have full : system.stack_.isEmpty = false := by rw [whole]; rfl
          refine ⟨order, value :: rest, ?_⟩
          simp only [System.enter, full, Bool.false_eq_true, if_false]
          refine sound.move holds rfl (List.cons_ne_nil _ _) (fun _ => whole) ?_
          have invoked : (system.places thread).status = .invoked .pop := by rw [at_]; rfl
          rw [show (Place.moving : Place T).status = .invoked .pop from rfl, ← invoked, Function.update_eq_self]
          exact sound.reached

theorem act_sound (sound : system.Sound order values) (thread : ι) (chosen : List ι) :
    ∃ next, system.act thread chosen = .ok next ∧ ∃ order values, next.Sound order values := by
  have fits := sound.fits thread
  have shows_ := sound.shows thread
  cases at_ : system.places thread with
  | outside => exact ⟨system, by rw [act, at_], order, values, sound⟩
  | locking operation =>
      by_cases holds : system.mutex_.places thread = .holding
      · exact ⟨_, by simp only [act, at_, holds, if_true], sound.enter at_ holds⟩
      · exact ⟨_, by simp only [act, at_, holds, if_false], order, values, sound.locking chosen at_ holds⟩
  | moving =>
      rw [at_] at fits shows_
      have whole := sound.whole_of_holding fits (by rw [at_]; nofun)
      cases values with
      | nil => exact absurd rfl shows_
      | cons value rest =>
          rw [List.map_cons] at whole
          refine ⟨_, by simp only [act, at_, whole]; rfl, order, value :: rest, ?_⟩
          refine sound.move fits rfl ⟨rest, rfl, rfl⟩ (fun here => absurd ⟨value, rfl⟩ here) ?_
          have invoked : (system.places thread).status = .invoked .pop := by rw [at_]; rfl
          rw [show (Place.popping value).status = .invoked .pop from rfl, ← invoked, Function.update_eq_self]
          exact sound.reached
  | popping value =>
      rw [at_] at fits shows_
      obtain ⟨rest, has, contents⟩ := shows_
      have performs := sound.reached.perform thread .pop (by rw [at_]; rfl)
      subst has
      refine ⟨_, by simp only [act, at_, contents]; rfl, order ++ [(thread, .pop, .popped (some value))], rest, ?_⟩
      exact sound.move fits trivial trivial (fun _ => rfl) performs
  | unlocking reply =>
      by_cases idle : system.mutex_.places thread = .idle
      · refine ⟨_, by simp only [act, at_, idle, if_true]; rfl, order, values, ?_⟩
        have quiet : ¬ (system.places thread).Popping := by rw [at_]; nofun
        exact sound.turn sound.safe (fun _ _ => rfl) quiet idle trivial
          (sound.reached.respond thread reply (by rw [at_]; rfl))
      · exact ⟨_, by simp only [act, at_, idle, if_false], order, values, sound.unlocking chosen at_⟩

theorem step_sound (sound : system.Sound order values) (event : Event ι T) :
    ∃ next, system.step event = .ok next ∧ ∃ order values, next.Sound order values := by
  cases event with
  | act thread chosen => exact act_sound sound thread chosen
  | spurious thread =>
      refine ⟨_, rfl, order, values, sound.lock (Mutex.System.step_safe sound.safe _) fun other => ?_⟩
      exact sound.fits_woken (Mutex.System.spurious_places sound.safe thread other)
  | call thread operation =>
      cases at_ : system.places thread with
      | outside =>
          have idle : system.mutex_.places thread = .idle := by
            have fits := sound.fits thread
            rwa [at_] at fits
          have quiet : ¬ (system.places thread).Popping := by rw [at_]; nofun
          have called : system.mutex_.step (.call thread) = system.mutex_.goto thread .trying := if_pos idle
          have trying : (system.mutex_.step (.call thread)).places thread = .trying := by
            rw [called, Mutex.System.goto_places_self]
          refine ⟨_, by simp only [step, at_]; rfl, order, values, ?_⟩
          refine sound.turn (Mutex.System.step_safe sound.safe _) (fun other different => ?_) quiet ?_ trivial
            (sound.reached.invoke thread operation (by rw [at_]; rfl))
          · rw [called, Mutex.System.goto_places_of_ne different]
          · rw [trying]
            trivial
      | _ => exact ⟨system, by simp only [step, at_], order, values, sound⟩

/-- **The blocking stack is a stack.** In every interleaving of any number of threads, with any
wake-ups, no call reads an empty container or a value that was moved out, and the operations take
effect one after the other; while a thread sleeps for the mutex, another is awake in a call. -/
theorem interleave_blocks (schedule : List (Event ι T)) :
    ∃ system, interleave schedule = .ok system ∧ Linearizable lifo [] system.history ∧
      poppedValues system.history ≤ pushedValues system.history ∧
      ∀ sleeper, system.mutex_.places sleeper = .asleep →
        ∃ other, system.places other ≠ .outside ∧ (system.mutex_.places other).Active := by
  obtain ⟨system, ran, order, values, sound⟩ := @run_invariant _ _ _ step (fun _ _ => True)
    (fun _ system => ∃ order values, Sound system order values)
    (fun _ system event ⟨_, _, sound⟩ _ => step_sound sound event)
    [] _ ⟨[], [], initial_sound⟩ schedule (.of_forall step (fun _ _ => trivial) _ _)
  refine ⟨system, ran, ⟨order, values, _, sound.reached⟩, poppedValues_le sound.reached, fun sleeper slept => ?_⟩
  obtain ⟨other, active⟩ := sound.safe.exists_active sleeper slept
  refine ⟨other, fun outside => ?_, active⟩
  have fits := sound.fits other
  rw [outside] at fits
  rw [show system.mutex_.places other = .idle from fits] at active
  exact active

end System

end Dsac.BlockingStack

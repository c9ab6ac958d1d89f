import Dsac.Library.Monitor
import Dsac.Concurrency.Synchronization.Mvar

namespace Dsac.Mvar

open Dsac.Library

/-! Every value is handed over once and in order, and nobody sleeps through its turn. -/

variable {ι T : Type}

/-- The thread owns `mutex_`. -/
def Place.Locks : Place T → Prop
  | .testing _ | .sleeping _ | .acting _ | .notifying _ | .unlocking _ => True
  | .idle | .locking _ | .asleep _ | .relocking _ => False

@[simp] theorem Place.locks_notified (done : Done T) (place : Place T) :
    (place.notified done).Locks ↔ place.Locks := by
  cases place with
  | asleep call =>
      rw [notified]
      split <;> exact Iff.rfl
  | _ => exact Iff.rfl

@[simp] theorem Place.locks_roused (place : Place T) : place.roused.Locks ↔ place.Locks := by
  cases place <;> exact Iff.rfl

namespace System

/-- The values that went into `storage_` and out of it are those of completed calls. -/
def Settled (system : System ι T) : Prop :=
  system.stored = system.puts ∧ system.taken = system.takes

/-- The change that a call has made is the only one of a call that is not completed. -/
def Happened (system : System ι T) : Done T → Prop
  | .stored data => system.storage_ = some data ∧ system.stored = system.puts ++ [data] ∧
      system.taken = system.takes
  | .taken result => ∃ value, result = some value ∧ system.storage_ = none ∧
      system.stored = system.puts ∧ system.taken = system.takes ++ [value]

/-- A thread is about to notify. -/
def Notifies (system : System ι T) : Prop := ∃ thread done, system.places thread = .notifying done

/-- What the place of a thread says about the system. -/
def Stands (system : System ι T) : Place T → Prop
  | .idle | .locking _ | .relocking _ => True
  | .testing _ => system.Settled
  | .sleeping call => call.ready system.storage_ = false ∧ system.Settled
  | .asleep call => call.ready system.storage_ = true → system.Notifies
  | .acting call => call.ready system.storage_ = true ∧ system.Settled
  | .notifying done | .unlocking done => system.Happened done

/-- A thread sleeps although its predicate holds, and no thread is awake inside `put` or `take`. -/
def Forgotten (system : System ι T) : Prop :=
  (∃ thread call, system.places thread = .asleep call ∧ call.ready system.storage_ = true) ∧
    ∀ thread, system.places thread = .idle ∨ ∃ call, system.places thread = .asleep call

structure Safe (system : System ι T) : Prop where
  owned : Monitor.Owned Place.Locks system.places system.mutex_
  stands : ∀ thread, system.Stands (system.places thread)
  free : system.mutex_ = none → system.Settled
  contents : system.stored = system.taken ++ system.storage_.toList

variable {system next : System ι T} {thread : ι} {place : Place T}

theorem initial_safe [DecidableEq ι] (storage : Option T) : Safe (initial storage : System ι T) where
  owned _ := ⟨False.elim, nofun⟩
  stands _ := trivial
  free _ := ⟨rfl, rfl⟩
  contents := rfl

theorem Safe.not_forgotten (safe : system.Safe) : ¬ system.Forgotten := by
  rintro ⟨⟨sleeper, call, asleep, ready⟩, rest⟩
  have stands := safe.stands sleeper
  rw [asleep] at stands
  obtain ⟨notifier, done, notifying⟩ := stands ready
  rcases rest notifier with idle | ⟨other, slept⟩
  · cases notifying.symm.trans idle
  · cases notifying.symm.trans slept

/-- The completed takes have returned the values of the completed puts in their order. -/
theorem Safe.handed (safe : system.Safe) :
    system.takes <+: system.puts ∧ system.puts.length ≤ system.takes.length + 1 := by
  have short : system.storage_.toList.length ≤ 1 := by
    cases system.storage_ <;> simp
  have contents := safe.contents
  have settled : system.Settled → system.takes <+: system.puts ∧
      system.puts.length ≤ system.takes.length + 1 := by
    rintro ⟨stored, taken⟩
    rw [← stored, ← taken, contents, List.length_append]
    exact ⟨List.prefix_append _ _, by omega⟩
  have happened : ∀ done, system.Happened done → system.takes <+: system.puts ∧
      system.puts.length ≤ system.takes.length + 1 := by
    rintro (data | result) happened
    · obtain ⟨storage, stored, taken⟩ := happened
      rw [storage, taken, stored] at contents
      have same : system.puts = system.takes := List.append_cancel_right contents
      rw [same]
      exact ⟨List.prefix_rfl, Nat.le_succ _⟩
    · obtain ⟨value, -, storage, stored, taken⟩ := happened
      rw [storage, taken, stored, Option.toList_none, List.append_nil] at contents
      rw [contents, List.length_append]
      exact ⟨List.prefix_append _ _, le_rfl⟩
  cases owner : system.mutex_ with
  | none => exact settled (safe.free owner)
  | some thread =>
      have locked := (safe.owned thread).mpr owner
      have stands := safe.stands thread
      cases at_ : system.places thread with
      | idle | locking call | asleep call | relocking call => rw [at_] at locked; cases locked
      | testing call => rw [at_] at stands; exact settled stands
      | sleeping call | acting call => rw [at_] at stands; exact settled stands.2
      | notifying done | unlocking done => rw [at_] at stands; exact happened done stands

/-- A thread without `mutex_` only asks that somebody notifies it if it sleeps for nothing. -/
theorem Stands.unlocked (unlocked : ¬ place.Locks)
    (notified : ∀ call, place = .asleep call → call.ready next.storage_ = true → next.Notifies) :
    next.Stands place := by
  cases place with
  | idle | locking call | relocking call => trivial
  | asleep call => exact notified call rfl
  | testing call | sleeping call | acting call | notifying done | unlocking done =>
      exact absurd trivial unlocked

theorem Stands.carry {mutex : Option ι} {places : ι → Place T}
    (notifies : system.Notifies → ({ system with mutex_ := mutex, places }).Notifies)
    (stands : system.Stands place) : ({ system with mutex_ := mutex, places }).Stands place := by
  cases place with
  | asleep call => exact fun ready => notifies (stands ready)
  | _ => exact stands

variable [DecidableEq ι]

theorem Notifies.update (notifies : system.Notifies)
    (places : next.places = Function.update system.places thread place)
    (quiet : ∀ done, system.places thread ≠ .notifying done) : next.Notifies := by
  obtain ⟨notifier, done, notifying⟩ := notifies
  refine ⟨notifier, done, ?_⟩
  rw [places, Function.update_of_ne, notifying]
  rintro rfl
  exact quiet done notifying

theorem stands_update (places : next.places = Function.update system.places thread place)
    (here : next.Stands place) (others : ∀ other, other ≠ thread → next.Stands (system.places other))
    (other : ι) : next.Stands (next.places other) := by
  by_cases same : other = thread
  · subst same
    rwa [places, Function.update_self]
  · rw [places, Function.update_of_ne same]
    exact others other same

/-- A thread moves on, and neither changes the storage nor has a notification to give. -/
theorem Safe.goto (safe : system.Safe) {mutex : Option ι}
    (owned : Monitor.Owned Place.Locks (Function.update system.places thread place) mutex)
    (quiet : ∀ done, system.places thread ≠ .notifying done) (here : system.Stands place)
    (free : mutex = none → system.Settled) : ({ system with mutex_ := mutex }.goto thread place).Safe := by
  have carried : ∀ {at_ : Place T}, system.Stands at_ →
      ({ system with mutex_ := mutex }.goto thread place).Stands at_ := fun stands =>
    Stands.carry (fun notifies => notifies.update rfl quiet) stands
  exact ⟨owned, stands_update rfl (carried here) fun other _ => carried (safe.stands other), free, safe.contents⟩

theorem Safe.lock (safe : system.Safe) (call : Call T)
    (quiet : ∀ done, system.places thread ≠ .notifying done) : (system.lock thread call).Safe := by
  cases owner : system.mutex_ with
  | some other => rwa [System.lock, owner]
  | none =>
      simp only [System.lock, owner]
      have owned := safe.owned
      rw [owner] at owned
      exact safe.goto (owned.take trivial) quiet (safe.free owner) nofun

theorem Safe.test (safe : system.Safe) {call : Call T} (at_ : system.places thread = .testing call) :
    (system.goto thread (if call.ready system.storage_ then .acting call else .sleeping call)).Safe := by
  have settled := safe.stands thread
  rw [at_] at settled
  have quiet : ∀ done, system.places thread ≠ .notifying done := by
    rw [at_]
    nofun
  split
  next ready => exact safe.goto (safe.owned.keep (by rw [at_]; exact Iff.rfl)) quiet ⟨ready, settled⟩ safe.free
  next waits =>
    rw [Bool.not_eq_true] at waits
    exact safe.goto (safe.owned.keep (by rw [at_]; exact Iff.rfl)) quiet ⟨waits, settled⟩ safe.free

theorem Safe.sleep (safe : system.Safe) {call : Call T} (at_ : system.places thread = .sleeping call) :
    ({ system with mutex_ := none }.goto thread (.asleep call)).Safe := by
  have stands := safe.stands thread
  rw [at_] at stands
  obtain ⟨waits, settled⟩ := stands
  apply safe.goto (safe.owned.leave (by rw [at_]; trivial) id) (by rw [at_]; nofun) _ fun _ => settled
  intro ready
  cases waits.symm.trans ready

theorem Safe.spurious (safe : system.Safe) (thread : ι) :
    (system.goto thread (system.places thread).roused).Safe := by
  cases at_ : system.places thread with
  | asleep call =>
      exact safe.goto (safe.owned.keep (by rw [at_]; exact Iff.rfl)) (by rw [at_]; nofun) trivial safe.free
  | _ =>
      have same : system.goto thread (system.places thread) = system := by
        rw [System.goto, Function.update_eq_self]
      rw [at_] at same
      exact (congrArg Safe same).mpr safe

/-- A thread changes the storage: whoever sleeps meanwhile will be notified. -/
theorem Safe.change (safe : system.Safe) {call : Call T} (done : Done T)
    (at_ : system.places thread = .acting call)
    (places : next.places = Function.update system.places thread (.notifying done))
    (mutex : next.mutex_ = system.mutex_) (happened : next.Happened done)
    (contents : next.stored = next.taken ++ next.storage_.toList) : next.Safe := by
  have locked : (system.places thread).Locks := by
    rw [at_]
    trivial
  have notifies : next.Notifies := ⟨thread, done, by rw [places, Function.update_self]⟩
  refine ⟨?_, stands_update places happened ?_, ?_, contents⟩
  · rw [places, mutex]
    exact safe.owned.keep (by rw [at_]; exact Iff.rfl)
  · intro other different
    apply Stands.unlocked
    · exact fun otherLocked => different (safe.owned.unique otherLocked locked)
    · exact fun _ _ _ => notifies
  · intro free
    rw [mutex, (safe.owned thread).mp locked] at free
    cases free

/-- The notification leaves asleep only those that the change does not concern. -/
theorem Safe.notify (safe : system.Safe) {done : Done T} (at_ : system.places thread = .notifying done) :
    ({ system with places := fun other => (system.places other).notified done }.goto thread
      (.unlocking done)).Safe := by
  have locked : (system.places thread).Locks := by
    rw [at_]
    trivial
  have happened := safe.stands thread
  rw [at_] at happened
  have concerned : ∀ call, call.ready system.storage_ = true → done.notifies call = true := by
    intro call ready
    cases done with
    | stored data =>
        rw [happened.1] at ready
        cases call with
        | put other => cases ready
        | take => rfl
    | taken result =>
        obtain ⟨value, -, storage, -⟩ := happened
        rw [storage] at ready
        cases call with
        | put other => rfl
        | take => cases ready
  refine ⟨?_, ?_, ?_, safe.contents⟩
  · apply Monitor.Owned.keep
    · exact safe.owned.map fun other => Place.locks_notified done _
    · show _ ↔ ((system.places thread).notified done).Locks
      rw [Place.locks_notified, at_]
      exact Iff.rfl
  · apply @stands_update _ _ { system with places := fun other => (system.places other).notified done } _ thread _ _ rfl
    · exact happened
    · intro other different
      apply Stands.unlocked
      · rw [Place.locks_notified]
        exact fun otherLocked => different (safe.owned.unique otherLocked locked)
      · intro call asleep ready
        have notified := concerned call ready
        cases from_ : system.places other with
        | asleep before =>
            simp only [from_, Place.notified] at asleep
            split at asleep
            · cases asleep
            · cases asleep
              contradiction
        | _ => simp only [from_, Place.notified, reduceCtorEq] at asleep
  · intro free
    have owner := (safe.owned thread).mp locked
    rw [show system.mutex_ = none from free] at owner
    cases owner

/-- The call is completed. -/
theorem Safe.unlock (safe : system.Safe) {done : Done T} (at_ : system.places thread = .unlocking done)
    (places : next.places = Function.update system.places thread .idle)
    (mutex : next.mutex_ = none) (storage : next.storage_ = system.storage_)
    (settled : next.Settled) (contents : next.stored = next.taken ++ next.storage_.toList) : next.Safe := by
  have locked : (system.places thread).Locks := by
    rw [at_]
    trivial
  refine ⟨?_, stands_update places trivial ?_, fun _ => settled, contents⟩
  · rw [places, mutex]
    exact safe.owned.leave locked id
  · intro other different
    apply Stands.unlocked
    · exact fun otherLocked => different (safe.owned.unique otherLocked locked)
    · intro call asleep ready
      have stands := safe.stands other
      rw [asleep] at stands
      rw [storage] at ready
      exact (stands ready).update places (by rw [at_]; nofun)

theorem act_safe (safe : system.Safe) (thread : ι) :
    ∃ next, system.act thread = .ok next ∧ next.Safe := by
  have stands := safe.stands thread
  have contents := safe.contents
  cases at_ : system.places thread with
  | idle | asleep call => exact ⟨system, by rw [act, at_], safe⟩
  | locking call | relocking call =>
      exact ⟨_, by rw [act, at_], safe.lock call (by rw [at_]; nofun)⟩
  | testing call => exact ⟨_, by rw [act, at_], safe.test at_⟩
  | sleeping call => exact ⟨_, by rw [act, at_], safe.sleep at_⟩
  | notifying done => exact ⟨_, by rw [act, at_], safe.notify at_⟩
  | acting call =>
      rw [at_] at stands
      obtain ⟨ready, stored, taken⟩ := stands
      cases call with
      | put data =>
          refine ⟨_, by rw [act, at_], ?_⟩
          apply safe.change (.stored data) at_
          · rfl
          · rfl
          · exact ⟨rfl, congrArg (· ++ [data]) stored, taken⟩
          · have empty : system.storage_ = none := by simpa [Call.ready] using ready
            rw [empty, Option.toList_none, List.append_nil] at contents
            show system.stored ++ [data] = system.taken ++ [data]
            rw [contents]
      | take =>
          obtain ⟨value, storage⟩ := Option.isSome_iff_exists.mp ready
          refine ⟨_, by rw [act, at_], ?_⟩
          apply safe.change (.taken system.storage_) at_
          · rfl
          · rfl
          · refine ⟨value, storage, rfl, stored, ?_⟩
            show system.taken ++ system.storage_.toList = system.takes ++ [value]
            rw [taken, storage, Option.toList_some]
          · show system.stored = system.taken ++ system.storage_.toList ++ []
            rw [contents, List.append_nil]
  | unlocking done =>
      rw [at_] at stands
      cases done with
      | stored data =>
          obtain ⟨-, stored, taken⟩ := stands
          refine ⟨_, by rw [act, at_], ?_⟩
          apply safe.unlock at_
          · rfl
          · rfl
          · rfl
          · exact ⟨stored, taken⟩
          · exact contents
      | taken result =>
          obtain ⟨value, rfl, -, stored, taken⟩ := stands
          refine ⟨_, by rw [act, at_], ?_⟩
          apply safe.unlock at_
          · rfl
          · rfl
          · rfl
          · exact ⟨stored, taken⟩
          · exact contents

theorem step_safe (safe : system.Safe) (event : Event ι T) :
    ∃ next, system.step event = .ok next ∧ next.Safe := by
  cases event with
  | call thread call =>
      refine ⟨_, rfl, ?_⟩
      split
      next idle =>
        have at_ : system.places thread = .idle := by
          cases at_ : system.places thread <;> simp_all
        exact safe.goto (safe.owned.keep (by rw [at_]; exact Iff.rfl)) (by rw [at_]; nofun) trivial safe.free
      next => exact safe
  | act thread => exact act_safe safe thread
  | spurious thread => exact ⟨_, rfl, safe.spurious thread⟩

/-- **Every value is handed over once, in order, and nobody is forgotten.** No interleaving of
puts and takes faults; every value that was stored is still there or was taken, a put never
meets a value that it would overwrite, and the completed takes have returned the values of
the completed puts, all but at most the last. -/
theorem interleave_hands_over (storage : Option T) (schedule : List (Event ι T)) :
    ∃ system, interleave storage schedule = .ok system ∧
      system.takes <+: system.puts ∧ system.puts.length ≤ system.takes.length + 1 ∧
      system.stored = system.taken ++ system.storage_.toList ∧
      (∀ thread data, system.places thread = .acting (.put data) → system.storage_ = none) ∧
      ¬ system.Forgotten := by
  obtain ⟨system, ran, safe⟩ := @run_invariant _ _ Fault step (fun _ _ => True) (fun _ system => Safe system)
    (fun _ system event safe _ => step_safe safe event) [] _ (initial_safe storage) schedule
    (Meets.of_forall _ (fun _ _ => trivial) _ _)
  refine ⟨system, ran, safe.handed.1, safe.handed.2, safe.contents, ?_, safe.not_forgotten⟩
  intro thread data acting
  have stands := safe.stands thread
  rw [acting] at stands
  simpa [Call.ready] using stands.1

end System

end Dsac.Mvar

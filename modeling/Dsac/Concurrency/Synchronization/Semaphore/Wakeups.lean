import Dsac.Concurrency.Synchronization.Semaphore

namespace Dsac.Semaphore

open Dsac.Library

/-! Which runs of the semaphore lose no wake-up. -/

variable {ι : Type}

theorem sizeRange_pos : 0 < sizeRange := Nat.two_pow_pos 64

/-- A decrement of `tokens_` takes one off, or wraps. -/
theorem decrement {tokens : Nat} (bounded : tokens < sizeRange) :
    (tokens + (sizeRange - 1)) % sizeRange + 1 = tokens ∨
      tokens = 0 ∧ (tokens + (sizeRange - 1)) % sizeRange + 1 = sizeRange := by
  have positive := sizeRange_pos
  by_cases zero : tokens = 0
  · right
    refine ⟨zero, ?_⟩
    rw [zero, Nat.zero_add, Nat.mod_eq_of_lt (Nat.sub_lt positive Nat.one_pos)]
    omega
  · left
    have shifted : tokens + (sizeRange - 1) = tokens - 1 + sizeRange := by omega
    rw [shifted, Nat.add_mod_right, Nat.mod_eq_of_lt (by omega)]
    omega

namespace Place

/-- The thread owns `mutex_`. -/
def Locks : Place → Prop
  | .testing | .sleeping | .taking | .unlocking => True
  | _ => False

/-- The thread will take a token or notify a sleeper before it sleeps or leaves. -/
def credit : Place → Nat
  | .locking | .testing | .relocking | .taking | .notifying => 1
  | .idle | .sleeping | .asleep | .unlocking | .increasing => 0

end Place

namespace System

/-- No thread has found `tokens_` at zero and is still to go to sleep. -/
def Undisturbed (system : System ι) : Prop :=
  match system.mutex_ with
  | none => True
  | some owner => system.places owner ≠ .sleeping

/-- The event is not an increment that a thread on its way to sleep would miss. -/
def Timely (system : System ι) : Event ι → Prop
  | .act thread _ => system.places thread = .increasing → system.Undisturbed
  | .acquire _ | .release _ | .spurious _ => True

instance (system : System ι) : Decidable system.Undisturbed := by
  unfold Undisturbed
  split <;> infer_instance

instance (system : System ι) (event : Event ι) : Decidable (system.Timely event) := by
  unfold Timely
  split <;> infer_instance

/-- A thread sleeps beside a token, and no thread is awake inside `acquire` or `release`. -/
def Forgotten (system : System ι) : Prop :=
  (∃ sleeper, system.places sleeper = .asleep) ∧ system.tokens_ ≠ 0 ∧
    ∀ thread, system.places thread = .idle ∨ system.places thread = .asleep

/-- What the place of one thread says about the rest. -/
structure Stands (system : System ι) (thread : ι) (place : Place) : Prop where
  owner : place.Locks ↔ system.mutex_ = some thread
  queued : place = .asleep ↔ thread ∈ system.sleepers
  empty : place = .sleeping → system.tokens_ = 0

/-- The invariant of the timely runs: while a thread sleeps, every token is spoken for, and
so is the range of `std::size_t` if an increment has wrapped the token that a thread takes. -/
structure Safe [Fintype ι] (system : System ι) : Prop where
  bounded : system.tokens_ < sizeRange
  stands : ∀ thread, system.Stands thread (system.places thread)
  covered : system.sleepers ≠ [] → system.tokens_ ≤ WaitQueue.total Place.credit system.places
  wrapped : system.sleepers ≠ [] → ∀ taker, system.places taker = .taking → system.tokens_ = 0 →
    sizeRange ≤ WaitQueue.total Place.credit system.places

theorem initial_safe [Fintype ι] {consumers : Nat} (bounded : consumers < sizeRange) :
    Safe (initial consumers : System ι) where
  bounded := bounded
  stands _ := ⟨⟨False.elim, nofun⟩, by simp [initial], nofun⟩
  covered sleeping := absurd rfl sleeping
  wrapped _ _ taking := nomatch taking

theorem Safe.locks_unique [Fintype ι] {system : System ι} (safe : system.Safe) {first second : ι}
    (one : (system.places first).Locks) (two : (system.places second).Locks) : first = second :=
  Option.some.inj (((safe.stands first).owner.mp one).symm.trans ((safe.stands second).owner.mp two))

/-- Where every token is spoken for, the thread that speaks for one is awake. -/
theorem Safe.not_forgotten [Fintype ι] {system : System ι} (safe : system.Safe) :
    ¬ system.Forgotten := by
  rintro ⟨⟨sleeper, slept⟩, token, rest⟩
  have covered := safe.covered (List.ne_nil_of_mem (((safe.stands sleeper).queued).mp slept))
  have nothing : WaitQueue.total Place.credit system.places = 0 :=
    Finset.sum_eq_zero fun thread _ => by
      rcases rest thread with idle | asleep
      · rw [idle, Place.credit]
      · rw [asleep, Place.credit]
  omega

section

variable {system : System ι} {thread : ι} {place : Place} [DecidableEq ι]

@[simp] theorem goto_places_self : (system.goto thread place).places thread = place :=
  Function.update_self _ _ _

theorem goto_places_of_ne {other : ι} (different : other ≠ thread) :
    (system.goto thread place).places other = system.places other :=
  Function.update_of_ne different _ _

theorem wake_places_of_mem {chosen : List ι} (wakes : thread ∈ WaitQueue.woken system.sleepers chosen) :
    (system.wake chosen).places thread = .relocking := WaitQueue.moved_of_mem wakes

theorem wake_places_of_not_mem {chosen : List ι}
    (stays : thread ∉ WaitQueue.woken system.sleepers chosen) :
    (system.wake chosen).places thread = system.places thread := WaitQueue.moved_of_not_mem stays

theorem taking_of_wake {chosen : List ι} {taker : ι}
    (taking : (system.wake chosen).places taker = .taking) : system.places taker = .taking := by
  by_cases woken : taker ∈ WaitQueue.woken system.sleepers chosen
  · cases (wake_places_of_mem woken).symm.trans taking
  · exact (wake_places_of_not_mem woken).symm.trans taking

theorem Stands.goto {next : System ι} (places : next.places = system.places)
    (others : ∀ other, other ≠ thread → next.Stands other (system.places other))
    (here : next.Stands thread place) (other : ι) :
    (next.goto thread place).Stands other ((next.goto thread place).places other) := by
  have same : ∀ {at_}, next.Stands other at_ → (next.goto thread place).Stands other at_ :=
    fun stands => ⟨stands.owner, stands.queued, stands.empty⟩
  by_cases moved : other = thread
  · subst moved
    rw [goto_places_self]
    exact same here
  · rw [goto_places_of_ne moved, places]
    exact same (others other moved)

/-- No thread takes a token while another one owns `mutex_`, or nobody does. -/
theorem not_taking_of_locks {next : System ι} (places : next.places = system.places)
    (alone : ∀ other, (system.places other).Locks → other = thread) (place : Place)
    (left : place ≠ .taking) (taker : ι) : (next.goto thread place).places taker ≠ .taking := by
  by_cases same : taker = thread
  · subst same
    rwa [goto_places_self]
  · rw [goto_places_of_ne same, places]
    exact fun taking => same (alone taker (by rw [taking]; trivial))

variable [Fintype ι]

theorem total_goto {next : System ι} (places : next.places = system.places) :
    WaitQueue.total Place.credit (next.goto thread place).places + (system.places thread).credit =
      WaitQueue.total Place.credit system.places + place.credit := by
  rw [← places]
  exact WaitQueue.total_update Place.credit next.places thread place

/-- A thread that moves on without `mutex_`, or keeps it to take a token. -/
theorem Safe.goto (safe : system.Safe) (locks : place.Locks ↔ (system.places thread).Locks)
    (before : system.places thread ≠ .asleep) (after : place ≠ .asleep ∧ place ≠ .sleeping)
    (full : place = .taking → system.tokens_ ≠ 0)
    (credit : (system.places thread).credit ≤ place.credit) : (system.goto thread place).Safe := by
  have awake : thread ∉ system.sleepers := fun queued => before ((safe.stands thread).queued.mpr queued)
  have counted : WaitQueue.total Place.credit (system.goto thread place).places +
      (system.places thread).credit = WaitQueue.total Place.credit system.places + place.credit :=
    total_goto rfl
  refine ⟨safe.bounded, Stands.goto rfl (fun other _ => safe.stands other) ?_,
    fun sleeping => ?_, fun sleeping taker taking zero => ?_⟩
  · exact ⟨locks.trans (safe.stands thread).owner, iff_of_false after.1 awake,
      fun slept => absurd slept after.2⟩
  · have covered := safe.covered sleeping
    show system.tokens_ ≤ _
    omega
  · by_cases same : taker = thread
    · subst same
      rw [goto_places_self] at taking
      exact absurd zero (full taking)
    · rw [goto_places_of_ne same] at taking
      have wrapped := safe.wrapped sleeping taker taking zero
      omega

/-- A thread finds no token and keeps `mutex_` to sleep. -/
theorem Safe.test (safe : system.Safe) (at_ : system.places thread = .testing)
    (zero : system.tokens_ = 0) : (system.goto thread .sleeping).Safe := by
  have stood := safe.stands thread
  rw [at_] at stood
  have alone : ∀ other, (system.places other).Locks → other = thread := fun other locks =>
    safe.locks_unique locks (by rw [at_]; trivial)
  have awake : thread ∉ system.sleepers := fun queued => nomatch stood.queued.mpr queued
  refine ⟨safe.bounded, Stands.goto rfl (fun other _ => safe.stands other) ?_, fun _ => ?_,
    fun _ taker taking => absurd taking (not_taking_of_locks rfl alone .sleeping nofun taker)⟩
  · exact ⟨stood.owner, iff_of_false nofun awake, fun _ => zero⟩
  · show system.tokens_ ≤ _
    omega

/-- A step that takes `mutex_` while nobody owns it. -/
theorem Safe.lock (safe : system.Safe) (credit : (system.places thread).credit = 1)
    (before : system.places thread ≠ .asleep) : (system.lock thread).Safe := by
  cases free : system.mutex_ with
  | some owner => rwa [System.lock, free]
  | none =>
      simp only [System.lock, free]
      have nobody : ∀ other, ¬ (system.places other).Locks := fun other locks => by
        cases free.symm.trans ((safe.stands other).owner.mp locks)
      have awake : thread ∉ system.sleepers := fun queued =>
        before ((safe.stands thread).queued.mpr queued)
      have counted : WaitQueue.total Place.credit
          ({ system with mutex_ := some thread }.goto thread .testing).places +
          (system.places thread).credit = WaitQueue.total Place.credit system.places + 1 :=
        total_goto rfl
      refine ⟨safe.bounded, Stands.goto rfl (fun other different => ?_) ?_, fun sleeping => ?_,
        fun _ taker taking => absurd taking
          (not_taking_of_locks rfl (fun other locks => absurd locks (nobody other)) .testing nofun taker)⟩
      · have stands := safe.stands other
        refine ⟨iff_of_false (nobody other) fun taken => ?_, stands.queued, stands.empty⟩
        exact different (Option.some.inj taken).symm
      · exact ⟨⟨fun _ => rfl, fun _ => trivial⟩, iff_of_false nofun awake, nofun⟩
      · have covered := safe.covered sleeping
        show system.tokens_ ≤ _
        omega

/-- A thread that has found no token gives `mutex_` back and sleeps. -/
theorem Safe.sleep (safe : system.Safe) (at_ : system.places thread = .sleeping) :
    ({ system with mutex_ := none, sleepers := system.sleepers ++ [thread] }.goto thread
      .asleep).Safe := by
  have zero := (safe.stands thread).empty at_
  have alone : ∀ other, (system.places other).Locks → other = thread := fun other locks =>
    safe.locks_unique locks (by rw [at_]; trivial)
  refine ⟨safe.bounded, Stands.goto rfl (fun other different => ?_) ?_, fun _ => ?_,
    fun _ taker taking => absurd taking (not_taking_of_locks rfl alone .asleep nofun taker)⟩
  · have stands := safe.stands other
    refine ⟨iff_of_false (fun locks => different (alone other locks)) nofun, ?_, stands.empty⟩
    rw [stands.queued]
    simp [different]
  · exact ⟨iff_of_false id nofun, by simp, nofun⟩
  · show system.tokens_ ≤ _
    omega

/-- A thread gives `mutex_` back on its way out. -/
theorem Safe.unlock (safe : system.Safe) (at_ : system.places thread = .unlocking) :
    ({ system with mutex_ := none }.goto thread .idle).Safe := by
  have alone : ∀ other, (system.places other).Locks → other = thread := fun other locks =>
    safe.locks_unique locks (by rw [at_]; trivial)
  have awake : thread ∉ system.sleepers := fun queued => by
    cases at_.symm.trans ((safe.stands thread).queued.mpr queued)
  have counted : WaitQueue.total Place.credit ({ system with mutex_ := none }.goto thread .idle).places +
      (system.places thread).credit = WaitQueue.total Place.credit system.places + 0 := total_goto rfl
  rw [at_, Place.credit] at counted
  refine ⟨safe.bounded, Stands.goto rfl (fun other different => ?_) ?_, fun sleeping => ?_,
    fun _ taker taking => absurd taking (not_taking_of_locks rfl alone .idle nofun taker)⟩
  · have stands := safe.stands other
    exact ⟨iff_of_false (fun locks => different (alone other locks)) nofun, stands.queued, stands.empty⟩
  · exact ⟨iff_of_false id nofun, iff_of_false nofun awake, nofun⟩
  · have covered := safe.covered sleeping
    show system.tokens_ ≤ _
    omega

/-- A thread that has found a token takes it. If an increment has wrapped it meanwhile, the
decrement wraps it back. -/
theorem Safe.take (safe : system.Safe) (at_ : system.places thread = .taking) {left : Nat}
    (token : left + 1 = system.tokens_ ∨ system.tokens_ = 0 ∧ left + 1 = sizeRange) :
    ({ system with tokens_ := left }.goto thread .unlocking).Safe := by
  have bounded := safe.bounded
  have alone : ∀ other, (system.places other).Locks → other = thread := fun other locks =>
    safe.locks_unique locks (by rw [at_]; trivial)
  have stood := safe.stands thread
  rw [at_] at stood
  have awake : thread ∉ system.sleepers := fun queued => nomatch stood.queued.mpr queued
  have counted : WaitQueue.total Place.credit
      ({ system with tokens_ := left }.goto thread .unlocking).places +
      (system.places thread).credit = WaitQueue.total Place.credit system.places + 0 := total_goto rfl
  rw [at_, Place.credit] at counted
  refine ⟨?_, Stands.goto rfl (fun other different => ?_) ?_, fun sleeping => ?_,
    fun _ taker taking => absurd taking (not_taking_of_locks rfl alone .unlocking nofun taker)⟩
  · show left < sizeRange
    omega
  · have stands := safe.stands other
    refine ⟨stands.owner, stands.queued, fun slept => ?_⟩
    exact absurd (alone other (by rw [slept]; trivial)) different
  · exact ⟨iff_of_true trivial (stood.owner.mp trivial), iff_of_false nofun awake, nofun⟩
  · show left ≤ _
    rcases token with token | ⟨zero, full⟩
    · have covered := safe.covered sleeping
      omega
    · have wrapped := safe.wrapped sleeping thread at_ zero
      omega

/-- A timely increment leaves no thread on its way to sleep behind. -/
theorem Safe.increase (safe : system.Safe) (at_ : system.places thread = .increasing)
    (undisturbed : system.Undisturbed) :
    ({ system with tokens_ := (system.tokens_ + 1) % sizeRange }.goto thread .notifying).Safe := by
  have bounded := safe.bounded
  have stood := safe.stands thread
  rw [at_] at stood
  have awake : thread ∉ system.sleepers := fun queued => nomatch stood.queued.mpr queued
  have counted : WaitQueue.total Place.credit
      ({ system with tokens_ := (system.tokens_ + 1) % sizeRange }.goto thread .notifying).places +
      (system.places thread).credit = WaitQueue.total Place.credit system.places + 1 := total_goto rfl
  rw [at_, Place.credit] at counted
  refine ⟨Nat.mod_lt _ sizeRange_pos, Stands.goto rfl (fun other _ => ?_) ?_, fun sleeping => ?_,
    fun sleeping taker _ wraps => ?_⟩
  · have stands := safe.stands other
    refine ⟨stands.owner, stands.queued, fun slept => absurd slept ?_⟩
    have owner := stands.owner.mp (by rw [slept]; trivial)
    simpa only [Undisturbed, owner] using undisturbed
  · exact ⟨iff_of_false id fun owns => stood.owner.mpr owns, iff_of_false nofun awake, nofun⟩
  · have covered := safe.covered sleeping
    have small := Nat.mod_le (system.tokens_ + 1) sizeRange
    show (system.tokens_ + 1) % sizeRange ≤ _
    omega
  · have covered := safe.covered sleeping
    have full : ¬ system.tokens_ + 1 < sizeRange := fun room => by
      cases (Nat.mod_eq_of_lt room).symm.trans wraps
    omega

/-- A sleeper that wakes up will look for a token. -/
theorem Safe.total_wake_lt (safe : system.Safe) {chosen : List ι}
    (wakes : WaitQueue.Wakes system.sleepers chosen) (sleeping : (system.wake chosen).sleepers ≠ []) :
    system.sleepers ≠ [] ∧ WaitQueue.total Place.credit system.places <
      WaitQueue.total Place.credit (system.wake chosen).places := by
  have queue : system.sleepers ≠ [] := fun none => sleeping (by rw [wake, none]; rfl)
  obtain ⟨sleeper, woken⟩ := wakes.exists_woken queue
  refine ⟨queue, WaitQueue.total_moved_lt _ (fun other member => ?_) woken⟩
  rw [(safe.stands other).queued.mpr (WaitQueue.mem_woken.mp member).1]
  exact Nat.zero_lt_one

theorem Safe.wake_stands (safe : system.Safe) (chosen : List ι) (other : ι) :
    (system.wake chosen).Stands other ((system.wake chosen).places other) := by
  have stands := safe.stands other
  by_cases woken : other ∈ WaitQueue.woken system.sleepers chosen
  · obtain ⟨queued, picked⟩ := WaitQueue.mem_woken.mp woken
    have loses : system.mutex_ ≠ some other := fun owns => by
      have locks := stands.owner.mpr owns
      rw [stands.queued.mpr queued] at locks
      exact locks
    rw [wake_places_of_mem woken]
    exact ⟨iff_of_false id loses,
      iff_of_false nofun fun still => (WaitQueue.mem_asleep.mp still).2 picked, nofun⟩
  · rw [wake_places_of_not_mem woken]
    refine ⟨stands.owner, stands.queued.trans ?_, stands.empty⟩
    show _ ↔ other ∈ WaitQueue.asleep system.sleepers chosen
    rw [WaitQueue.mem_asleep]
    exact ⟨fun queued => ⟨queued, fun picked => woken (WaitQueue.mem_woken.mpr ⟨queued, picked⟩)⟩,
      And.left⟩

/-- A sleeper wakes up by itself. -/
theorem Safe.spurious (safe : system.Safe) (slept : system.places thread = .asleep) :
    (system.wake [thread]).Safe := by
  have wakes : WaitQueue.Wakes system.sleepers [thread] := fun _ => List.ne_nil_of_mem
    (WaitQueue.mem_woken.mpr ⟨(safe.stands thread).queued.mp slept, List.mem_singleton_self thread⟩)
  refine ⟨safe.bounded, safe.wake_stands [thread], fun sleeping => ?_,
    fun sleeping taker taking zero => ?_⟩
  · obtain ⟨queue, more⟩ := safe.total_wake_lt wakes sleeping
    exact (safe.covered queue).trans (Nat.le_of_lt more)
  · obtain ⟨queue, more⟩ := safe.total_wake_lt wakes sleeping
    exact (safe.wrapped queue taker (taking_of_wake taking) zero).trans (Nat.le_of_lt more)

/-- The thread that notifies hands its credit to a sleeper. -/
theorem Safe.notify (safe : system.Safe) (at_ : system.places thread = .notifying) {chosen : List ι}
    (wakes : WaitQueue.Wakes system.sleepers chosen) :
    ((system.wake chosen).goto thread .idle).Safe := by
  have other : thread ∉ WaitQueue.woken system.sleepers chosen := fun woken => by
    cases at_.symm.trans ((safe.stands thread).queued.mpr (WaitQueue.mem_woken.mp woken).1)
  have still : (system.wake chosen).places thread = .notifying :=
    (wake_places_of_not_mem other).trans at_
  have stood := safe.wake_stands chosen thread
  rw [still] at stood
  have awake : thread ∉ (system.wake chosen).sleepers := fun queued => nomatch stood.queued.mpr queued
  have counted : WaitQueue.total Place.credit ((system.wake chosen).goto thread .idle).places +
      ((system.wake chosen).places thread).credit =
      WaitQueue.total Place.credit (system.wake chosen).places + 0 := total_goto rfl
  rw [still, Place.credit] at counted
  refine ⟨safe.bounded, Stands.goto rfl (fun other _ => safe.wake_stands chosen other) ?_,
    fun sleeping => ?_, fun sleeping taker taking zero => ?_⟩
  · exact ⟨iff_of_false id fun owns => stood.owner.mpr owns, iff_of_false nofun awake, nofun⟩
  · obtain ⟨queue, more⟩ := safe.total_wake_lt wakes sleeping
    have covered := safe.covered queue
    show system.tokens_ ≤ _
    omega
  · obtain ⟨queue, more⟩ := safe.total_wake_lt wakes sleeping
    have distinct : taker ≠ thread := fun same => by
      rw [same, goto_places_self] at taking
      cases taking
    rw [goto_places_of_ne distinct] at taking
    have wrapped := safe.wrapped queue taker (taking_of_wake taking) zero
    omega

theorem act_safe (safe : system.Safe) (thread : ι) (chosen : List ι)
    (timely : system.Timely (.act thread chosen)) : (system.act thread chosen).Safe := by
  cases at_ : system.places thread with
  | idle => rwa [act, at_]
  | asleep => rwa [act, at_]
  | locking =>
      simp only [act, at_]
      exact safe.lock (by rw [at_, Place.credit]) (by rw [at_]; nofun)
  | relocking =>
      simp only [act, at_]
      exact safe.lock (by rw [at_, Place.credit]) (by rw [at_]; nofun)
  | testing =>
      simp only [act, at_]
      by_cases zero : system.tokens_ = 0
      · rw [if_neg (not_not_intro zero)]
        exact safe.test at_ zero
      · rw [if_pos zero]
        exact safe.goto (by rw [at_]; exact Iff.rfl) (by rw [at_]; nofun) ⟨nofun, nofun⟩
          (fun _ => zero) (by rw [at_, Place.credit, Place.credit])
  | sleeping =>
      simp only [act, at_]
      exact safe.sleep at_
  | taking =>
      simp only [act, at_]
      exact safe.take at_ (decrement safe.bounded)
  | unlocking =>
      simp only [act, at_]
      exact safe.unlock at_
  | increasing =>
      simp only [act, at_]
      exact safe.increase at_ (timely at_)
  | notifying =>
      simp only [act, at_]
      split
      next wakes => exact safe.notify at_ wakes
      next => exact safe

/-- Every timely event keeps the invariant. -/
theorem step_safe (safe : system.Safe) (event : Event ι) (timely : system.Timely event) :
    (system.step event).Safe := by
  cases event with
  | acquire thread =>
      rw [step]
      split
      next idle =>
          exact safe.goto (by rw [idle]; exact Iff.rfl) (by rw [idle]; nofun) ⟨nofun, nofun⟩ nofun
            (by rw [idle, Place.credit]; exact Nat.zero_le _)
      next => exact safe
  | release thread =>
      rw [step]
      split
      next idle =>
          exact safe.goto (by rw [idle]; exact Iff.rfl) (by rw [idle]; nofun) ⟨nofun, nofun⟩ nofun
            (by rw [idle, Place.credit]; exact Nat.zero_le _)
      next => exact safe
  | act thread chosen => exact act_safe safe thread chosen timely
  | spurious thread =>
      rw [step]
      split
      next slept => exact safe.spurious slept
      next => exact safe

end

/-- The condition on a run of the semaphore. -/
def TimelyRun [DecidableEq ι] (consumers : Nat) (schedule : List (Event ι)) : Prop :=
  Meets (fun system event => .ok (ε := Fault) (step system event)) Timely (initial consumers) schedule

/-- **No wake-up is lost, unless one comes too early.** In a run in which no thread increments
`tokens_` while another has found it at zero and is still to go to sleep, no thread is left
asleep beside a token. -/
theorem interleave_forgets_nobody [DecidableEq ι] [Fintype ι] {consumers : Nat}
    (bounded : consumers < sizeRange) {schedule : List (Event ι)}
    (timely : TimelyRun consumers schedule) :
    ∃ system, interleave consumers schedule = .ok system ∧ ¬ system.Forgotten := by
  obtain ⟨system, ran, safe⟩ := @run_invariant _ _ Fault _ Timely (fun _ system => Safe system)
    (fun _ system event safe timely => ⟨system.step event, rfl, step_safe safe event timely⟩)
    [] _ (initial_safe bounded) schedule timely
  exact ⟨system, ran, safe.not_forgotten⟩

/-- A thread sleeps until another one releases a token to it. -/
theorem interleave_forgets_nobody_sole : ∃ system : System (Fin 2),
    interleave 0 [.acquire 0, .act 0 [], .act 0 [], .act 0 [], .release 1, .act 1 [], .act 1 [0],
      .act 0 [], .act 0 [], .act 0 [], .act 0 []] = .ok system ∧ ¬ system.Forgotten :=
  @interleave_forgets_nobody _ _ _ 0 sizeRange_pos _ (by unfold TimelyRun; decide +kernel)

/-- The token comes after the test and before the sleep, and the notification finds nobody. -/
theorem wakeup_is_lost : ∃ (schedule : List (Event (Fin 2))) (system : System (Fin 2)),
    interleave 0 schedule = .ok system ∧ system.Forgotten := by
  refine ⟨[.acquire 0, .act 0 [], .act 0 [], .release 1, .act 1 [], .act 1 [], .act 0 []], _, rfl,
    ⟨0, rfl⟩, ?_, ?_⟩
  · decide
  · decide

end System

end Dsac.Semaphore

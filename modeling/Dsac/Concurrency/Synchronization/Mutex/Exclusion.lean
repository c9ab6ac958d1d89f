import Dsac.Concurrency.Synchronization.Mutex

namespace Dsac.Mutex

open Dsac.Library

/-! Mutual exclusion, and why no thread that sleeps in `FUTEX_WAIT` is forgotten. -/

variable {ι : Type}

namespace Place

/-- The thread is the one that the word counts as the holder. -/
def Owns : Place → Prop
  | .holding | .clearing => True
  | _ => False

/-- The thread will mark the word, take the mutex or wake a sleeper before it sleeps. -/
def Alert : Place → Prop
  | .looping _ | .waiting | .taking | .clearing | .waking => True
  | _ => False

/-- The thread is inside `lock`, past its first try, or inside `unlock`, or holds the mutex. -/
def Active : Place → Prop
  | .looping _ | .waiting | .taking | .holding | .clearing | .waking => True
  | _ => False

theorem Alert.active {place : Place} (alert : place.Alert) : place.Active := by
  cases place <;> trivial

theorem Owns.active {place : Place} (owns : place.Owns) : place.Active := by
  cases place <;> trivial

end Place

namespace System

/-- The invariant: the word is zero when nobody owns the mutex; while a thread sleeps the
word is two or another thread is alert. -/
structure Safe (system : System ι) : Prop where
  word : system.state_ = 0 ∨ system.state_ = 1 ∨ system.state_ = 2
  unique : ∀ first second, (system.places first).Owns → (system.places second).Owns → first = second
  free : system.state_ = 0 ↔ ∀ thread, ¬ (system.places thread).Owns
  queued : ∀ thread, system.places thread = .asleep ↔ thread ∈ system.sleepers
  heard : system.sleepers ≠ [] → system.state_ = 2 ∨ ∃ thread, (system.places thread).Alert

theorem initial_safe : Safe (initial : System ι) where
  word := Or.inl rfl
  unique _ _ owns := owns.elim
  free := ⟨fun _ _ => id, fun _ => rfl⟩
  queued _ := by simp [initial]
  heard sleeping := absurd rfl sleeping

variable {system : System ι}

/-- While a thread sleeps, another is awake inside `lock` or `unlock` or holds the mutex. -/
theorem Safe.exists_active (safe : system.Safe) (sleeper : ι)
    (slept : system.places sleeper = .asleep) : ∃ other, (system.places other).Active := by
  have sleeping := List.ne_nil_of_mem ((safe.queued sleeper).mp slept)
  rcases safe.heard sleeping with two | ⟨other, alert⟩
  · by_contra nobody
    have zero := safe.free.mpr fun other owns => nobody ⟨other, owns.active⟩
    omega
  · exact ⟨other, alert.active⟩

variable [DecidableEq ι] {thread : ι} {place : Place}

@[simp] theorem goto_places_self : (system.goto thread place).places thread = place :=
  Function.update_self _ _ _

theorem goto_places_of_ne {other : ι} (different : other ≠ thread) :
    (system.goto thread place).places other = system.places other :=
  Function.update_of_ne different _ _

@[simp] theorem goto_state : (system.goto thread place).state_ = system.state_ := rfl

@[simp] theorem goto_sleepers : (system.goto thread place).sleepers = system.sleepers := rfl

/-- The queue is right after a step that neither puts a thread to sleep nor wakes one. -/
theorem Safe.queued_goto (safe : system.Safe) {next : System ι} (places : next.places = system.places)
    (sleepers : next.sleepers = system.sleepers) (before : system.places thread ≠ .asleep)
    (after : place ≠ .asleep) (other : ι) :
    (next.goto thread place).places other = .asleep ↔ other ∈ (next.goto thread place).sleepers := by
  rw [goto_sleepers, sleepers, ← safe.queued other]
  by_cases same : other = thread
  · subst same
    rw [goto_places_self]
    exact ⟨fun slept => absurd slept after, fun slept => absurd slept before⟩
  · rw [goto_places_of_ne same, places]

/-- Whoever heard of the sleepers still does, if the thread that moves passes it on. -/
theorem Safe.heard_goto (safe : system.Safe) {next : System ι} (places : next.places = system.places)
    (sleepers : next.sleepers = system.sleepers)
    (alert : system.state_ = 2 ∨ (system.places thread).Alert → next.state_ = 2 ∨ place.Alert)
    (sleeping : (next.goto thread place).sleepers ≠ []) :
    (next.goto thread place).state_ = 2 ∨ ∃ other, ((next.goto thread place).places other).Alert := by
  rw [goto_sleepers, sleepers] at sleeping
  have here : next.state_ = 2 ∨ place.Alert →
      (next.goto thread place).state_ = 2 ∨ ∃ other, ((next.goto thread place).places other).Alert :=
    Or.imp_right fun still => ⟨thread, by rwa [goto_places_self]⟩
  rcases safe.heard sleeping with two | ⟨other, hears⟩
  · exact here (alert (Or.inl two))
  · by_cases same : other = thread
    · subst same
      exact here (alert (Or.inr hears))
    · exact Or.inr ⟨other, by rwa [goto_places_of_ne same, places]⟩

/-- A step after which the same threads own the mutex. -/
theorem Safe.goto_of_heard (safe : system.Safe) {next : System ι} (places : next.places = system.places)
    (sleepers : next.sleepers = system.sleepers)
    (word : next.state_ = 0 ∨ next.state_ = 1 ∨ next.state_ = 2)
    (zero : next.state_ = 0 ↔ system.state_ = 0) (owns : place.Owns ↔ (system.places thread).Owns)
    (before : system.places thread ≠ .asleep) (after : place ≠ .asleep)
    (heard : next.sleepers ≠ [] → next.state_ = 2 ∨
      ∃ other, ((next.goto thread place).places other).Alert) : (next.goto thread place).Safe := by
  have owner : ∀ other, ((next.goto thread place).places other).Owns ↔ (system.places other).Owns := by
    intro other
    by_cases same : other = thread
    · subst same
      rw [goto_places_self, owns]
    · rw [goto_places_of_ne same, places]
  refine ⟨word, fun first second one two => ?_, ?_, safe.queued_goto places sleepers before after,
    heard⟩
  · exact safe.unique first second ((owner first).mp one) ((owner second).mp two)
  · simp only [owner, goto_state, zero, safe.free]

/-- A step of a thread that passes on what it heard of the sleepers. -/
theorem Safe.goto (safe : system.Safe) {next : System ι} (places : next.places = system.places)
    (sleepers : next.sleepers = system.sleepers)
    (word : next.state_ = 0 ∨ next.state_ = 1 ∨ next.state_ = 2)
    (zero : next.state_ = 0 ↔ system.state_ = 0) (owns : place.Owns ↔ (system.places thread).Owns)
    (before : system.places thread ≠ .asleep) (after : place ≠ .asleep)
    (alert : system.state_ = 2 ∨ (system.places thread).Alert → next.state_ = 2 ∨ place.Alert) :
    (next.goto thread place).Safe :=
  safe.goto_of_heard places sleepers word zero owns before after
    (safe.heard_goto places sleepers alert)

/-- A thread finds the word at zero and takes the mutex. -/
theorem Safe.take (safe : system.Safe) {word : Int} (zero : system.state_ = 0)
    (before : system.places thread ≠ .asleep)
    (marks : word = 2 ∨ word = 1 ∧ ¬ (system.places thread).Alert) :
    ({ system with state_ := word }.goto thread .holding).Safe := by
  have nobody := safe.free.mp zero
  have owner : ∀ other, (({ system with state_ := word }.goto thread .holding).places other).Owns →
      other = thread := by
    intro other owns
    by_contra different
    rw [goto_places_of_ne different] at owns
    exact nobody other owns
  refine ⟨?_, ?_, ⟨?_, ?_⟩, safe.queued_goto rfl rfl before nofun, safe.heard_goto rfl rfl ?_⟩
  · exact Or.inr (marks.elim Or.inr fun one => Or.inl one.1)
  · exact fun first second one two => (owner first one).trans (owner second two).symm
  · rintro (rfl : word = 0)
    rcases marks with other | ⟨other, _⟩ <;> cases other
  · intro none
    refine absurd ?_ (none thread)
    rw [goto_places_self]
    trivial
  · intro alert
    rcases marks with two | ⟨_, deaf⟩
    · exact Or.inl two
    · rcases alert with two | hears
      · omega
      · exact absurd hears deaf

/-- The owner gives the mutex up; it is alert if a sleeper may have counted on it. -/
theorem Safe.release (safe : system.Safe) (owns : (system.places thread).Owns)
    (gone : ¬ place.Owns) (after : place ≠ .asleep)
    (alert : system.state_ = 2 ∨ (system.places thread).Alert → place.Alert) :
    ({ system with state_ := 0 }.goto thread place).Safe := by
  have before : system.places thread ≠ .asleep := fun slept => (slept ▸ owns).elim
  have nobody : ∀ other, ¬ (({ system with state_ := 0 }.goto thread place).places other).Owns := by
    intro other still
    by_cases same : other = thread
    · subst same
      rw [goto_places_self] at still
      exact gone still
    · rw [goto_places_of_ne same] at still
      exact same (safe.unique other thread still owns)
  refine ⟨Or.inl rfl, fun first _ still => absurd still (nobody first), ⟨fun _ => nobody, fun _ => rfl⟩,
    safe.queued_goto rfl rfl before after, safe.heard_goto rfl rfl fun heard => Or.inr (alert heard)⟩

/-- `FUTEX_WAIT` puts a thread to sleep only while the word is two. -/
theorem Safe.sleep (safe : system.Safe) (two : system.state_ = 2)
    (loses : ¬ (system.places thread).Owns) (before : system.places thread ≠ .asleep) :
    ({ system with sleepers := system.sleepers ++ [thread] }.goto thread .asleep).Safe := by
  have owner : ∀ other, (({ system with sleepers := system.sleepers ++ [thread] }.goto thread
      .asleep).places other).Owns ↔ (system.places other).Owns := by
    intro other
    by_cases same : other = thread
    · subst same
      rw [goto_places_self]
      exact ⟨False.elim, loses⟩
    · rw [goto_places_of_ne same]
  refine ⟨safe.word, fun first second one two => ?_, ?_, fun other => ?_, fun _ => Or.inl two⟩
  · exact safe.unique first second ((owner first).mp one) ((owner second).mp two)
  · simp only [owner, goto_state, safe.free]
  · rw [goto_sleepers, List.mem_append, List.mem_singleton]
    by_cases same : other = thread
    · subst same
      simp only [goto_places_self, or_true]
    · rw [goto_places_of_ne same, safe.queued other]
      simp [same]

theorem wake_places_of_mem {chosen : List ι} (wakes : thread ∈ WaitQueue.woken system.sleepers chosen) :
    (system.wake chosen).places thread = .taking := WaitQueue.moved_of_mem wakes

theorem wake_places_of_not_mem {chosen : List ι}
    (stays : thread ∉ WaitQueue.woken system.sleepers chosen) :
    (system.wake chosen).places thread = system.places thread := WaitQueue.moved_of_not_mem stays

/-- Sleepers that wake up are alert. -/
theorem Safe.wake (safe : system.Safe) {chosen : List ι}
    (wakes : WaitQueue.Wakes system.sleepers chosen) : (system.wake chosen).Safe := by
  have owner : ∀ other, ((system.wake chosen).places other).Owns ↔ (system.places other).Owns := by
    intro other
    by_cases woken : other ∈ WaitQueue.woken system.sleepers chosen
    · have slept := (safe.queued other).mpr (WaitQueue.mem_woken.mp woken).1
      rw [wake_places_of_mem woken, slept]
      exact Iff.rfl
    · rw [wake_places_of_not_mem woken]
  refine ⟨safe.word, fun first second one two => ?_, ?_, fun other => ?_, fun sleeping => Or.inr ?_⟩
  · exact safe.unique first second ((owner first).mp one) ((owner second).mp two)
  · exact safe.free.trans (forall_congr' fun other => not_congr (owner other).symm)
  · show _ ↔ other ∈ WaitQueue.asleep system.sleepers chosen
    rw [WaitQueue.mem_asleep]
    by_cases woken : other ∈ WaitQueue.woken system.sleepers chosen
    · rw [wake_places_of_mem woken]
      exact ⟨nofun, fun still => absurd (WaitQueue.mem_woken.mp woken).2 still.2⟩
    · rw [wake_places_of_not_mem woken, safe.queued other]
      exact ⟨fun queued => ⟨queued, fun picked => woken (WaitQueue.mem_woken.mpr ⟨queued, picked⟩)⟩,
        And.left⟩
  · have queue : system.sleepers ≠ [] := fun none => sleeping (by rw [System.wake, none]; rfl)
    obtain ⟨other, woken⟩ := wakes.exists_woken queue
    exact ⟨other, by rw [wake_places_of_mem woken]; trivial⟩

theorem act_safe (safe : system.Safe) (thread : ι) (chosen : List ι) :
    (system.act thread chosen).Safe := by
  have word := safe.word
  cases at_ : system.places thread with
  | idle => simpa only [act, at_] using safe
  | finished => simpa only [act, at_] using safe
  | asleep => simpa only [act, at_] using safe
  | trying =>
      simp only [act, at_, compareAndSet]
      by_cases zero : system.state_ = 0
      · simp only [zero, if_true, ne_eq, not_true_eq_false, if_false]
        exact safe.take zero (by rw [at_]; nofun) (Or.inr ⟨rfl, by rw [at_]; exact id⟩)
      · simp only [zero, if_false, ne_eq, not_false_eq_true, if_true]
        exact safe.goto rfl rfl word Iff.rfl (by rw [at_]; exact Iff.rfl) (by rw [at_]; nofun) nofun
          fun _ => Or.inr trivial
  | looping c =>
      have before : system.places thread ≠ .asleep := by rw [at_]; nofun
      have loses : ¬ (system.places thread).Owns := by rw [at_]; exact id
      by_cases two : c = 2
      · simp only [act, at_, two, if_true]
        exact safe.goto rfl rfl word Iff.rfl (by rw [at_]; exact Iff.rfl) before nofun
          fun _ => Or.inr trivial
      · have stepped : system.act thread chosen =
            { system with state_ := if system.state_ = 1 then 2 else system.state_ }.goto thread
              (if system.state_ ≠ 0 then .waiting else .taking) := by
          simp only [act, at_, two, if_false, compareAndSet]
          rfl
        have marked : (if system.state_ = 1 then (2 : Int) else system.state_) = 0 ↔
            system.state_ = 0 := by split <;> omega
        have legal : (if system.state_ = 1 then (2 : Int) else system.state_) = 0 ∨
            (if system.state_ = 1 then (2 : Int) else system.state_) = 1 ∨
            (if system.state_ = 1 then (2 : Int) else system.state_) = 2 := by split <;> omega
        have alert : (if system.state_ ≠ 0 then Place.waiting else .taking).Alert := by
          split <;> trivial
        rw [stepped]
        refine safe.goto rfl rfl legal marked ?_ before ?_ fun _ => Or.inr alert
        · rw [at_]
          split <;> exact Iff.rfl
        · split <;> nofun
  | waiting =>
      have before : system.places thread ≠ .asleep := by rw [at_]; nofun
      simp only [act, at_]
      by_cases two : system.state_ = 2
      · rw [if_pos two]
        exact safe.sleep two (by rw [at_]; exact id) before
      · rw [if_neg two]
        exact safe.goto rfl rfl word Iff.rfl (by rw [at_]; exact Iff.rfl) before nofun
          fun _ => Or.inr trivial
  | taking =>
      have before : system.places thread ≠ .asleep := by rw [at_]; nofun
      simp only [act, at_, compareAndSet]
      by_cases zero : system.state_ = 0
      · simp only [zero, if_true, ne_eq, not_true_eq_false, if_false]
        exact safe.take zero before (Or.inl rfl)
      · simp only [zero, if_false, ne_eq, not_false_eq_true, if_true]
        exact safe.goto rfl rfl word Iff.rfl (by rw [at_]; exact Iff.rfl) before nofun
          fun _ => Or.inr trivial
  | holding =>
      have owns : (system.places thread).Owns := by rw [at_]; trivial
      have locked : system.state_ ≠ 0 := fun zero => safe.free.mp zero thread owns
      simp only [act, at_]
      by_cases alone : system.state_ = 1
      · simp only [alone, ne_eq, not_true_eq_false, if_false, Int.sub_self]
        refine safe.release owns id nofun fun heard => ?_
        rcases heard with two | hears
        · omega
        · rw [at_] at hears
          exact hears.elim
      · rw [if_pos alone]
        refine safe.goto rfl rfl ?_ ?_ (by rw [at_]; exact Iff.rfl) (by rw [at_]; nofun) nofun
          fun _ => Or.inr trivial
        · show system.state_ - 1 = 0 ∨ system.state_ - 1 = 1 ∨ system.state_ - 1 = 2
          omega
        · show system.state_ - 1 = 0 ↔ system.state_ = 0
          omega
  | clearing =>
      simp only [act, at_]
      exact safe.release (by rw [at_]; trivial) id nofun fun _ => trivial
  | waking =>
      simp only [act, at_]
      split
      next wakes =>
          have other : thread ∉ WaitQueue.woken system.sleepers chosen := fun woken => by
            cases at_.symm.trans ((safe.queued thread).mpr (WaitQueue.mem_woken.mp woken).1)
          have still : (system.wake chosen).places thread = .waking :=
            (wake_places_of_not_mem other).trans at_
          refine (safe.wake wakes).goto_of_heard rfl rfl word Iff.rfl (by rw [still]; exact Iff.rfl)
            (by rw [still]; nofun) nofun fun sleeping => Or.inr ?_
          have queue : system.sleepers ≠ [] := fun none => sleeping (by rw [wake, none]; rfl)
          obtain ⟨sleeper, woken⟩ := wakes.exists_woken queue
          refine ⟨sleeper, ?_⟩
          rw [goto_places_of_ne (ne_of_mem_of_not_mem woken other), wake_places_of_mem woken]
          trivial
      next => exact safe

/-- Every event keeps the invariant. -/
theorem step_safe (safe : system.Safe) (event : Event ι) : (system.step event).Safe := by
  cases event with
  | call thread =>
      rw [step]
      split
      next idle =>
          exact safe.goto rfl rfl safe.word Iff.rfl (by rw [idle]; exact Iff.rfl) (by rw [idle]; nofun)
            nofun (Or.imp_right fun alert => by rw [idle] at alert; exact alert)
      next => exact safe
  | finish thread =>
      rw [step]
      split
      next idle =>
          exact safe.goto rfl rfl safe.word Iff.rfl (by rw [idle]; exact Iff.rfl) (by rw [idle]; nofun)
            nofun (Or.imp_right fun alert => by rw [idle] at alert; exact alert)
      next => exact safe
  | act thread chosen => exact act_safe safe thread chosen
  | spurious thread =>
      rw [step]
      split
      next slept =>
          have queued := (safe.queued thread).mp slept
          exact safe.wake fun _ => List.ne_nil_of_mem
            (WaitQueue.mem_woken.mpr ⟨queued, List.mem_singleton_self thread⟩)
      next => exact safe

theorem interleave_safe (schedule : List (Event ι)) : (interleave schedule : System ι).Safe :=
  List.foldlRecOn schedule step initial_safe fun _ safe event _ => step_safe safe event

/-- **The mutex excludes, and wakes.** In every interleaving of any number of threads that
lock and unlock, at most one thread holds the mutex, and while a thread sleeps in
`FUTEX_WAIT` another one holds the mutex or is awake inside `lock` or `unlock`; so the
unfinished threads are never all asleep. -/
theorem interleave_excludes (schedule : List (Event ι)) :
    (∀ first second, (interleave schedule).places first = .holding →
        (interleave schedule).places second = .holding → first = second) ∧
      (∀ sleeper, (interleave schedule).places sleeper = .asleep →
        ∃ other, ((interleave schedule).places other).Active) ∧
      ¬ ((∃ sleeper, (interleave schedule).places sleeper = .asleep) ∧
        ∀ thread, (interleave schedule).places thread ≠ .finished →
          (interleave schedule).places thread = .asleep) := by
  have safe := interleave_safe schedule
  have heard : ∀ sleeper, (interleave schedule).places sleeper = .asleep →
      ∃ other, ((interleave schedule).places other).Active := safe.exists_active
  refine ⟨fun first second one two => safe.unique first second (by rw [one]; trivial)
    (by rw [two]; trivial), heard, ?_⟩
  rintro ⟨⟨sleeper, slept⟩, stuck⟩
  obtain ⟨other, active⟩ := heard sleeper slept
  by_cases finished : (interleave schedule).places other = .finished
  · rw [finished] at active
    exact active
  · rw [stuck other finished] at active
    exact active

end System

end Dsac.Mutex

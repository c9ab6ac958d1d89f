import Dsac.Concurrency.Synchronization.Barrier

namespace Dsac.Barrier

/-! The phases of the barrier: threads are never more than one phase apart. -/

variable {ι : Type}

/-- The mode of the barrier in a phase; the first phase is 0. -/
def modeOf : Nat → Mode
  | 0 => .blocking
  | phase + 1 =>
      match modeOf phase with
      | .blocking => .unblocking
      | .unblocking => .blocking

theorem modeOf_succ_ne (phase : Nat) : modeOf phase ≠ modeOf (phase + 1) := by
  rw [modeOf]
  cases modeOf phase <;> nofun

namespace Place

/-- The thread owns `mutex_`. -/
def Locks : Place → Prop
  | .arriving | .notifying | .testing _ | .sleeping _ | .unlocking => True
  | .idle | .locking | .asleep _ | .relocking _ => False

/-- What the place of a thread says in a phase about the calls that it has entered, been
counted in, and returned from. -/
def Agrees (phase : Nat) : Place → Nat → Nat → Nat → Prop
  | .idle, entered, arrived, returned => entered = phase ∧ arrived = phase ∧ returned = phase
  | .locking, entered, arrived, returned | .arriving, entered, arrived, returned =>
      entered = phase + 1 ∧ arrived = phase ∧ returned = phase
  | .notifying, entered, arrived, returned | .unlocking, entered, arrived, returned =>
      entered = phase ∧ arrived = phase ∧ returned + 1 = phase
  | .testing awaited, entered, arrived, returned | .asleep awaited, entered, arrived, returned
  | .relocking awaited, entered, arrived, returned =>
      entered = arrived ∧ returned + 1 = arrived ∧ awaited = modeOf arrived ∧
        (arrived = phase ∨ arrived = phase + 1)
  | .sleeping awaited, entered, arrived, returned =>
      entered = arrived ∧ returned + 1 = arrived ∧ awaited = modeOf arrived ∧ arrived = phase + 1

variable {place : Place} {phase entered arrived returned : Nat}

/-- The threads that are not counted yet have entered no later call. -/
theorem Agrees.range (agrees : place.Agrees phase entered arrived returned) :
    arrived ≤ entered ∧ returned ≤ phase ∧ (arrived = phase ∨ arrived = phase + 1) := by
  cases place <;> simp only [Agrees] at agrees <;> omega

theorem Agrees.notified (agrees : place.Agrees phase entered arrived returned) :
    place.notified.Agrees phase entered arrived returned := by
  cases place <;> exact agrees

/-- A thread that is counted in the phase is one that waits for the next. -/
theorem Agrees.succ (agrees : place.Agrees phase entered arrived returned) (counted : arrived = phase + 1) :
    place.Agrees (phase + 1) entered arrived returned ∨ ∃ awaited, place = .sleeping awaited := by
  cases place with
  | sleeping awaited => exact .inr ⟨awaited, rfl⟩
  | idle | locking | arriving | notifying | unlocking =>
      simp only [Agrees] at agrees
      omega
  | testing awaited | asleep awaited | relocking awaited =>
      obtain ⟨same, inside, mode, _⟩ := agrees
      exact .inl ⟨same, inside, mode, .inl counted⟩

end Place

namespace System

variable [Fintype ι]

/-- The counter in a mode, when some of the threads are counted. -/
def remaining (size counted : Nat) : Mode → Nat
  | .blocking => size - counted
  | .unblocking => counted

/-- The number of threads that the barrier has counted in a phase. -/
def count (system : System ι) (phase : Nat) : Nat :=
  (Finset.univ.filter fun thread => system.arrived thread = phase + 1).card

/-- The invariant: the phase is not complete, and a thread that sleeps since the phase before
is about to be notified. -/
structure Safe (phase : Nat) (system : System ι) : Prop where
  size : system.size_awaited_threads_ = Fintype.card ι
  mode : system.state_ = modeOf phase
  current : system.current_awaited_threads_ = remaining (Fintype.card ι) (system.count phase) (modeOf phase)
  incomplete : system.count phase < Fintype.card ι
  owner : ∀ thread, (system.places thread).Locks ↔ system.mutex_ = some thread
  agrees : ∀ thread, (system.places thread).Agrees phase (system.entered thread) (system.arrived thread)
    (system.returned thread)
  noted : ∀ thread awaited, system.places thread = .asleep awaited → system.arrived thread = phase →
    ∃ other, system.places other = .notifying

variable {system : System ι} {phase : Nat} {thread : ι} {place : Place}

theorem count_le (system : System ι) (phase : Nat) : system.count phase ≤ Fintype.card ι :=
  Finset.card_le_univ _

theorem initial_safe [Nonempty ι] : Safe 0 (initial (Fintype.card ι) : System ι) where
  size := rfl
  mode := rfl
  current := by simp [initial, modeOf, count, remaining]
  incomplete := by simpa [initial, count] using Fintype.card_pos
  owner _ := ⟨False.elim, nofun⟩
  agrees _ := ⟨rfl, rfl, rfl⟩
  noted _ _ := nofun

/-! What the invariant says about the calls. -/

theorem Safe.returned_le (safe : system.Safe phase) (first second : ι) :
    system.returned first ≤ system.entered second := by
  have one := (safe.agrees first).range
  have two := (safe.agrees second).range
  omega

theorem Safe.current_le (safe : system.Safe phase) : system.current_awaited_threads_ ≤ Fintype.card ι := by
  have counted := system.count_le phase
  rw [safe.current]
  cases modeOf phase
  · exact Nat.sub_le _ _
  · exact counted

/-- Some thread is still to be counted, and if it sleeps then another one notifies. -/
theorem Safe.awake (safe : system.Safe phase) :
    ∃ thread, ∀ awaited, system.places thread ≠ .asleep awaited := by
  have missing : ∃ thread, system.arrived thread = phase := by
    by_contra nobody
    have full : system.count phase = Fintype.card ι := by
      rw [count, Finset.filter_true_of_mem, Finset.card_univ]
      intro thread _
      rcases (safe.agrees thread).range.2.2 with here | counted
      · exact absurd ⟨thread, here⟩ nobody
      · exact counted
    have incomplete := safe.incomplete
    omega
  obtain ⟨thread, here⟩ := missing
  by_cases asleep : ∃ awaited, system.places thread = .asleep awaited
  · obtain ⟨awaited, asleep⟩ := asleep
    obtain ⟨other, notifying⟩ := safe.noted thread awaited asleep here
    refine ⟨other, ?_⟩
    intro awaited asleep
    cases notifying.symm.trans asleep
  · refine ⟨thread, ?_⟩
    intro awaited slept
    exact asleep ⟨awaited, slept⟩

theorem Safe.locks_unique (safe : system.Safe phase) {first second : ι} (one : (system.places first).Locks)
    (two : (system.places second).Locks) : first = second :=
  Option.some.inj (((safe.owner first).mp one).symm.trans ((safe.owner second).mp two))

variable [DecidableEq ι]

/-! Who owns the lock after a thread has moved. -/

theorem Safe.owner_keep (safe : system.Safe phase) (same : place.Locks ↔ (system.places thread).Locks) (other : ι) :
    (Function.update system.places thread place other).Locks ↔ system.mutex_ = some other := by
  by_cases here : other = thread
  · subst here
    rw [Function.update_self, same]
    exact safe.owner other
  · rw [Function.update_of_ne here]
    exact safe.owner other

theorem Safe.owner_take (safe : system.Safe phase) (free : system.mutex_ = none) (locks : place.Locks) (other : ι) :
    (Function.update system.places thread place other).Locks ↔ some thread = some other := by
  by_cases here : other = thread
  · subst here
    rw [Function.update_self]
    exact iff_of_true locks rfl
  · rw [Function.update_of_ne here, safe.owner, free]
    apply iff_of_false
    · nofun
    · intro same
      exact here (Option.some.inj same).symm

theorem Safe.owner_leave (safe : system.Safe phase) (locked : (system.places thread).Locks) (leaves : ¬ place.Locks)
    (other : ι) : (Function.update system.places thread place other).Locks ↔ none = some other := by
  by_cases here : other = thread
  · subst here
    rw [Function.update_self]
    exact iff_of_false leaves nofun
  · rw [Function.update_of_ne here]
    apply iff_of_false
    · intro locks
      exact here (safe.locks_unique locks locked)
    · nofun

/-- A thread moves within the phase. -/
theorem Safe.move (safe : system.Safe phase) {next : System ι} (mutex : Option ι) (entered returned : ι → Nat)
    (moves : next = { system with
      mutex_ := mutex, places := Function.update system.places thread place, entered, returned })
    (owner : ∀ other, (Function.update system.places thread place other).Locks ↔ mutex = some other)
    (others : ∀ other ≠ thread, entered other = system.entered other ∧ returned other = system.returned other)
    (agrees : place.Agrees phase (entered thread) (system.arrived thread) (returned thread))
    (sleeps : ∀ awaited, place = .asleep awaited → system.arrived thread ≠ phase)
    (busy : system.places thread ≠ .notifying) : next.Safe phase := by
  subst moves
  refine ⟨safe.size, safe.mode, safe.current, safe.incomplete, owner, ?_, ?_⟩
  · intro other
    show (Function.update system.places thread place other).Agrees phase (entered other) (system.arrived other)
      (returned other)
    by_cases here : other = thread
    · subst here
      rw [Function.update_self]
      exact agrees
    · rw [Function.update_of_ne here, (others other here).1, (others other here).2]
      exact safe.agrees other
  · intro other awaited asleep late
    have asleep : Function.update system.places thread place other = .asleep awaited := asleep
    by_cases here : other = thread
    · subst here
      rw [Function.update_self] at asleep
      exact absurd late (sleeps awaited asleep)
    · rw [Function.update_of_ne here] at asleep
      obtain ⟨notifier, notifying⟩ := safe.noted other awaited asleep late
      have elsewhere : notifier ≠ thread := by
        rintro rfl
        exact busy notifying
      refine ⟨notifier, ?_⟩
      exact (Function.update_of_ne elsewhere _ _).trans notifying

theorem Safe.goto (safe : system.Safe phase) (mutex : Option ι)
    (owner : ∀ other, (Function.update system.places thread place other).Locks ↔ mutex = some other)
    (agrees : place.Agrees phase (system.entered thread) (system.arrived thread) (system.returned thread))
    (sleeps : ∀ awaited, place = .asleep awaited → system.arrived thread ≠ phase)
    (busy : system.places thread ≠ .notifying) :
    ({ system with mutex_ := mutex }.goto thread place).Safe phase :=
  safe.move _ _ _ rfl owner (fun _ _ => ⟨rfl, rfl⟩) agrees sleeps busy

theorem Safe.lock (safe : system.Safe phase) (locks : place.Locks)
    (agrees : place.Agrees phase (system.entered thread) (system.arrived thread) (system.returned thread))
    (busy : system.places thread ≠ .notifying) : (system.lock thread place).Safe phase := by
  cases free : system.mutex_ with
  | some owner => rwa [System.lock, free]
  | none =>
      simp only [System.lock, free]
      apply safe.goto _ (safe.owner_take free locks) agrees ?_ busy
      rintro awaited rfl
      cases locks

theorem Safe.call (safe : system.Safe phase) (idle : system.places thread = .idle) :
    ({ system with
      entered := Function.update system.entered thread (system.entered thread + 1) }.goto thread
        .locking).Safe phase := by
  have stands := safe.agrees thread
  rw [idle] at stands
  obtain ⟨entered, arrived, returned⟩ := stands
  refine safe.move system.mutex_ _ system.returned rfl
    (safe.owner_keep (by rw [idle]; exact Iff.rfl)) ?_ ⟨?_, arrived, returned⟩ nofun (by rw [idle]; nofun)
  · intro other here
    exact ⟨Function.update_of_ne here _ _, rfl⟩
  · exact (Function.update_self _ _ _).trans (congrArg Nat.succ entered)

theorem Safe.unlock (safe : system.Safe phase) (at_ : system.places thread = .unlocking) :
    ({ system with
      mutex_ := none
      returned := Function.update system.returned thread (system.returned thread + 1) }.goto thread
        .idle).Safe phase := by
  have stands := safe.agrees thread
  rw [at_] at stands
  obtain ⟨entered, arrived, returned⟩ := stands
  refine safe.move _ system.entered _ rfl
    (safe.owner_leave (by rw [at_]; trivial) (fun locks => locks)) ?_ ⟨entered, arrived, ?_⟩ nofun
    (by rw [at_]; nofun)
  · intro other here
    exact ⟨rfl, Function.update_of_ne here _ _⟩
  · exact (Function.update_self _ _ _).trans returned

/-- The predicate of `wait`. -/
theorem Safe.test (safe : system.Safe phase) {awaited : Mode} (at_ : system.places thread = .testing awaited) :
    (system.goto thread (if system.state_ = awaited then .unlocking else .sleeping awaited)).Safe phase := by
  have stands := safe.agrees thread
  rw [at_] at stands
  obtain ⟨entered, returned, mode, range⟩ := stands
  have busy : system.places thread ≠ .notifying := by
    rw [at_]
    nofun
  split
  next reached =>
    have late : system.arrived thread = phase := by
      rcases range with late | counted
      · exact late
      · rw [safe.mode, mode, counted] at reached
        exact absurd reached (modeOf_succ_ne phase)
    exact safe.goto _ (safe.owner_keep (by rw [at_]; exact Iff.rfl))
      ⟨entered.trans late, late, returned.trans late⟩ nofun busy
  next waits =>
    have counted : system.arrived thread = phase + 1 := by
      rcases range with late | counted
      · rw [safe.mode, mode, late] at waits
        exact absurd rfl waits
      · exact counted
    exact safe.goto _ (safe.owner_keep (by rw [at_]; exact Iff.rfl)) ⟨entered, returned, mode, counted⟩ nofun busy

theorem Safe.sleep (safe : system.Safe phase) {awaited : Mode} (at_ : system.places thread = .sleeping awaited) :
    ({ system with mutex_ := none }.goto thread (.asleep awaited)).Safe phase := by
  have stands := safe.agrees thread
  rw [at_] at stands
  obtain ⟨entered, returned, mode, counted⟩ := stands
  have leaves : ¬ (Place.asleep awaited).Locks := fun locks => locks
  apply safe.goto _ (safe.owner_leave (by rw [at_]; trivial) leaves)
  · exact ⟨entered, returned, mode, .inr counted⟩
  · intro _ _ late
    omega
  · rw [at_]
    nofun

theorem Safe.spurious (safe : system.Safe phase) (thread : ι) :
    (system.goto thread (system.places thread).notified).Safe phase := by
  by_cases notifying : system.places thread = .notifying
  · have same : (system.places thread).notified = system.places thread := by
      rw [notifying]
      rfl
    rwa [System.goto, same, Function.update_eq_self]
  · refine safe.goto system.mutex_ (safe.owner_keep ?_) (safe.agrees thread).notified ?_ notifying
    · cases system.places thread <;> exact Iff.rfl
    · intro awaited asleep
      cases at_ : system.places thread <;> rw [at_] at asleep <;> cases asleep

/-- The notification wakes everybody. -/
theorem Safe.notify (safe : system.Safe phase) (at_ : system.places thread = .notifying) :
    ({ system with places := fun other => (system.places other).notified }.goto thread .unlocking).Safe phase := by
  have stands := safe.agrees thread
  rw [at_] at stands
  have notified : ∀ other, other ≠ thread →
      ({ system with places := fun other => (system.places other).notified }.goto thread .unlocking).places other =
        (system.places other).notified :=
    fun other here => Function.update_of_ne here _ _
  have moved : ({ system with places := fun other => (system.places other).notified }.goto thread
      .unlocking).places thread = .unlocking :=
    Function.update_self _ _ _
  refine ⟨safe.size, safe.mode, safe.current, safe.incomplete, ?_, ?_, ?_⟩
  · intro other
    have owner := safe.owner other
    by_cases here : other = thread
    · subst here
      rw [at_] at owner
      rw [moved]
      exact owner
    · rw [notified other here]
      cases place : system.places other <;> rw [place] at owner <;> exact owner
  · intro other
    by_cases here : other = thread
    · subst here
      rw [moved]
      exact stands
    · rw [notified other here]
      exact (safe.agrees other).notified
  · intro other awaited asleep
    by_cases here : other = thread
    · subst here
      rw [moved] at asleep
      cases asleep
    · rw [notified other here] at asleep
      cases place : system.places other <;> rw [place] at asleep <;> cases asleep

/-! The count of a thread. -/

/-- The system after a thread is counted. -/
def counted (system : System ι) (thread : ι) : System ι :=
  { system with arrived := Function.update system.arrived thread (system.arrived thread + 1) }

theorem count_counted (here : system.arrived thread = phase) :
    (system.counted thread).count phase = system.count phase + 1 := by
  have inserted : (Finset.univ.filter fun other => (system.counted thread).arrived other = phase + 1) =
      insert thread (Finset.univ.filter fun other => system.arrived other = phase + 1) := by
    ext other
    rw [Finset.mem_insert, Finset.mem_filter_univ, Finset.mem_filter_univ, counted]
    by_cases same : other = thread
    · simp [same, here]
    · simp [same]
  rw [count, inserted, Finset.card_insert_of_notMem, count]
  simp [here]

theorem decrement_eq {current : Nat} (positive : 0 < current) (bounded : current < sizeRange) :
    (current + (sizeRange - 1)) % sizeRange = current - 1 := by
  have shifted : current + (sizeRange - 1) = current - 1 + sizeRange := by omega
  rw [shifted, Nat.add_mod_right, Nat.mod_eq_of_lt (by omega)]

/-- The last thread of the phase ends it, any other one waits for its end. -/
theorem Safe.arrive_eq (safe : system.Safe phase) (bounded : Fintype.card ι < sizeRange) :
    system.arrive thread =
      if system.count phase + 1 = Fintype.card ι then
        { system.counted thread with
          current_awaited_threads_ := remaining (Fintype.card ι) 0 (modeOf (phase + 1))
          state_ := modeOf (phase + 1) }.goto thread .notifying
      else
        { system.counted thread with
          current_awaited_threads_ := remaining (Fintype.card ι) (system.count phase + 1) (modeOf phase)
          state_ := modeOf phase }.goto thread (.testing (modeOf (phase + 1))) := by
  have incomplete := safe.incomplete
  have current := safe.current
  cases mode : modeOf phase with
  | blocking =>
      have next : modeOf (phase + 1) = .unblocking := by rw [modeOf, mode]
      rw [mode, remaining] at current
      have left : (system.current_awaited_threads_ + (sizeRange - 1)) % sizeRange =
          Fintype.card ι - (system.count phase + 1) := by
        rw [decrement_eq (by omega) (by omega), current]
        omega
      simp only [arrive, safe.mode, mode, next, left, remaining]
      by_cases last : system.count phase + 1 = Fintype.card ι
      · rw [if_pos last, if_pos (by omega), last, Nat.sub_self]
        rfl
      · rw [if_neg last, if_neg (by omega)]
        rfl
  | unblocking =>
      have next : modeOf (phase + 1) = .blocking := by rw [modeOf, mode]
      rw [mode, remaining] at current
      have more : (system.current_awaited_threads_ + 1) % sizeRange = system.count phase + 1 := by
        rw [current, Nat.mod_eq_of_lt (by omega)]
      have full : system.count phase + 1 = system.size_awaited_threads_ ↔
          system.count phase + 1 = Fintype.card ι := by rw [safe.size]
      simp only [arrive, safe.mode, mode, next, more, full, remaining]
      by_cases last : system.count phase + 1 = Fintype.card ι
      · rw [if_pos last, if_pos last, last, Nat.sub_zero]
        rfl
      · rw [if_neg last, if_neg last]
        rfl

/-- A thread is counted, and waits for the others. -/
theorem Safe.wait (safe : system.Safe phase) (at_ : system.places thread = .arriving)
    (others : system.count phase + 1 ≠ Fintype.card ι) :
    ({ system.counted thread with
      current_awaited_threads_ := remaining (Fintype.card ι) (system.count phase + 1) (modeOf phase)
      state_ := modeOf phase }.goto thread (.testing (modeOf (phase + 1)))).Safe phase := by
  have stands := safe.agrees thread
  rw [at_] at stands
  obtain ⟨entered, arrived, returned⟩ := stands
  have more := count_counted arrived
  have incomplete := safe.incomplete
  refine ⟨safe.size, rfl, ?_, ?_, safe.owner_keep (by rw [at_]; exact Iff.rfl), ?_, ?_⟩
  · exact congrArg (remaining _ · _) more.symm
  · show (system.counted thread).count phase < Fintype.card ι
    omega
  · intro other
    show (Function.update system.places thread _ other).Agrees phase (system.entered other)
      (Function.update system.arrived thread _ other) (system.returned other)
    by_cases here : other = thread
    · subst here
      rw [Function.update_self, Function.update_self, entered, arrived, returned]
      exact ⟨rfl, rfl, rfl, .inr rfl⟩
    · rw [Function.update_of_ne here, Function.update_of_ne here]
      exact safe.agrees other
  · intro other awaited asleep late
    have asleep : Function.update system.places thread _ other = .asleep awaited := asleep
    have late : Function.update system.arrived thread _ other = phase := late
    by_cases here : other = thread
    · subst here
      rw [Function.update_self] at asleep
      cases asleep
    · rw [Function.update_of_ne here] at asleep late
      obtain ⟨notifier, notifying⟩ := safe.noted other awaited asleep late
      have elsewhere : notifier ≠ thread := by
        rintro rfl
        cases at_.symm.trans notifying
      exact ⟨notifier, (Function.update_of_ne elsewhere _ _).trans notifying⟩

/-- The last thread is counted, and ends the phase. -/
theorem Safe.finish (safe : system.Safe phase) (at_ : system.places thread = .arriving)
    (last : system.count phase + 1 = Fintype.card ι) :
    ({ system.counted thread with
      current_awaited_threads_ := remaining (Fintype.card ι) 0 (modeOf (phase + 1))
      state_ := modeOf (phase + 1) }.goto thread .notifying).Safe (phase + 1) := by
  have stands := safe.agrees thread
  rw [at_] at stands
  obtain ⟨entered, arrived, returned⟩ := stands
  have everybody : ∀ other, (system.counted thread).arrived other = phase + 1 := by
    have full : (system.counted thread).count phase = Fintype.card ι := (count_counted arrived).trans last
    intro other
    have member := Finset.mem_univ other
    rw [← Finset.card_eq_iff_eq_univ _ |>.mp full] at member
    exact (Finset.mem_filter_univ other).mp member
  have nobody : (system.counted thread).count (phase + 1) = 0 := by
    rw [count, Finset.card_eq_zero, Finset.filter_eq_empty_iff]
    intro other _
    rw [everybody other]
    omega
  refine ⟨safe.size, rfl, ?_, ?_, safe.owner_keep (by rw [at_]; exact Iff.rfl), ?_, ?_⟩
  · exact congrArg (remaining _ · _) nobody.symm
  · show (system.counted thread).count (phase + 1) < Fintype.card ι
    omega
  · intro other
    show (Function.update system.places thread _ other).Agrees (phase + 1) (system.entered other)
      ((system.counted thread).arrived other) (system.returned other)
    by_cases here : other = thread
    · subst here
      rw [Function.update_self, everybody, entered, returned]
      exact ⟨rfl, rfl, rfl⟩
    · have same : (system.counted thread).arrived other = system.arrived other := Function.update_of_ne here _ _
      have counted := everybody other
      rw [same] at counted
      rw [Function.update_of_ne here, same]
      rcases (safe.agrees other).succ counted with agrees | ⟨awaited, sleeping⟩
      · exact agrees
      · exact absurd (safe.locks_unique (by rw [sleeping]; trivial) (by rw [at_]; trivial)) here
  · intro other awaited _ _
    exact ⟨thread, Function.update_self _ _ _⟩

theorem act_safe (safe : system.Safe phase) (bounded : Fintype.card ι < sizeRange) (thread : ι) :
    ∃ next, (system.act thread).Safe next := by
  have stands := safe.agrees thread
  cases at_ : system.places thread with
  | idle | asleep awaited =>
      rw [act, at_]
      exact ⟨phase, safe⟩
  | locking =>
      rw [at_] at stands
      simp only [act, at_]
      exact ⟨phase, safe.lock trivial stands (by rw [at_]; nofun)⟩
  | arriving =>
      simp only [act, at_]
      rw [safe.arrive_eq bounded]
      split
      next last => exact ⟨phase + 1, safe.finish at_ last⟩
      next others => exact ⟨phase, safe.wait at_ others⟩
  | notifying =>
      simp only [act, at_]
      exact ⟨phase, safe.notify at_⟩
  | testing awaited =>
      simp only [act, at_]
      exact ⟨phase, safe.test at_⟩
  | sleeping awaited =>
      simp only [act, at_]
      exact ⟨phase, safe.sleep at_⟩
  | relocking awaited =>
      rw [at_] at stands
      simp only [act, at_]
      exact ⟨phase, safe.lock trivial stands (by rw [at_]; nofun)⟩
  | unlocking =>
      simp only [act, at_]
      exact ⟨phase, safe.unlock at_⟩

/-- Every step keeps the invariant, in the same phase or the next. -/
theorem step_safe (safe : system.Safe phase) (bounded : Fintype.card ι < sizeRange) (event : Event ι) :
    ∃ next, (system.step event).Safe next := by
  cases event with
  | call thread =>
      rw [step]
      split
      next idle => exact ⟨phase, safe.call idle⟩
      next => exact ⟨phase, safe⟩
  | act thread => exact act_safe safe bounded thread
  | spurious thread => exact ⟨phase, safe.spurious thread⟩

theorem interleave_safe [Nonempty ι] (bounded : Fintype.card ι < sizeRange) (schedule : List (Event ι)) :
    ∃ phase, (interleave (Fintype.card ι) schedule).Safe phase := by
  rw [interleave]
  induction schedule using List.reverseRecOn with
  | nil => exact ⟨0, initial_safe⟩
  | append_singleton schedule event ih =>
      obtain ⟨phase, safe⟩ := ih
      rw [List.foldl_append]
      exact step_safe safe bounded event

/-- **The barrier.** No thread has returned from more calls than any other has entered, the
counter is never above the number of threads, and never do all of them sleep. -/
theorem interleave_in_phase [Nonempty ι] (bounded : Fintype.card ι < sizeRange) (schedule : List (Event ι)) :
    (∀ first second, (interleave (Fintype.card ι) schedule).returned first ≤
        (interleave (Fintype.card ι) schedule).entered second) ∧
      (interleave (Fintype.card ι) schedule).current_awaited_threads_ ≤ Fintype.card ι ∧
      ∃ thread, ∀ awaited, (interleave (Fintype.card ι) schedule).places thread ≠ .asleep awaited := by
  obtain ⟨phase, safe⟩ := interleave_safe bounded schedule
  exact ⟨safe.returned_le, safe.current_le, safe.awake⟩

/-- Thread 1 ends the first phase and comes back before thread 0 wakes up. -/
def comeback : List (Event (Fin 2)) :=
  [.call 0, .act 0, .act 0, .act 0, .act 0, .call 1, .act 1, .act 1, .act 1, .act 1, .call 1, .act 1, .act 1,
    .act 1, .act 1, .act 0, .act 0, .act 0]

theorem interleave_in_phase_comeback :
    (∀ first second, (interleave (Fintype.card (Fin 2)) comeback).returned first ≤
        (interleave (Fintype.card (Fin 2)) comeback).entered second) ∧
      (interleave (Fintype.card (Fin 2)) comeback).current_awaited_threads_ ≤ Fintype.card (Fin 2) ∧
      ∃ thread, ∀ awaited, (interleave (Fintype.card (Fin 2)) comeback).places thread ≠ .asleep awaited :=
  interleave_in_phase (by rw [Fintype.card_fin]; decide) _

end System

end Dsac.Barrier

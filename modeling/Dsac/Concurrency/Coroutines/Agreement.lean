import Dsac.Concurrency.Coroutines.Places

namespace Dsac.Coroutines

open Dsac.Library Dsac.Futures

/-! Coroutines give the results of direct style, in any order of the steps. -/

variable {ι R X V E : Type}

structure Ghost (ι X V : Type) where
  place : Nat → Place ι X V
  claim : Nat → Claim

namespace System

variable (answer : R → Result X V)

/-- The invariant, with the callbacks that are submitted, or on their way to be run. -/
structure Sound (system : System ι R X V E) (ghost : Ghost ι X V)
    (pending : List (Option (Option Nat) × Result X V)) : Prop where
  bounded : ∀ index, ghost.place index ≠ .finished → index < system.made.length
  states : ∀ index < system.made.length, Stored (system.states index)
    ((ghost.place index).result (expected answer system.made index)) (ghost.claim index).callback
  awaited : ∀ index handle, ghost.claim index = .awaited handle → ghost.place index ≠ .finished →
    ghost.place handle = .waiting index
  unfinished : ∀ handle index, ghost.place handle = .waiting index → ghost.place index ≠ .finished
  frames : ∀ index, Stands answer (system.frames index) system.made ghost.claim index (ghost.place index)
  listed : Listed ghost.place system.active pending system.operations
  requested : ∀ index request, (index, request) ∈ system.operations →
    system.made[index]? = some (.operation request)

theorem initial_sound : Sound answer (initial : System ι R X V E) ⟨fun _ => .finished, fun _ => .free⟩ [] where
  bounded _ unfinished := absurd rfl unfinished
  states _ inside := absurd inside (Nat.not_lt_zero _)
  awaited _ _ claimed := nomatch claimed
  unfinished _ _ waiting := nomatch waiting
  frames _ := rfl
  listed := {
    activeOnce := fun _ => List.nodup_nil
    active := fun _ _ => iff_of_false List.not_mem_nil nofun
    pendingOnce := List.nodup_nil
    pending := fun _ _ => iff_of_false List.not_mem_nil (fun ⟨_, _, found⟩ => nomatch found)
    operationsOnce := List.nodup_nil
    operations := fun _ => iff_of_false (fun ⟨_, member⟩ => List.not_mem_nil member) nofun }
  requested _ _ member := nomatch member

variable {answer} {system next : System ι R X V E} {ghost : Ghost ι X V}
  {pending : List (Option (Option Nat) × Result X V)} {handle index : Nat} {thread : ι} {data : Result X V}

theorem Sound.waiting (sound : system.Sound answer ghost pending) {future : Nat}
    (at_ : ghost.place handle = .waiting future) : ∃ data, expected answer system.made future = some data ∧
      handle < future ∧ ghost.claim future = .awaited handle ∧
      Suspended answer (system.frames handle) system.made ghost.claim handle data := by
  have stands := sound.frames handle
  rwa [at_] at stands

theorem result_of_ne {place : Place ι X V} (live : place ≠ .finished) (result : Option (Result X V)) :
    place.result result = none := by
  cases place with
  | finished => exact absurd rfl live
  | running _ | waiting _ | resuming _ | underway => rfl

variable [DecidableEq ι]

/-- A new shared state, whose promise and future go where they are needed. -/
theorem Sound.make (sound : system.Sound answer ghost pending) {origin : Origin R X V} {executor : Option E}
    (place : Place ι X V) (claim : Claim) (frames : Nat → Option (Frame R X V)) (active : ι → List Nat)
    (operations : List (Nat × R))
    (live : place ≠ .finished ∧ ∀ future, place ≠ .waiting future) (unawaited : claim.callback = none)
    (stands : ∀ index, Stands answer (frames index) (system.made ++ [origin])
      (Function.update ghost.claim system.made.length claim) index
      (Function.update ghost.place system.made.length place index))
    (listed : Listed (Function.update ghost.place system.made.length place) active pending operations)
    (requested : ∀ index request, (index, request) ∈ operations →
      (system.made ++ [origin])[index]? = some (.operation request)) :
    { system.make origin executor with frames := frames, active := active, operations := operations }.Sound answer
      ⟨Function.update ghost.place system.made.length place, Function.update ghost.claim system.made.length claim⟩
      pending where
  bounded index unfinished := by
    show index < (system.made ++ [origin]).length
    rw [List.length_append, List.length_singleton]
    by_cases here : index = system.made.length
    · omega
    · simp only [Function.update_of_ne here] at unfinished
      exact Nat.lt_succ_of_lt (sound.bounded index unfinished)
  states index inside := by
    show Stored (Function.update system.states system.made.length _ index) _ _
    by_cases here : index = system.made.length
    · subst here
      simp only [Function.update_self, result_of_ne live.1, unawaited]
      rfl
    · have before : index < system.made.length := by
        have bound : index < (system.made ++ [origin]).length := inside
        rw [List.length_append, List.length_singleton] at bound
        omega
      simp only [Function.update_of_ne here]
      show Stored _ (Place.result (expected answer (system.made ++ [origin]) index) _) _
      rw [expected_of_lt before]
      exact sound.states index before
  awaited index handle claimed unfinished := by
    by_cases here : index = system.made.length
    · subst here
      simp only [Function.update_self] at claimed
      rw [claimed] at unawaited
      cases unawaited
    · simp only [Function.update_of_ne here] at claimed unfinished
      have waiting := sound.awaited index handle claimed unfinished
      have old : handle ≠ system.made.length :=
        Nat.ne_of_lt (sound.bounded handle (by rw [waiting]; nofun))
      simp only [Function.update_of_ne old, waiting]
  unfinished handle index waiting := by
    by_cases new : handle = system.made.length
    · subst new
      simp only [Function.update_self] at waiting
      exact absurd waiting (live.2 index)
    · simp only [Function.update_of_ne new] at waiting
      by_cases here : index = system.made.length
      · subst here
        simp only [Function.update_self]
        exact live.1
      · simp only [Function.update_of_ne here]
        exact sound.unfinished handle index waiting
  frames := stands
  listed := listed
  requested := requested

/-- What the others have stays as it is when a shared state is made. -/
theorem Stands.make {frame : Option (Frame R X V)} {made : List (Origin R X V)} {claim : Nat → Claim}
    {place : Place ι X V} (stands : Stands answer frame made claim handle place) (origin : Origin R X V)
    (given : Claim) :
    Stands answer frame (made ++ [origin]) (Function.update claim made.length given) handle place := by
  refine Stands.append (stands.keep fun index inside _ => ?_) origin
  exact Function.update_of_ne (Nat.ne_of_lt inside) _ _

/-- The frame of a coroutine that has just been called. -/
theorem runs_begin {made : List (Origin R X V)} {claim : Nat → Claim} (body : Body R X V 0) :
    Runs answer (some ⟨0, Fin.elim0, .running body⟩) (made ++ [.coroutine body]) claim made.length := by
  refine ⟨0, Fin.elim0, body, rfl, Fin.elim0, Function.injective_of_subsingleton _, nofun, ?_⟩
  rw [expected_last]
  rfl

theorem requested_append {made : List (Origin R X V)} {operations : List (Nat × R)}
    (requested : ∀ index request, (index, request) ∈ operations → made[index]? = some (.operation request))
    (origin : Origin R X V) {index : Nat} {request : R} (member : (index, request) ∈ operations) :
    (made ++ [origin])[index]? = some (.operation request) := by
  have found := requested index request member
  rw [List.getElem?_append_left (List.getElem?_eq_some_iff.mp found).1, found]

theorem Sound.unmade (sound : system.Sound answer ghost pending) : ghost.place system.made.length = .finished := by
  by_contra live
  exact Nat.lt_irrefl _ (sound.bounded _ live)

/-- An idle thread calls a coroutine. -/
theorem Sound.begin (sound : system.Sound answer ghost pending) (thread : ι) (body : Body R X V 0) :
    ∃ ghost, (system.begin thread body).Sound answer ghost pending := by
  refine ⟨_, sound.make (.running thread) .free
    (Function.update system.frames system.made.length (some ⟨0, Fin.elim0, .running body⟩)) _ _ ⟨nofun, nofun⟩ rfl
    (fun index => ?_) (sound.listed.join_active sound.unmade thread)
    fun index request => requested_append sound.requested _⟩
  by_cases here : index = system.made.length
  · subst here
    simp only [Function.update_self]
    exact runs_begin body
  · simp only [Function.update_of_ne here]
    exact Stands.make (sound.frames index) _ _

/-- The caller and the others, when the caller gets a future. -/
theorem Sound.stands_push (sound : system.Sound answer ghost pending) {held : Nat} {futures : Fin held → Nat}
    {body : Body R X V held} (rest : Body R X V (held + 1)) (origin : Origin R X V)
    (at_ : ghost.place handle = .running thread)
    (means : Means answer system.made ghost.claim handle futures body)
    (runs : ∀ results, body.denote answer results =
      rest.denote answer (Fin.cons (α := fun _ => Result X V) (origin.denote answer) results)) (index : Nat) :
    Stands answer (Function.update system.frames handle
        (some ⟨held + 1, Fin.cons system.made.length futures, .running rest⟩) index) (system.made ++ [origin])
      (Function.update ghost.claim system.made.length (.held handle)) index (ghost.place index) := by
  by_cases here : index = handle
  · subst here
    rw [Function.update_self, at_]
    exact ⟨held + 1, _, rest, rfl, means.push runs⟩
  · rw [Function.update_of_ne here]
    exact Stands.make (sound.frames index) _ _

/-- A coroutine starts an operation. -/
theorem Sound.requests (sound : system.Sound answer ghost pending) {held : Nat} {futures : Fin held → Nat}
    {request : R} {rest : Body R X V (held + 1)} (at_ : ghost.place handle = .running thread)
    (means : Means answer system.made ghost.claim handle futures (.requests request rest)) (executor : Option E) :
    ∃ ghost, Sound answer (({ system with
        operations := system.operations ++ [(system.made.length, request)] }.setFrame handle
          (some ⟨held + 1, Fin.cons system.made.length futures, .running rest⟩)).make (.operation request) executor)
      ghost pending := by
  refine ⟨_, sound.make .underway (.held handle)
    (Function.update system.frames handle (some ⟨held + 1, Fin.cons system.made.length futures, .running rest⟩)) _ _
    ⟨nofun, nofun⟩ rfl (fun index => ?_) (sound.listed.join_operations sound.unmade request)
    fun index another member => ?_⟩
  · have stands := sound.stands_push rest (.operation request) at_ means (fun _ => rfl) index
    by_cases here : index = system.made.length
    · subst here
      have other : system.made.length ≠ handle := fun same => by
        rw [← same, sound.unmade] at at_
        cases at_
      rw [sound.unmade] at stands
      simp only [Function.update_self]
      exact stands
    · simp only [Function.update_of_ne here]
      exact stands
  · rcases List.mem_append.mp member with old | new
    · exact requested_append sound.requested _ old
    · cases List.mem_singleton.mp new
      exact List.getElem?_concat_length

/-- A coroutine calls another. -/
theorem Sound.calls (sound : system.Sound answer ghost pending) {held : Nat} {futures : Fin held → Nat}
    {callee : Body R X V 0} {rest : Body R X V (held + 1)} (at_ : ghost.place handle = .running thread)
    (means : Means answer system.made ghost.claim handle futures (.calls callee rest)) :
    ∃ ghost, Sound answer ((system.setFrame handle
        (some ⟨held + 1, Fin.cons system.made.length futures, .running rest⟩)).begin thread callee) ghost pending := by
  refine ⟨_, sound.make (.running thread) (.held handle)
    (Function.update (Function.update system.frames handle
      (some ⟨held + 1, Fin.cons system.made.length futures, .running rest⟩)) system.made.length
      (some ⟨0, Fin.elim0, .running callee⟩)) _ _ ⟨nofun, nofun⟩ rfl (fun index => ?_)
    (sound.listed.join_active sound.unmade thread) fun index request => requested_append sound.requested _⟩
  by_cases here : index = system.made.length
  · subst here
    simp only [Function.update_self]
    exact runs_begin callee
  · simp only [Function.update_of_ne here]
    exact sound.stands_push rest (.coroutine callee) at_ means (fun _ => rfl) index

/-- A callback that has its result resumes its coroutine. -/
theorem Sound.resume (sound : system.Sound answer ghost ((some (some handle), data) :: pending)) (thread : ι) :
    ∃ next, system.resume thread handle data = .ok next ∧ next.tasks = system.tasks ∧
      ∃ ghost, next.Sound answer ghost pending := by
  have at_ := (sound.listed.pending_here data).mp List.mem_cons_self
  have stands := sound.frames handle
  rw [at_] at stands
  obtain ⟨held, futures, rest, found, means⟩ := stands
  have resumed : system.resume thread handle data =
      .ok ((system.setFrame handle (some ⟨held, futures, .running (rest data)⟩)).setActive thread
        (handle :: system.active thread)) := by
    simp only [System.resume, found]
  have listed := sound.listed.leave_pending.join_active (Function.update_self handle _ ghost.place) thread
  rw [Function.update_idem] at listed
  refine ⟨_, resumed, rfl, ⟨Function.update ghost.place handle (.running thread), ghost.claim⟩, ?_⟩
  exact {
    bounded := fun index unfinished => by
      by_cases here : index = handle
      · subst here
        exact sound.bounded index (by rw [at_]; nofun)
      · simp only [Function.update_of_ne here] at unfinished
        exact sound.bounded index unfinished
    states := fun index inside => by
      have stored := sound.states index inside
      by_cases here : index = handle
      · subst here
        simp only [Function.update_self]
        rw [at_] at stored
        exact stored
      · simp only [Function.update_of_ne here]
        exact stored
    awaited := fun index other claimed unfinished => by
      have live : ghost.place index ≠ .finished := by
        by_cases here : index = handle
        · rw [here, at_]
          nofun
        · simpa only [Function.update_of_ne here] using unfinished
      have waiting := sound.awaited index other claimed live
      have apart : other ≠ handle := fun same => by
        rw [same, at_] at waiting
        cases waiting
      simp only [Function.update_of_ne apart, waiting]
    unfinished := fun other index waiting => by
      have apart : other ≠ handle := fun same => by
        simp only [same, Function.update_self] at waiting
        cases waiting
      simp only [Function.update_of_ne apart] at waiting
      by_cases here : index = handle
      · subst here
        simp only [Function.update_self]
        nofun
      · simp only [Function.update_of_ne here]
        exact sound.unfinished other index waiting
    frames := fun index => by
      show Stands answer (Function.update system.frames handle _ index) _ _ _ _
      by_cases here : index = handle
      · subst here
        simp only [Function.update_self]
        exact ⟨held, futures, rest data, rfl, means⟩
      · simp only [Function.update_of_ne here]
        exact sound.frames index
    listed := listed
    requested := sound.requested }

/-- A callback that has its result is run, or submitted. -/
theorem call_delivers {call : Call (Result X V) E Nat} (tasks : system.tasks = pending)
    (completes : Completes (system.states index) data handle call)
    (sound : ∀ shared, Stored shared (some data) (some handle) →
      { system with states := Function.update system.states index shared }.Sound answer ghost
        ((some (some handle), data) :: pending)) (thread : ι) :
    ∃ next, system.call thread index call = .ok next ∧ ∃ ghost, next.Sound answer ghost next.tasks := by
  obtain ⟨world, called, stored, delivered⟩ := completes.delivers
  have after := sound world.toSharedState stored
  simp only [System.call, called, Outcome.ok_bind, delivered, List.head?_cons]
  cases environment : (system.states index).executor_ with
  | none =>
      obtain ⟨next, resumed, left, ghost, holds⟩ := after.resume thread
      refine ⟨next, resumed, ghost, ?_⟩
      rw [left, tasks]
      exact holds
  | some executor =>
      refine ⟨_, rfl, ghost, ?_⟩
      have permuted := (List.perm_append_singleton (some (some handle), data) system.tasks).symm
      rw [tasks] at permuted
      exact { after with listed := tasks ▸ after.listed.perm permuted }

/-- The promise is set where nobody waits yet. -/
theorem Sound.store (sound : system.Sound answer ghost pending)
    (busy : ∀ future, ghost.place index ≠ .waiting future)
    (unheard : (ghost.claim index).callback = none) (live : ghost.place index ≠ .finished)
    (expects : expected answer system.made index = some data) {shared : SharedState (Result X V) E Nat}
    (stored : Stored shared (some data) none) {active : ι → List Nat} {operations : List (Nat × R)}
    (listed : Listed (Function.update ghost.place index .finished) active pending operations)
    (fewer : operations ⊆ system.operations) :
    { system with
      states := Function.update system.states index shared
      frames := Function.update system.frames index none
      active := active
      operations := operations }.Sound answer ⟨Function.update ghost.place index .finished, ghost.claim⟩ pending where
  bounded other unfinished := by
    by_cases here : other = index
    · rw [here]
      exact sound.bounded index live
    · simp only [Function.update_of_ne here] at unfinished
      exact sound.bounded other unfinished
  states other inside := by
    by_cases here : other = index
    · subst here
      simp only [Function.update_self, Place.result, unheard, expects]
      exact stored
    · simp only [Function.update_of_ne here]
      exact sound.states other inside
  awaited other handle claimed unfinished := by
    have here : other ≠ index := fun same => by
      simp only [same, Function.update_self, ne_eq, not_true_eq_false] at unfinished
    simp only [Function.update_of_ne here] at unfinished
    have waiting := sound.awaited other handle claimed unfinished
    have apart : handle ≠ index := fun same => busy other (by rw [← same, waiting])
    simp only [Function.update_of_ne apart, waiting]
  unfinished handle other waiting := by
    have apart : handle ≠ index := fun same => by
      simp only [same, Function.update_self] at waiting
      cases waiting
    simp only [Function.update_of_ne apart] at waiting
    have here : other ≠ index := fun same => by
      obtain ⟨_, _, _, claimed, _⟩ := sound.waiting waiting
      rw [same] at claimed
      rw [claimed] at unheard
      cases unheard
    simp only [Function.update_of_ne here]
    exact sound.unfinished handle other waiting
  frames other := by
    by_cases here : other = index
    · subst here
      simp only [Function.update_self]
      exact rfl
    · simp only [Function.update_of_ne here]
      exact sound.frames other
  listed := listed
  requested other request member := sound.requested other request (fewer member)

/-- The promise is set where a coroutine waits, and the result goes to its callback. -/
theorem Sound.hand (sound : system.Sound answer ghost pending)
    (busy : ∀ future, ghost.place index ≠ .waiting future)
    (claimed : ghost.claim index = .awaited handle) (live : ghost.place index ≠ .finished)
    (expects : expected answer system.made index = some data) {shared : SharedState (Result X V) E Nat}
    (stored : Stored shared (some data) (some handle)) {active : ι → List Nat} {operations : List (Nat × R)}
    (listed : Listed (Function.update ghost.place index .finished) active pending operations)
    (fewer : operations ⊆ system.operations) :
    { system with
      states := Function.update system.states index shared
      frames := Function.update system.frames index none
      active := active
      operations := operations }.Sound answer
      ⟨Function.update (Function.update ghost.place index .finished) handle (.resuming data), ghost.claim⟩
      ((some (some handle), data) :: pending) := by
  have waiting := sound.awaited index handle claimed live
  have apart : handle ≠ index := fun same => busy index (same ▸ waiting)
  have freed : Listed (Function.update (Function.update ghost.place index .finished) handle .finished) active pending
      operations := by
    refine listed.move_unlisted (Or.inl ⟨index, ?_⟩) (Or.inr rfl)
    rw [Function.update_of_ne apart, waiting]
  have joined := freed.join_pending (Function.update_self _ _ _) data
  rw [Function.update_idem] at joined
  exact {
    bounded := fun other unfinished => by
      by_cases here : other = index
      · rw [here]
        exact sound.bounded index live
      · refine sound.bounded other fun finished => unfinished ?_
        have different : other ≠ handle := fun same => by
          rw [same, waiting] at finished
          cases finished
        simp only [Function.update_of_ne here, Function.update_of_ne different, finished]
    states := fun other inside => by
      by_cases here : other = index
      · subst here
        simp only [Function.update_of_ne (Ne.symm apart), Function.update_self, Place.result, expects, claimed]
        exact stored
      · have before := sound.states other inside
        simp only [Function.update_of_ne here]
        by_cases same : other = handle
        · subst same
          simp only [Function.update_self]
          rw [waiting] at before
          exact before
        · simp only [Function.update_of_ne same, Function.update_of_ne here]
          exact before
    awaited := fun other another claim unfinished => by
      have here : other ≠ index := fun same => by
        subst same
        simp only [Function.update_of_ne (Ne.symm apart), Function.update_self, ne_eq, not_true_eq_false] at unfinished
      have before : ghost.place other ≠ .finished := by
        by_cases same : other = handle
        · rw [same, waiting]
          nofun
        · simpa only [Function.update_of_ne same, Function.update_of_ne here] using unfinished
      have waits := sound.awaited other another claim before
      have elsewhere : another ≠ handle := fun same => by
        rw [same, waiting] at waits
        cases waits
        exact here rfl
      have busyElse : another ≠ index := fun same => busy other (by rw [← same, waits])
      simp only [Function.update_of_ne elsewhere, Function.update_of_ne busyElse, waits]
    unfinished := fun other another waits => by
      have elsewhere : other ≠ handle := fun same => by
        simp only [same, Function.update_self] at waits
        cases waits
      have here : other ≠ index := fun same => by
        simp only [same, Function.update_of_ne (Ne.symm apart), Function.update_self] at waits
        cases waits
      simp only [Function.update_of_ne elsewhere, Function.update_of_ne here] at waits
      have still : another ≠ index := fun same => by
        obtain ⟨_, _, _, claim, _⟩ := sound.waiting waits
        rw [same, claimed] at claim
        cases claim
        exact elsewhere rfl
      by_cases same : another = handle
      · subst same
        simp only [Function.update_self]
        nofun
      · simp only [Function.update_of_ne same, Function.update_of_ne still]
        exact sound.unfinished other another waits
    frames := fun other => by
      by_cases here : other = index
      · subst here
        simp only [Function.update_of_ne (Ne.symm apart), Function.update_self]
        exact rfl
      · simp only [Function.update_of_ne here]
        by_cases same : other = handle
        · subst same
          obtain ⟨found, expects', _, _, suspended⟩ := sound.waiting waiting
          simp only [Function.update_self]
          cases expects.symm.trans expects'
          exact suspended
        · simp only [Function.update_of_ne same, Function.update_of_ne here]
          exact sound.frames other
    listed := joined
    requested := fun other request member => sound.requested other request (fewer member) }

/-- A promise is set with the result that is expected of it. -/
theorem Sound.settle (sound : system.Sound answer ghost pending)
    (busy : ∀ future, ghost.place index ≠ .waiting future) (live : ghost.place index ≠ .finished)
    (expects : expected answer system.made index = some data) {active : ι → List Nat} {operations : List (Nat × R)}
    (listed : Listed (Function.update ghost.place index .finished) active pending operations)
    (fewer : operations ⊆ system.operations) (tasks : system.tasks = pending) (thread : ι) :
    ∃ next, System.call { system with
        frames := Function.update system.frames index none, active := active, operations := operations } thread index
        (.setResult data) = .ok next ∧ ∃ ghost, next.Sound answer ghost next.tasks := by
  have before := sound.states index (sound.bounded index live)
  rw [result_of_ne live] at before
  cases claimed : (ghost.claim index).callback with
  | none =>
      rw [claimed] at before
      have called := before.setResult data
      have stored : Stored { system.states index with result_ := some data, state_ := State.onlyResult }
          (some data) none := ⟨rfl, rfl⟩
      subst tasks
      refine ⟨_, ?_, _, sound.store busy claimed live expects stored listed fewer⟩
      simp only [System.call, called, Outcome.ok_bind, List.head?_nil]
  | some handle =>
      rw [claimed] at before
      have owner : ghost.claim index = .awaited handle := by
        cases claim : ghost.claim index with
        | awaited other =>
            rw [claim] at claimed
            cases claimed
            rfl
        | free | held other =>
            rw [claim] at claimed
            cases claimed
      have completes : Completes (system.states index) data handle (.setResult data) := ⟨rfl, before⟩
      exact @call_delivers _ _ _ _ _ _ { system with
        frames := Function.update system.frames index none, active := active, operations := operations } _ _ _ _ _ _ _
        tasks completes (fun shared stored => sound.hand busy owner live expects stored listed fewer) thread

end System

end Dsac.Coroutines

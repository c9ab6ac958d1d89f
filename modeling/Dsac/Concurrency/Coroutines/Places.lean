import Dsac.Concurrency.Coroutines

namespace Dsac.Coroutines

open Dsac.Library Dsac.Futures

/-! Where the coroutines and their futures are, and what the bodies still mean there. -/

variable {ι R X V E : Type}

/-- Where the promise of a shared state is. -/
inductive Place (ι X V : Type) where
  | finished
  /-- in the frame of a coroutine that a thread runs -/
  | running (thread : ι)
  /-- in the frame of a coroutine that awaits a future -/
  | waiting (future : Nat)
  /-- in the frame of a coroutine whose callback has the result -/
  | resuming (data : Result X V)
  /-- with an operation under way -/
  | underway

/-- Who has the future of a shared state. -/
inductive Claim where
  | free
  | held (handle : Nat)
  | awaited (handle : Nat)
deriving DecidableEq, Repr

/-- The coroutine whose claim it is. -/
def Claim.Of (handle : Nat) : Claim → Prop
  | .free => False
  | .held owner | .awaited owner => owner = handle

def Claim.callback : Claim → Option Nat
  | .free | .held _ => none
  | .awaited handle => some handle

def Place.result (expected : Option (Result X V)) : Place ι X V → Option (Result X V)
  | .finished => expected
  | _ => none

/-- The shared state has this result and this callback. -/
def Stored (shared : SharedState (Result X V) E Nat) : Option (Result X V) → Option Nat → Prop
  | none, none => shared.state_ = State.start
  | some data, none => shared.state_ = State.onlyResult ∧ shared.result_ = some data
  | none, some handle => shared.state_ = State.onlyCallback ∧ shared.callback_ = some (some handle)
  | some data, some _ => shared.state_ = State.done ∧ shared.result_ = some data

section

variable {shared : SharedState (Result X V) E Nat} {data : Result X V} {handle : Nat}

theorem Stored.setResult (stored : Stored shared none none) (data : Result X V) :
    World.checked { shared with deliveries := [] } (.setResult data) =
      .ok (.returned, { shared with result_ := some data, state_ := State.onlyResult, deliveries := [] }) := by
  have start : shared.state_ = State.start := stored
  have unset : SharedState.hasResult shared = false := by
    rw [SharedState.hasResult, start]
    decide
  simp only [World.checked, unset, Bool.false_eq_true, if_false]
  exact World.call_setResult_of_start start data

theorem Stored.setCallback (stored : Stored shared none none) (handle : Nat) :
    World.checked { shared with deliveries := [] } (.setCallback handle) =
      .ok (.returned, { shared with
        callback_ := some (some handle), state_ := State.onlyCallback, deliveries := [] }) := by
  have start : shared.state_ = State.start := stored
  have unset : SharedState.hasCallback shared = false := by
    rw [SharedState.hasCallback, start]
    decide
  simp only [World.checked, unset, Bool.false_eq_true, if_false]
  exact World.call_setCallback_of_start start handle

/-- The call that brings the second half, which the shared state then delivers with the first. -/
def Completes (shared : SharedState (Result X V) E Nat) (data : Result X V) (handle : Nat) :
    Call (Result X V) E Nat → Prop
  | .setExecutor _ => False
  | .setResult result => result = data ∧ Stored shared none (some handle)
  | .setCallback callback => callback = handle ∧ Stored shared (some data) none

theorem Completes.delivers {call : Call (Result X V) E Nat} (completes : Completes shared data handle call) :
    ∃ world, World.checked { shared with deliveries := [] } call = .ok (.returned, world) ∧
      Stored world.toSharedState (some data) (some handle) ∧
      world.deliveries = [.owed shared.executor_ data handle] := by
  cases call with
  | setExecutor exec => exact completes.elim
  | setResult result =>
      obtain ⟨same, state, stored⟩ := completes
      subst same
      have unset : SharedState.hasResult shared = false := by
        rw [SharedState.hasResult, state]
        decide
      obtain ⟨moved, called⟩ := @World.call_setResult_of_onlyCallback (Result X V) E Nat
        { shared with deliveries := [] } handle state stored result
      refine ⟨_, Eq.trans ?_ called, ⟨rfl, rfl⟩, rfl⟩
      simp only [World.checked, unset, Bool.false_eq_true, if_false]
  | setCallback callback =>
      obtain ⟨same, state, stored⟩ := completes
      subst same
      have unset : SharedState.hasCallback shared = false := by
        rw [SharedState.hasCallback, state]
        decide
      obtain ⟨moved, called⟩ := @World.call_setCallback_of_onlyResult (Result X V) E Nat
        { shared with deliveries := [] } data state stored callback
      refine ⟨_, Eq.trans ?_ called, ⟨rfl, stored⟩, rfl⟩
      simp only [World.checked, unset, Bool.false_eq_true, if_false]

end

/-- The lists of the system name exactly the promises that have these places, each once. -/
structure Listed (place : Nat → Place ι X V) (active : ι → List Nat)
    (pending : List (Option (Option Nat) × Result X V)) (operations : List (Nat × R)) : Prop where
  activeOnce : ∀ thread, (active thread).Nodup
  active : ∀ thread handle, handle ∈ active thread ↔ place handle = .running thread
  pendingOnce : (pending.map Prod.fst).Nodup
  pending : ∀ callback data, (callback, data) ∈ pending ↔
    ∃ handle, callback = some (some handle) ∧ place handle = .resuming data
  operationsOnce : (operations.map Prod.fst).Nodup
  operations : ∀ index, (∃ request, (index, request) ∈ operations) ↔ place index = .underway

namespace Listed

variable {place : Nat → Place ι X V} {active : ι → List Nat}
  {pending rest : List (Option (Option Nat) × Result X V)} {operations : List (Nat × R)} {handle : Nat} {thread : ι}
  {data : Result X V}

/-- One promise goes to another place, in the lists too. -/
theorem move (listed : Listed place active pending operations) {after : Place ι X V}
    {active' : ι → List Nat} {pending' : List (Option (Option Nat) × Result X V)} {operations' : List (Nat × R)}
    (activeOnce : ∀ thread, (active' thread).Nodup)
    (activeHere : ∀ thread, handle ∈ active' thread ↔ after = .running thread)
    (activeElse : ∀ thread other, other ≠ handle → (other ∈ active' thread ↔ other ∈ active thread))
    (pendingOnce : (pending'.map Prod.fst).Nodup)
    (pendingHere : ∀ data, (some (some handle), data) ∈ pending' ↔ after = .resuming data)
    (pendingElse : ∀ callback data, callback ≠ some (some handle) →
      ((callback, data) ∈ pending' ↔ (callback, data) ∈ pending))
    (operationsOnce : (operations'.map Prod.fst).Nodup)
    (operationsHere : (∃ request, (handle, request) ∈ operations') ↔ after = .underway)
    (operationsElse : ∀ other request, other ≠ handle →
      ((other, request) ∈ operations' ↔ (other, request) ∈ operations)) :
    Listed (Function.update place handle after) active' pending' operations' where
  activeOnce := activeOnce
  active thread other := by
    by_cases here : other = handle
    · subst here
      rw [Function.update_self]
      exact activeHere thread
    · rw [Function.update_of_ne here, activeElse thread other here]
      exact listed.active thread other
  pendingOnce := pendingOnce
  pending callback data := by
    by_cases here : callback = some (some handle)
    · subst here
      rw [pendingHere data]
      constructor
      · exact fun same => ⟨handle, rfl, by rw [Function.update_self, same]⟩
      · intro ⟨other, same, found⟩
        cases same
        rwa [Function.update_self] at found
    · rw [pendingElse callback data here, listed.pending]
      refine exists_congr fun other => and_congr_right fun same => ?_
      rw [Function.update_of_ne (fun equal => here (by rw [same, equal]))]
  operationsOnce := operationsOnce
  operations other := by
    by_cases here : other = handle
    · subst here
      rw [Function.update_self]
      exact operationsHere
    · rw [Function.update_of_ne here, ← listed.operations other]
      exact exists_congr fun request => operationsElse other request here

section

variable {operations' : List (Nat × R)} {pending' : List (Option (Option Nat) × Result X V)} {after : Place ι X V}

/-- A move in which the calls that run are the same. -/
theorem move_inactive (listed : Listed place active pending operations)
    (before : ∀ thread, place handle ≠ .running thread) (later : ∀ thread, after ≠ .running thread)
    (pendingOnce : (pending'.map Prod.fst).Nodup)
    (pendingHere : ∀ data, (some (some handle), data) ∈ pending' ↔ after = .resuming data)
    (pendingElse : ∀ callback data, callback ≠ some (some handle) →
      ((callback, data) ∈ pending' ↔ (callback, data) ∈ pending))
    (operationsOnce : (operations'.map Prod.fst).Nodup)
    (operationsHere : (∃ request, (handle, request) ∈ operations') ↔ after = .underway)
    (operationsElse : ∀ other request, other ≠ handle →
      ((other, request) ∈ operations' ↔ (other, request) ∈ operations)) :
    Listed (Function.update place handle after) active pending' operations' := by
  refine listed.move listed.activeOnce (fun thread => ?_) (fun _ _ _ => Iff.rfl) pendingOnce pendingHere
    pendingElse operationsOnce operationsHere operationsElse
  rw [listed.active]
  exact iff_of_false (before thread) (later thread)

theorem pending_here (listed : Listed place active pending operations) (data : Result X V) :
    (some (some handle), data) ∈ pending ↔ place handle = .resuming data := by
  rw [listed.pending]
  constructor
  · intro ⟨other, same, found⟩
    cases same
    exact found
  · exact fun found => ⟨handle, rfl, found⟩

end

theorem leave_active [DecidableEq ι] (listed : Listed place active pending operations) {others : List Nat}
    (top : active thread = handle :: others) :
    Listed (Function.update place handle .finished) (Function.update active thread others) pending operations := by
  have once := listed.activeOnce thread
  rw [top, List.nodup_cons] at once
  have was : place handle = .running thread := (listed.active thread handle).mp (by rw [top]; exact List.mem_cons_self)
  refine listed.move (fun other => ?_) (fun other => ?_) (fun other another apart => ?_) listed.pendingOnce
    (fun data => ?_) (fun _ _ _ => Iff.rfl) listed.operationsOnce ?_ (fun _ _ _ => Iff.rfl)
  · by_cases here : other = thread
    · subst here
      rw [Function.update_self]
      exact once.2
    · rw [Function.update_of_ne here]
      exact listed.activeOnce other
  · refine iff_of_false (fun member => ?_) nofun
    by_cases here : other = thread
    · subst here
      rw [Function.update_self] at member
      exact once.1 member
    · rw [Function.update_of_ne here, listed.active, was] at member
      cases member
      exact here rfl
  · by_cases here : other = thread
    · subst here
      rw [Function.update_self, top, List.mem_cons, or_iff_right apart]
    · rw [Function.update_of_ne here]
  · rw [listed.pending_here, was]
    exact iff_of_false nofun nofun
  · rw [listed.operations, was]
    exact iff_of_false nofun nofun

theorem join_active [DecidableEq ι] (listed : Listed place active pending operations) (finished : place handle = .finished)
    (thread : ι) : Listed (Function.update place handle (.running thread))
      (Function.update active thread (handle :: active thread)) pending operations := by
  have absent : ∀ other, handle ∉ active other := fun other member => by
    rw [listed.active, finished] at member
    cases member
  refine listed.move (fun other => ?_) (fun other => ?_) (fun other another apart => ?_) listed.pendingOnce
    (fun data => ?_) (fun _ _ _ => Iff.rfl) listed.operationsOnce ?_ (fun _ _ _ => Iff.rfl)
  · by_cases here : other = thread
    · subst here
      rw [Function.update_self, List.nodup_cons]
      exact ⟨absent other, listed.activeOnce other⟩
    · rw [Function.update_of_ne here]
      exact listed.activeOnce other
  · by_cases here : other = thread
    · subst here
      rw [Function.update_self]
      exact iff_of_true List.mem_cons_self rfl
    · rw [Function.update_of_ne here]
      exact iff_of_false (absent other) fun same => here (by cases same; rfl)
  · by_cases here : other = thread
    · subst here
      rw [Function.update_self, List.mem_cons, or_iff_right apart]
    · rw [Function.update_of_ne here]
  · rw [listed.pending_here, finished]
    exact iff_of_false nofun nofun
  · rw [listed.operations, finished]
    exact iff_of_false nofun nofun

theorem leave_pending (listed : Listed place active ((some (some handle), data) :: rest) operations) :
    Listed (Function.update place handle .finished) active rest operations := by
  have was : place handle = .resuming data := (listed.pending_here data).mp List.mem_cons_self
  have once := listed.pendingOnce
  rw [List.map_cons, List.nodup_cons] at once
  refine listed.move_inactive (by rw [was]; nofun) nofun once.2 (fun other => ?_) (fun callback other apart => ?_)
    listed.operationsOnce ?_ (fun _ _ _ => Iff.rfl)
  · exact iff_of_false (fun member => once.1 (List.mem_map.mpr ⟨_, member, rfl⟩)) nofun
  · rw [List.mem_cons, or_iff_right]
    exact fun same => apart (congrArg Prod.fst same)
  · rw [listed.operations, was]
    exact iff_of_false nofun nofun

theorem join_pending (listed : Listed place active pending operations) (finished : place handle = .finished)
    (data : Result X V) : Listed (Function.update place handle (.resuming data)) active
      ((some (some handle), data) :: pending) operations := by
  have absent : ∀ other, (some (some handle), other) ∉ pending := fun other member => by
    rw [listed.pending_here, finished] at member
    cases member
  refine listed.move_inactive (by rw [finished]; nofun) nofun ?_ (fun other => ?_) (fun callback other apart => ?_)
    listed.operationsOnce ?_ (fun _ _ _ => Iff.rfl)
  · rw [List.map_cons, List.nodup_cons]
    refine ⟨fun member => ?_, listed.pendingOnce⟩
    obtain ⟨⟨callback, other⟩, found, same⟩ := List.mem_map.mp member
    cases same
    exact absent other found
  · rw [List.mem_cons, or_iff_left (absent other)]
    constructor
    · intro same
      cases same
      rfl
    · intro same
      cases same
      rfl
  · rw [List.mem_cons, or_iff_right]
    exact fun same => apart (congrArg Prod.fst same)
  · rw [listed.operations, finished]
    exact iff_of_false nofun nofun

theorem leave_operations (listed : Listed place active pending operations) {index : Nat} {request : R}
    (found : operations[index]? = some (handle, request)) :
    Listed (Function.update place handle .finished) active pending (operations.eraseIdx index) := by
  have was : place handle = .underway := (listed.operations handle).mp ⟨request, List.mem_of_getElem? found⟩
  obtain ⟨inside, here⟩ := List.getElem?_eq_some_iff.mp found
  have split : operations.Perm ((handle, request) :: operations.eraseIdx index) := by
    rw [← here]
    exact (List.getElem_cons_eraseIdx_perm inside).symm
  have once := (split.map Prod.fst).nodup_iff.mp listed.operationsOnce
  rw [List.map_cons, List.nodup_cons] at once
  refine listed.move_inactive (by rw [was]; nofun) nofun listed.pendingOnce (fun data => ?_) (fun _ _ _ => Iff.rfl)
    once.2 ?_ (fun other another apart => ?_)
  · rw [listed.pending_here, was]
    exact iff_of_false nofun nofun
  · exact iff_of_false (fun ⟨_, member⟩ => once.1 (List.mem_map.mpr ⟨_, member, rfl⟩)) nofun
  · rw [split.mem_iff, List.mem_cons, or_iff_right]
    exact fun same => apart (congrArg Prod.fst same)

theorem join_operations (listed : Listed place active pending operations) (finished : place handle = .finished)
    (request : R) : Listed (Function.update place handle .underway) active pending
      (operations ++ [(handle, request)]) := by
  have absent : ∀ other, (handle, other) ∉ operations := fun other member => by
    have underway := (listed.operations handle).mp ⟨other, member⟩
    rw [finished] at underway
    cases underway
  refine listed.move_inactive (by rw [finished]; nofun) nofun listed.pendingOnce (fun data => ?_)
    (fun _ _ _ => Iff.rfl) ?_ ?_ (fun other another apart => ?_)
  · rw [listed.pending_here, finished]
    exact iff_of_false nofun nofun
  · rw [List.map_append, List.nodup_append']
    refine ⟨listed.operationsOnce, List.nodup_singleton _, ?_⟩
    rw [List.map_singleton, List.disjoint_singleton]
    intro member
    obtain ⟨⟨other, another⟩, found, same⟩ := List.mem_map.mp member
    cases same
    exact absent another found
  · exact iff_of_true ⟨request, List.mem_append_right _ (List.mem_singleton_self _)⟩ rfl
  · rw [List.mem_append, List.mem_singleton, or_iff_left]
    exact fun same => apart (congrArg Prod.fst same)

/-- No list names a promise that waits. -/
theorem move_unlisted (listed : Listed place active pending operations) {after : Place ι X V}
    (before : (∃ future, place handle = .waiting future) ∨ place handle = .finished)
    (later : (∃ future, after = .waiting future) ∨ after = .finished) :
    Listed (Function.update place handle after) active pending operations := by
  have unlisted : ∀ place : Place ι X V, (∃ future, place = .waiting future) ∨ place = .finished →
      (∀ thread, place ≠ .running thread) ∧ (∀ data, place ≠ .resuming data) ∧ place ≠ .underway := by
    intro place unlisted
    rcases unlisted with ⟨future, same⟩ | same
    · subst same
      exact ⟨nofun, nofun, nofun⟩
    · subst same
      exact ⟨nofun, nofun, nofun⟩
  obtain ⟨notRunning, notResuming, notUnderway⟩ := unlisted _ before
  obtain ⟨neverRunning, neverResuming, neverUnderway⟩ := unlisted _ later
  refine listed.move_inactive notRunning neverRunning listed.pendingOnce (fun data => ?_) (fun _ _ _ => Iff.rfl)
    listed.operationsOnce ?_ (fun _ _ _ => Iff.rfl)
  · rw [listed.pending_here]
    exact iff_of_false (notResuming data) (neverResuming data)
  · rw [listed.operations]
    exact iff_of_false notUnderway neverUnderway

theorem perm (listed : Listed place active pending operations) (permuted : pending.Perm rest) :
    Listed place active rest operations :=
  { listed with
    pendingOnce := (permuted.map Prod.fst).nodup_iff.mp listed.pendingOnce
    pending := fun callback data => permuted.mem_iff.symm.trans (listed.pending callback data) }

end Listed

variable (answer : R → Result X V)

/-- The result that the promise of a shared state is to be set with. -/
def expected (made : List (Origin R X V)) (index : Nat) : Option (Result X V) :=
  made[index]?.map (Origin.denote answer)

/-- In its frame, the rest of the body gives the result that is expected of the coroutine. -/
def Means (made : List (Origin R X V)) (claim : Nat → Claim) (handle : Nat) {held : Nat}
    (futures : Fin held → Nat) (body : Body R X V held) : Prop :=
  ∃ results : Fin held → Result X V, Function.Injective futures ∧
    (∀ index, claim (futures index) = .held handle ∧ handle < futures index ∧
      expected answer made (futures index) = some (results index)) ∧
    expected answer made handle = some (body.denote answer results)

def Runs (frame : Option (Frame R X V)) (made : List (Origin R X V)) (claim : Nat → Claim) (handle : Nat) : Prop :=
  ∃ held futures, ∃ body : Body R X V held, frame = some ⟨held, futures, .running body⟩ ∧
    Means answer made claim handle futures body

/-- The coroutine is suspended, and goes on rightly from this result. -/
def Suspended (frame : Option (Frame R X V)) (made : List (Origin R X V)) (claim : Nat → Claim) (handle : Nat)
    (data : Result X V) : Prop :=
  ∃ held futures, ∃ next : Result X V → Body R X V held, frame = some ⟨held, futures, .suspended next⟩ ∧
    Means answer made claim handle futures (next data)

/-- The frame of a coroutine fits its place. -/
def Stands (frame : Option (Frame R X V)) (made : List (Origin R X V)) (claim : Nat → Claim) (handle : Nat) :
    Place ι X V → Prop
  | .finished | .underway => frame = none
  | .running _ => Runs answer frame made claim handle
  | .waiting future => ∃ data, expected answer made future = some data ∧ handle < future ∧
      claim future = .awaited handle ∧ Suspended answer frame made claim handle data
  | .resuming data => Suspended answer frame made claim handle data

section

variable {answer} {made : List (Origin R X V)} {claim later : Nat → Claim} {handle held : Nat}
  {futures : Fin held → Nat} {origin : Origin R X V}

theorem lt_of_expected {index : Nat} {data : Result X V} (found : expected answer made index = some data) :
    index < made.length := by
  by_contra outside
  rw [expected, List.getElem?_eq_none (Nat.le_of_not_lt outside)] at found
  cases found

theorem expected_of_lt {index : Nat} (inside : index < made.length) :
    expected answer (made ++ [origin]) index = expected answer made index := by
  rw [expected, List.getElem?_append_left inside]
  rfl

@[simp] theorem expected_last :
    expected answer (made ++ [origin]) made.length = some (origin.denote answer) := by
  rw [expected, List.getElem?_concat_length]
  rfl

theorem expected_append {index : Nat} {data : Result X V} (found : expected answer made index = some data) :
    expected answer (made ++ [origin]) index = some data := by
  rw [expected_of_lt (lt_of_expected found), found]

/-- The frame is right as long as nobody else touches the claims of the coroutine. -/
theorem Means.keep {body : Body R X V held} (means : Means answer made claim handle futures body)
    (claims : ∀ index < made.length, (claim index).Of handle → later index = claim index) :
    Means answer made later handle futures body := by
  obtain ⟨results, distinct, holds, result⟩ := means
  refine ⟨results, distinct, fun index => ?_, result⟩
  obtain ⟨claimed, younger, found⟩ := holds index
  refine ⟨?_, younger, found⟩
  rw [claims _ (lt_of_expected found) (by rw [claimed]; exact rfl), claimed]

theorem Means.append {body : Body R X V held} (means : Means answer made claim handle futures body)
    (origin : Origin R X V) : Means answer (made ++ [origin]) claim handle futures body := by
  obtain ⟨results, distinct, holds, result⟩ := means
  refine ⟨results, distinct, fun index => ?_, expected_append result⟩
  obtain ⟨claimed, younger, found⟩ := holds index
  exact ⟨claimed, younger, expected_append found⟩

/-- The future of a new shared state goes into the frame. -/
theorem Means.push {body : Body R X V held} {next : Body R X V (held + 1)}
    (means : Means answer made claim handle futures body)
    (runs : ∀ results, body.denote answer results =
      next.denote answer (Fin.cons (α := fun _ => Result X V) (origin.denote answer) results)) :
    Means answer (made ++ [origin]) (Function.update claim made.length (.held handle)) handle
      (Fin.cons (α := fun _ => Nat) made.length futures) next := by
  obtain ⟨results, distinct, holds, result⟩ := means
  have old : ∀ index, futures index < made.length := fun index => lt_of_expected (holds index).2.2
  refine ⟨Fin.cons (α := fun _ => Result X V) (origin.denote answer) results, ?_, fun index => ?_, ?_⟩
  · rw [Fin.cons_injective_iff]
    exact ⟨fun ⟨index, same⟩ => Nat.ne_of_lt (old index) same, distinct⟩
  · cases index using Fin.cases with
    | zero =>
        simp only [Fin.cons_zero, Function.update_self, expected_last, and_true, true_and]
        exact lt_of_expected result
    | succ index =>
        obtain ⟨claimed, younger, found⟩ := holds index
        simp only [Fin.cons_succ, Function.update_of_ne (Nat.ne_of_lt (old index))]
        exact ⟨claimed, younger, expected_append found⟩
  · rw [expected_append result, runs]

/-- The awaited future leaves the frame, and its result goes on to the rest of the body. -/
theorem Means.await {futures : Fin (held + 1) → Nat} {future : Fin (held + 1)}
    {next : Result X V → Body R X V held} (means : Means answer made claim handle futures (.awaits future next)) :
    ∃ data, expected answer made (futures future) = some data ∧ handle < futures future ∧
      claim (futures future) = .held handle ∧
      Means answer made (Function.update claim (futures future) (.awaited handle)) handle
        (future.removeNth (α := fun _ => Nat) futures) (next data) := by
  obtain ⟨results, distinct, holds, result⟩ := means
  obtain ⟨claimed, younger, found⟩ := holds future
  refine ⟨results future, found, younger, claimed, future.removeNth (α := fun _ => Result X V) results, ?_,
    fun index => ?_, result⟩
  · exact distinct.comp Fin.succAbove_right_injective
  · have other : futures (future.succAbove index) ≠ futures future :=
      fun same => Fin.succAbove_ne future index (distinct same)
    simp only [Fin.removeNth_apply, Function.update_of_ne other]
    exact holds (future.succAbove index)

variable {frame : Option (Frame R X V)} {place : Place ι X V}

theorem Suspended.keep {data : Result X V} (suspended : Suspended answer frame made claim handle data)
    (claims : ∀ index < made.length, (claim index).Of handle → later index = claim index) :
    Suspended answer frame made later handle data := by
  obtain ⟨held, futures, next, found, means⟩ := suspended
  exact ⟨held, futures, next, found, means.keep claims⟩

theorem Stands.keep (stands : Stands answer frame made claim handle place)
    (claims : ∀ index < made.length, (claim index).Of handle → later index = claim index) :
    Stands answer frame made later handle place := by
  cases place with
  | finished | underway => exact stands
  | running thread =>
      obtain ⟨held, futures, body, found, means⟩ := stands
      exact ⟨held, futures, body, found, means.keep claims⟩
  | waiting future =>
      obtain ⟨data, result, younger, claimed, suspended⟩ := stands
      refine ⟨data, result, younger, ?_, suspended.keep claims⟩
      rw [claims future (lt_of_expected result) (by rw [claimed]; exact rfl), claimed]
  | resuming data => exact Suspended.keep stands claims

theorem Stands.append (stands : Stands answer frame made claim handle place) (origin : Origin R X V) :
    Stands answer frame (made ++ [origin]) claim handle place := by
  cases place with
  | finished | underway => exact stands
  | running thread =>
      obtain ⟨held, futures, body, found, means⟩ := stands
      exact ⟨held, futures, body, found, means.append origin⟩
  | waiting future =>
      obtain ⟨data, result, younger, claimed, held, futures, next, found, means⟩ := stands
      exact ⟨data, expected_append result, younger, claimed, held, futures, next, found, means.append origin⟩
  | resuming data =>
      obtain ⟨held, futures, next, found, means⟩ := stands
      exact ⟨held, futures, next, found, means.append origin⟩

end

end Dsac.Coroutines

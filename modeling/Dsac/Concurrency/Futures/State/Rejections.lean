import Dsac.Concurrency.Futures.State.Interleavings

namespace Dsac.Futures

open Dsac.Library

/-! Calls on a shared state one after the other, with the assertions compiled out. -/

variable {T E C : Type}

/-- How a call ends. -/
inductive Exit where
  | returned
  /-- `shared_state_unexpected_state` is thrown -/
  | threw
deriving DecidableEq, Repr

/-- A call that may be made in any state. -/
inductive Call (T E C : Type) where
  | setExecutor (exec : Option E)
  | setResult (result : T)
  | setCallback (callback : C)
deriving DecidableEq, Repr

namespace World

/-- A thread that runs alone to the end of its call. The world is what an exception leaves. -/
def alone (step : World T E C → Setting T E → Outcome (Setting T E × World T E C)) :
    Nat → Setting T E → World T E C → Outcome (Exit × World T E C)
  | _, .returned, world => .ok (.returned, world)
  | 0, _, _ => .error .fuel
  | fuel + 1, at_, world =>
      match step world at_ with
      | .ok (next, world) => alone step fuel next world
      | .error .unexpectedState => .ok (.threw, world)
      | .error fault => .error fault

/-- The assertion on entry is not evaluated; the other assertions of a thread that runs alone hold. -/
def call (world : World T E C) : Call T E C → Outcome (Exit × World T E C)
  | .setExecutor exec => .ok (.returned, { world with toSharedState := world.setExecutor exec })
  | .setResult result => alone (setResult result) 8 .emplacing world
  | .setCallback callback => alone (setCallback callback) 8 .emplacing world

/-- The caller catches the exception. -/
def step (world : World T E C) (call : Call T E C) : Outcome (World T E C) := do
  return (← world.call call).2

def initial : World T E C := { SharedState.new with deliveries := [] }

end World

/-- The result of the first `set_result`. -/
def firstResult (calls : List (Call T E C)) : Option T :=
  calls.findSome? fun | .setResult result => some result | _ => none

/-- The callback of the first `set_callback`. -/
def firstCallback (calls : List (Call T E C)) : Option C :=
  calls.findSome? fun | .setCallback callback => some callback | _ => none

/-- A call that throws changes none of the stored payloads, nor `state_`. -/
def Untouched (world : World T E C) (call : Call T E C) : Prop :=
  ∀ next, world.call call = .ok (.threw, next) →
    next.result_ = world.result_ ∧ next.callback_ = world.callback_ ∧ next.state_ = world.state_

/-- A `get_result` sees the first result, and the first callback has run on it once both are set. -/
structure SeesFirst (past : List (Call T E C)) (world : World T E C) : Prop where
  reads : ∀ result, firstResult past = some result →
    world.getResult .spinning = .ok .copying ∧ world.getResult .copying = .ok (.returned result)
  delivers : ∀ result callback, firstResult past = some result → firstCallback past = some callback →
    ∃ executor, world.deliveries = [.owed executor result callback]
  waits : firstResult past = none ∨ firstCallback past = none → world.deliveries = []

/-- A second payload is the one that is stored already. -/
def Repeats (world : World T E C) : Call T E C → Prop
  | .setExecutor _ => True
  | .setResult result => world.hasResult → world.result_ = some result
  | .setCallback callback => world.hasCallback → world.callback_ = some (some callback)

instance [DecidableEq T] [DecidableEq C] (world : World T E C) : DecidablePred (Repeats world)
  | .setExecutor _ => .isTrue trivial
  | .setResult _ | .setCallback _ => inferInstanceAs (Decidable (_ → _))

namespace World

variable {world : World T E C} {result : T} {callback : C}

theorem call_setResult_of_start (state : world.state_ = State.start) (result : T) :
    world.call (.setResult result) =
      .ok (.returned, { world with result_ := some result, state_ := State.onlyResult }) := by
  simp only [call, alone, setResult, state, if_true]

theorem call_setCallback_of_start (state : world.state_ = State.start) (callback : C) :
    world.call (.setCallback callback) =
      .ok (.returned, { world with callback_ := some (some callback), state_ := State.onlyCallback }) := by
  simp only [call, alone, setCallback, state, if_true]

/-- The second half makes the delivery; an executor takes the callback away. -/
theorem call_setResult_of_onlyCallback (state : world.state_ = State.onlyCallback)
    (stored : world.callback_ = some (some callback)) (result : T) :
    ∃ moved, world.call (.setResult result) = .ok (.returned, { world with
      result_ := some result
      callback_ := moved
      state_ := State.done
      deliveries := world.deliveries ++ [.owed world.executor_ result callback] }) := by
  cases environment : world.executor_ with
  | none =>
      refine ⟨world.callback_, ?_⟩
      simp only [call, alone, setResult, doCallback, SharedState.getExecutor, state, environment, stored,
        State.onlyCallback_ne_start, if_true, if_false, Delivery.owed]
  | some executor =>
      refine ⟨some none, ?_⟩
      simp only [call, alone, setResult, doCallback, SharedState.getExecutor, state, environment, stored,
        State.onlyCallback_ne_start, if_true, if_false, Delivery.owed, Option.map_some]

theorem call_setCallback_of_onlyResult (state : world.state_ = State.onlyResult)
    (stored : world.result_ = some result) (callback : C) :
    ∃ moved, world.call (.setCallback callback) = .ok (.returned, { world with
      callback_ := moved
      state_ := State.done
      deliveries := world.deliveries ++ [.owed world.executor_ result callback] }) := by
  cases environment : world.executor_ with
  | none =>
      refine ⟨some (some callback), ?_⟩
      simp only [call, alone, setCallback, doCallback, SharedState.getExecutor, state, environment, stored,
        State.onlyResult_ne_start, if_true, if_false, Delivery.owed]
  | some executor =>
      refine ⟨some none, ?_⟩
      simp only [call, alone, setCallback, doCallback, SharedState.getExecutor, state, environment, stored,
        State.onlyResult_ne_start, if_true, if_false, Delivery.owed, Option.map_some]

/-- The rejected result is stored all the same. -/
theorem call_setResult_of_hasResult (has : world.hasResult) (result : T) :
    world.call (.setResult result) = .ok (.threw, { world with result_ := some result }) := by
  have notStart : world.state_ ≠ State.start := fun state => by
    rw [SharedState.hasResult, state] at has
    exact absurd has (by decide)
  have notCallback : world.state_ ≠ State.onlyCallback := fun state => by
    rw [SharedState.hasResult, state] at has
    exact absurd has (by decide)
  simp only [call, alone, setResult, if_neg notStart, if_neg notCallback]

/-- The rejected callback is stored all the same. -/
theorem call_setCallback_of_hasCallback (has : world.hasCallback) (callback : C) :
    world.call (.setCallback callback) =
      .ok (.threw, { world with callback_ := some (some callback) }) := by
  have notStart : world.state_ ≠ State.start := fun state => by
    rw [SharedState.hasCallback, state] at has
    exact absurd has (by decide)
  have notResult : world.state_ ≠ State.onlyResult := fun state => by
    rw [SharedState.hasCallback, state] at has
    exact absurd has (by decide)
  simp only [call, alone, setCallback, if_neg notStart, if_neg notResult]

/-- Only the same payload goes unnoticed, in whichever state. -/
theorem repeats_of_untouched {call : Call T E C} (untouched : Untouched world call) : Repeats world call := by
  cases call with
  | setExecutor exec => trivial
  | setResult result => exact fun has => (untouched _ (call_setResult_of_hasResult has result)).1.symm
  | setCallback callback =>
      exact fun has => (untouched _ (call_setCallback_of_hasCallback has callback)).2.1.symm

end World

/-- Where the calls so far have led, if every second payload repeats the first. -/
inductive Follows (past : List (Call T E C)) (world : World T E C) : Prop where
  | start (state : world.state_ = State.start) (noResult : firstResult past = none)
      (noCallback : firstCallback past = none) (silent : world.deliveries = [])
  | onlyResult (result : T) (state : world.state_ = State.onlyResult) (stored : world.result_ = some result)
      (first : firstResult past = some result) (noCallback : firstCallback past = none)
      (silent : world.deliveries = [])
  | onlyCallback (callback : C) (state : world.state_ = State.onlyCallback)
      (stored : world.callback_ = some (some callback)) (noResult : firstResult past = none)
      (first : firstCallback past = some callback) (silent : world.deliveries = [])
  | done (result : T) (callback : C) (executor : Option E) (state : world.state_ = State.done)
      (stored : world.result_ = some result) (first : firstResult past = some result)
      (called : firstCallback past = some callback)
      (delivered : world.deliveries = [.owed executor result callback])

namespace Follows

variable {past : List (Call T E C)} {world : World T E C}

theorem seesFirst (follows : Follows past world) : SeesFirst past world := by
  have reads : ∀ result, world.hasResult = true → world.result_ = some result →
      world.getResult .spinning = .ok .copying ∧ world.getResult .copying = .ok (.returned result) := by
    intro result has stored
    exact ⟨by simp only [World.getResult, has, if_true], by simp only [World.getResult, stored]⟩
  cases follows with
  | start state noResult noCallback silent =>
      exact ⟨by rw [noResult]; rintro _ ⟨⟩, by rw [noResult]; rintro _ _ ⟨⟩, fun _ => silent⟩
  | onlyResult result state stored first noCallback silent =>
      refine ⟨fun other same => ?_, by rw [noCallback]; rintro _ _ _ ⟨⟩, fun _ => silent⟩
      cases first.symm.trans same
      exact reads result (by rw [SharedState.hasResult, state]; decide) stored
  | onlyCallback callback state stored noResult first silent =>
      exact ⟨by rw [noResult]; rintro _ ⟨⟩, by rw [noResult]; rintro _ _ ⟨⟩, fun _ => silent⟩
  | done result callback executor state stored first called delivered =>
      refine ⟨fun other same => ?_, fun other another same calledSame => ?_, fun missing => ?_⟩
      · cases first.symm.trans same
        exact reads result (by rw [SharedState.hasResult, state]; decide) stored
      · cases first.symm.trans same
        cases called.symm.trans calledSame
        exact ⟨executor, delivered⟩
      · rw [first, called] at missing
        rcases missing with missing | missing <;> cases missing

theorem firstResult_append (past : List (Call T E C)) (call : Call T E C) :
    firstResult (past ++ [call]) = (firstResult past).or (firstResult [call]) := List.findSome?_append

theorem firstCallback_append (past : List (Call T E C)) (call : Call T E C) :
    firstCallback (past ++ [call]) = (firstCallback past).or (firstCallback [call]) := List.findSome?_append

theorem append_of_none {call : Call T E C} (noResult : firstResult past = none)
    (noCallback : firstCallback past = none) :
    firstResult (past ++ [call]) = firstResult [call] ∧ firstCallback (past ++ [call]) = firstCallback [call] := by
  rw [firstResult_append, firstCallback_append, noResult, noCallback, Option.none_or, Option.none_or]
  exact ⟨rfl, rfl⟩

/-- What the call at hand is to show, if it returns. -/
theorem of_returned {call : Call T E C} {next : World T E C} (called : world.call call = .ok (.returned, next))
    (follows : Follows (past ++ [call]) next) :
    Untouched world call ∧ ∃ next, world.step call = .ok next ∧ Follows (past ++ [call]) next := by
  refine ⟨fun other threw => ?_, next, by rw [World.step, called]; rfl, follows⟩
  cases called.symm.trans threw

/-- What the call at hand is to show, if it throws. -/
theorem of_threw {call : Call T E C} (called : world.call call = .ok (.threw, world))
    (follows : Follows (past ++ [call]) world) :
    Untouched world call ∧ ∃ next, world.step call = .ok next ∧ Follows (past ++ [call]) next := by
  refine ⟨fun other threw => ?_, world, by rw [World.step, called]; rfl, follows⟩
  cases called.symm.trans threw
  exact ⟨rfl, rfl, rfl⟩

/-- What was set stays set first. -/
theorem firstResult_kept {call : Call T E C} {result : T} (first : firstResult past = some result) :
    firstResult (past ++ [call]) = some result := by
  rw [firstResult_append, first, Option.some_or]

theorem firstCallback_kept {call : Call T E C} {callback : C} (first : firstCallback past = some callback) :
    firstCallback (past ++ [call]) = some callback := by
  rw [firstCallback_append, first, Option.some_or]

theorem setExecutor (follows : Follows past world) (exec : Option E) :
    Follows (past ++ [.setExecutor exec]) { world with toSharedState := world.setExecutor exec } := by
  have result : firstResult (past ++ [.setExecutor exec]) = firstResult past := by
    rw [firstResult_append]
    exact Option.or_none
  have callback : firstCallback (past ++ [.setExecutor exec]) = firstCallback past := by
    rw [firstCallback_append]
    exact Option.or_none
  cases follows with
  | start state noResult noCallback silent =>
      exact .start state (result.trans noResult) (callback.trans noCallback) silent
  | onlyResult stored state kept first noCallback silent =>
      exact .onlyResult stored state kept (result.trans first) (callback.trans noCallback) silent
  | onlyCallback stored state kept noResult first silent =>
      exact .onlyCallback stored state kept (result.trans noResult) (callback.trans first) silent
  | done data stored executor state kept first called delivered =>
      exact .done data stored executor state kept (result.trans first) (callback.trans called) delivered

theorem setResult (follows : Follows past world) {result : T} (repeats : Repeats world (.setResult result)) :
    Untouched world (.setResult result) ∧
      ∃ next, world.step (.setResult result) = .ok next ∧ Follows (past ++ [.setResult result]) next := by
  cases follows with
  | start state noResult noCallback silent =>
      obtain ⟨first, none⟩ := append_of_none noResult noCallback
      exact of_returned (World.call_setResult_of_start state result) (.onlyResult result rfl rfl first none silent)
  | onlyCallback callback state stored noResult first silent =>
      obtain ⟨moved, called⟩ := World.call_setResult_of_onlyCallback state stored result
      refine of_returned called (.done result callback world.executor_ rfl rfl ?_ (firstCallback_kept first) ?_)
      · rw [firstResult_append, noResult]
        rfl
      · rw [silent, List.nil_append]
  | onlyResult old state stored first noCallback silent =>
      have has : world.hasResult = true := by
        rw [SharedState.hasResult, state]
        decide
      have called := World.call_setResult_of_hasResult has result
      rw [← repeats has] at called
      refine of_threw called (.onlyResult old state stored (firstResult_kept first) ?_ silent)
      rw [firstCallback_append, noCallback]
      rfl
  | done old callback executor state stored first called delivered =>
      have has : world.hasResult = true := by
        rw [SharedState.hasResult, state]
        decide
      have threw := World.call_setResult_of_hasResult has result
      rw [← repeats has] at threw
      exact of_threw threw
        (.done old callback executor state stored (firstResult_kept first) (firstCallback_kept called) delivered)

theorem setCallback (follows : Follows past world) {callback : C}
    (repeats : Repeats world (.setCallback callback)) :
    Untouched world (.setCallback callback) ∧
      ∃ next, world.step (.setCallback callback) = .ok next ∧ Follows (past ++ [.setCallback callback]) next := by
  cases follows with
  | start state noResult noCallback silent =>
      obtain ⟨none, first⟩ := append_of_none noResult noCallback
      exact of_returned (World.call_setCallback_of_start state callback)
        (.onlyCallback callback rfl rfl none first silent)
  | onlyResult result state stored first noCallback silent =>
      obtain ⟨moved, called⟩ := World.call_setCallback_of_onlyResult state stored callback
      refine of_returned called (.done result callback world.executor_ rfl stored (firstResult_kept first) ?_ ?_)
      · rw [firstCallback_append, noCallback]
        rfl
      · rw [silent, List.nil_append]
  | onlyCallback old state stored noResult first silent =>
      have has : world.hasCallback = true := by
        rw [SharedState.hasCallback, state]
        decide
      have called := World.call_setCallback_of_hasCallback has callback
      rw [← repeats has] at called
      refine of_threw called (.onlyCallback old state stored ?_ (firstCallback_kept first) silent)
      rw [firstResult_append, noResult]
      rfl
  | done result old executor state stored first called delivered =>
      have has : world.hasCallback = true := by
        rw [SharedState.hasCallback, state]
        decide
      have threw := World.call_setCallback_of_hasCallback has callback
      rw [← repeats has] at threw
      exact of_threw threw
        (.done result old executor state stored (firstResult_kept first) (firstCallback_kept called) delivered)

/-- A call that repeats what is stored, or is not a second one, changes nothing when it throws. -/
theorem step (follows : Follows past world) {call : Call T E C} (repeats : Repeats world call) :
    Untouched world call ∧ ∃ next, world.step call = .ok next ∧ Follows (past ++ [call]) next := by
  cases call with
  | setExecutor exec => exact of_returned rfl (follows.setExecutor exec)
  | setResult result => exact follows.setResult repeats
  | setCallback callback => exact follows.setCallback repeats

end Follows

theorem initial_follows : Follows [] (World.initial : World T E C) := .start rfl rfl rfl rfl

/-- **A rejected call stores its payload.** Before and after every call of a sequence the first
result is the one that is read and the first callback the one that is run, and a call that throws
changes nothing, if and only if every second payload is the one that is stored already. -/
theorem calls_keep_first_iff (calls : List (Call T E C)) :
    (∀ first rest, calls = first ++ rest → ∃ world : World T E C,
      run World.step World.initial first = .ok world ∧ SeesFirst first world ∧
        ∀ call ∈ rest.head?, Untouched world call) ↔
      Meets World.step Repeats World.initial calls := by
  constructor
  · intro keeps
    refine (meets_iff_prefixes World.step).mpr fun first call rest world split ran => ?_
    obtain ⟨_, again, _, untouched⟩ := keeps first (call :: rest) split
    cases ran.symm.trans again
    exact World.repeats_of_untouched (untouched call rfl)
  · rintro meets first rest rfl
    obtain ⟨world, ran, follows⟩ := run_invariant World.step Follows
      (fun past world call follows repeats => (follows.step repeats).2) initial_follows meets.of_append
    refine ⟨world, ran, follows.seesFirst, fun call next => ?_⟩
    obtain ⟨later, rfl⟩ : ∃ later, rest = call :: later := by
      cases rest with
      | nil => cases next
      | cons head later =>
          cases next
          exact ⟨later, rfl⟩
    exact (follows.step (meets.after_append World.step ran).1).1

/-- A second result replaces the first, and a second callback is run in place of the first. -/
theorem second_calls_overwrite :
    (∃ world next : World Nat Nat Nat, run World.step World.initial [.setResult 1] = .ok world ∧
      world.call (.setResult 2) = .ok (.threw, next) ∧ world.result_ = some 1 ∧ next.result_ = some 2) ∧
    ∃ world next last : World Nat Nat Nat, run World.step World.initial [.setCallback 1] = .ok world ∧
      world.call (.setCallback 2) = .ok (.threw, next) ∧ next.step (.setResult 3) = .ok last ∧
      last.deliveries = [.invoked 2 3] :=
  ⟨⟨_, _, rfl, rfl, rfl, rfl⟩, _, _, _, rfl, rfl, rfl, rfl⟩

end Dsac.Futures

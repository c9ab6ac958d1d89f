import Dsac.Concurrency.Futures.State.Rejections
import Dsac.Concurrency.Futures.Chain

namespace Dsac.Futures

open Dsac.Library

/-! Continuations chained with `then` on the future of a promise, by the calls that the promise
and the futures make on their shared states. -/

namespace World

variable {T E C : Type}

/-- The call with its assertion on entry. -/
def checked (world : World T E C) : Call T E C → Outcome (Exit × World T E C)
  | .setExecutor exec => world.call (.setExecutor exec)
  | .setResult result => if world.hasResult then .error .assertion else world.call (.setResult result)
  | .setCallback callback =>
      if world.hasCallback then .error .assertion else world.call (.setCallback callback)

/-- A thread that waits alone for the result. -/
def wait (world : World T E C) : Nat → Getting T → Outcome T
  | _, .returned data => .ok data
  | 0, _ => .error .fuel
  | fuel + 1, at_ => do wait world fuel (← world.getResult at_)

end World

variable {X : Type} {T : Nat → Type}

/-- The shared state of the future `index`. None has an executor; a callback applies its
continuation and sets the next promise. -/
abbrev Stage (X : Type) (T : Nat → Type) (index : Nat) :=
  SharedState (Result X (T index)) Empty (Result X (T index) → Result X (T (index + 1)))

/-- Promise `i` and its future share the state `i`. -/
structure Pipeline (X : Type) (T : Nat → Type) where
  states : ∀ index, Stage X T index := fun _ => SharedState.new
  /-- the promises whose state was released -/
  released : Nat → Bool := fun _ => false
  /-- the future at the end is that of this state -/
  thens : Nat := 0
  /-- the applications of continuations, in their order -/
  applied : List (Σ index, Result X (T index)) := []

/-- The calls of the user. -/
inductive PipelineCall where
  | then_
  | set
deriving DecidableEq, Repr

/-- `promise.set`. -/
abbrev Sets (X : Type) (T : Nat → Type) :=
  ∀ index, Result X (T index) → Pipeline X T → Outcome (Exit × Pipeline X T)

namespace Pipeline

-- the exception object of `shared_state_unexpected_state`
variable (unexpected : X)

/-- The callback that `then` subscribes. -/
def callback (set : Sets X T) (index : Nat) (continuation : Result X (T index) → Result X (T (index + 1)))
    (data : Result X (T index)) (pipeline : Pipeline X T) : Outcome (Exit × Pipeline X T) := do
  let pipeline := { pipeline with applied := pipeline.applied ++ [⟨index, data⟩] }
  match continuation data with
  | .error exception => set (index + 1) (.error exception) pipeline
  | .ok value =>
      match ← set (index + 1) (.ok value) pipeline with
      | (.returned, pipeline) => return (.returned, pipeline)
      | (.threw, pipeline) => set (index + 1) (.error unexpected) pipeline

/-- A call on one of the shared states, with the callback that it invokes. -/
def call (set : Sets X T) (index : Nat)
    (call : Call (Result X (T index)) Empty (Result X (T index) → Result X (T (index + 1))))
    (pipeline : Pipeline X T) : Outcome (Exit × Pipeline X T) := do
  let (exit, world) ← World.checked { pipeline.states index with deliveries := [] } call
  let pipeline := { pipeline with states := Function.update pipeline.states index world.toSharedState }
  match world.deliveries.head? with
  | some (.invoked continuation data) => pipeline.callback unexpected set index continuation data
  | _ => return (exit, pipeline)

/-- `promise.set`, with a bound on the nesting of callbacks. -/
def set : Nat → Sets X T
  | 0, _, _, _ => .error .fuel
  | depth + 1, index, result, pipeline =>
      if pipeline.released index then .error .assertion
      else
        let pipeline := { pipeline with released := Function.update pipeline.released index true }
        pipeline.call unexpected (set depth) index (.setResult result)

/-- `future.then`: the new promise and its future share the next state. -/
def then_ (pipeline : Pipeline X T)
    (continuation : Result X (T pipeline.thens) → Result X (T (pipeline.thens + 1))) :
    Outcome (Exit × Pipeline X T) :=
  { pipeline with thens := pipeline.thens + 1 }.call unexpected (set unexpected (pipeline.thens + 1))
    pipeline.thens (.setCallback continuation)

/-- `future.get` -/
def get (pipeline : Pipeline X T) (index : Nat) : Outcome (Result X (T index)) :=
  World.wait { pipeline.states index with deliveries := [] } 2 .spinning

/-- An exception that escapes from a call ends the program. -/
def finish : Exit × Pipeline X T → Outcome (Pipeline X T)
  | (.returned, pipeline) => .ok pipeline
  | (.threw, _) => .error .unexpectedState

variable (continuations : ∀ index, Result X (T index) → Result X (T (index + 1))) (first : Result X (T 0))

/-- The continuations are chained in their order, and the first promise is set with `first`. -/
def step (pipeline : Pipeline X T) : PipelineCall → Outcome (Pipeline X T)
  | .then_ => do finish (← pipeline.then_ unexpected (continuations pipeline.thens))
  | .set => do finish (← set unexpected (pipeline.thens + 1) 0 first pipeline)

/-- The result of the future `index`: the fold of the continuations before it. -/
def results : ∀ index, Result X (T index)
  | 0 => first
  | index + 1 => continuations index (results index)

/-- The applications of the first `count` continuations, each to the result so far. -/
def applications (count : Nat) : List (Σ index, Result X (T index)) :=
  (List.range count).map fun index => ⟨index, results continuations first index⟩

/-- The shared state by the halves that it has. -/
def stage (hasResult hasCallback : Bool) (index : Nat) : Stage X T index where
  executor_ := none
  result_ := if hasResult then some (results continuations first index) else none
  callback_ := if hasCallback then some (some (continuations index)) else none
  state_ :=
    match hasResult, hasCallback with
    | false, false => State.start
    | true, false => State.onlyResult
    | false, true => State.onlyCallback
    | true, true => State.done

/-- The states before `count` have their results, and those before `thens` their callbacks. -/
structure Reached (pipeline : Pipeline X T) (count thens applied : Nat) : Prop where
  states : ∀ index, pipeline.states index =
    stage continuations first (decide (index < count)) (decide (index < thens)) index
  released : ∀ index, pipeline.released index = decide (index < count)
  thens : pipeline.thens = thens
  applied : pipeline.applied = applications continuations first applied

variable {continuations first} {pipeline : Pipeline X T} {index count thens applied : Nat}

theorem stage_hasResult (hasResult hasCallback : Bool) :
    (stage continuations first hasResult hasCallback index).hasResult = hasResult := by
  cases hasResult <;> cases hasCallback <;> simp only [SharedState.hasResult, stage] <;> decide

theorem stage_hasCallback (hasResult hasCallback : Bool) :
    (stage continuations first hasResult hasCallback index).hasCallback = hasCallback := by
  cases hasResult <;> cases hasCallback <;> simp only [SharedState.hasCallback, stage] <;> decide

theorem stage_setResult (hasCallback : Bool) :
    World.checked { stage continuations first false hasCallback index with deliveries := [] }
        (.setResult (results continuations first index)) =
      .ok (.returned, { stage continuations first true hasCallback index with
        deliveries := if hasCallback then
          [.invoked (continuations index) (results continuations first index)] else [] }) := by
  simp only [World.checked, stage_hasResult, Bool.false_eq_true, if_false]
  cases hasCallback with
  | false => exact World.call_setResult_of_start rfl _
  | true =>
      simp only [World.call, World.alone, World.setResult, World.doCallback, SharedState.getExecutor, stage,
        State.onlyCallback_ne_start, Bool.false_eq_true, if_true, if_false, List.nil_append]

theorem stage_setCallback (hasResult : Bool) :
    World.checked { stage continuations first hasResult false index with deliveries := [] }
        (.setCallback (continuations index)) =
      .ok (.returned, { stage continuations first hasResult true index with
        deliveries := if hasResult then
          [.invoked (continuations index) (results continuations first index)] else [] }) := by
  simp only [World.checked, stage_hasCallback, Bool.false_eq_true, if_false]
  cases hasResult with
  | false => exact World.call_setCallback_of_start rfl _
  | true =>
      simp only [World.call, World.alone, World.setCallback, World.doCallback, SharedState.getExecutor, stage,
        State.onlyResult_ne_start, Bool.false_eq_true, if_true, if_false, List.nil_append]

theorem applications_succ (count : Nat) : applications continuations first (count + 1) =
    applications continuations first count ++ [⟨count, results continuations first count⟩] := by
  rw [applications, List.range_succ, List.map_append]
  rfl

/-- The callback sets the next promise with the next result, and does not throw if that does not. -/
theorem callback_eq (set : Sets X T) {next : Pipeline X T}
    (sets : set (index + 1) (results continuations first (index + 1))
      { pipeline with applied := pipeline.applied ++ [⟨index, results continuations first index⟩] } =
        .ok (.returned, next)) :
    pipeline.callback unexpected set index (continuations index) (results continuations first index) =
      .ok (.returned, next) := by
  rw [results] at sets
  unfold callback
  cases applied : continuations index (results continuations first index) with
  | error exception =>
      rw [applied] at sets
      exact sets
  | ok value =>
      rw [applied] at sets
      simp only [sets, Outcome.ok_bind]
      rfl

theorem Reached.apply (reached : Reached continuations first pipeline count thens index) :
    Reached continuations first
      { pipeline with applied := pipeline.applied ++ [⟨index, results continuations first index⟩] }
      count thens (index + 1) where
  states := reached.states
  released := reached.released
  thens := reached.thens
  applied := by rw [applications_succ, reached.applied]

/-- The state `count` gets its result. -/
theorem Reached.storeResult (reached : Reached continuations first pipeline count thens applied) :
    Reached continuations first
      { pipeline with
        released := Function.update pipeline.released count true
        states := Function.update pipeline.states count
          (stage continuations first true (decide (count < thens)) count) } (count + 1) thens applied := by
  refine ⟨fun index => ?_, fun index => ?_, reached.thens, reached.applied⟩
  · rcases eq_or_ne index count with rfl | different
    · simp
    · have same : index < count + 1 ↔ index < count := by omega
      simp only [Function.update_of_ne different, reached.states, same]
  · rcases eq_or_ne index count with rfl | different
    · simp
    · have same : index < count + 1 ↔ index < count := by omega
      simp only [Function.update_of_ne different, reached.released, same]

/-- The state `thens` gets its callback. -/
theorem Reached.storeCallback (reached : Reached continuations first pipeline count thens applied) :
    Reached continuations first
      { pipeline with
        thens := pipeline.thens + 1
        states := Function.update pipeline.states thens
          (stage continuations first (decide (thens < count)) true thens) } count (thens + 1) applied := by
  refine ⟨fun index => ?_, reached.released, by rw [reached.thens], reached.applied⟩
  rcases eq_or_ne index thens with rfl | different
  · simp
  · have same : index < thens + 1 ↔ index < thens := by omega
    simp only [Function.update_of_ne different, reached.states, same]

/-- The promise after the results so far is set, and the delivery runs to the last future. -/
theorem Reached.set (depth : Nat) (reached : Reached continuations first pipeline index thens index)
    (within : index ≤ thens) (deep : thens - index < depth) :
    ∃ next, Pipeline.set unexpected depth index (results continuations first index) pipeline =
        .ok (.returned, next) ∧ Reached continuations first next (thens + 1) thens thens := by
  induction depth generalizing index pipeline with
  | zero => omega
  | succ depth inductionHypothesis =>
      have unset : pipeline.released index = false := by
        rw [reached.released]
        exact decide_eq_false (Nat.lt_irrefl index)
      have state : pipeline.states index =
          stage continuations first false (decide (index < thens)) index := by
        rw [reached.states, decide_eq_false (Nat.lt_irrefl index)]
      have stored := reached.storeResult
      simp only [Pipeline.set, unset, Bool.false_eq_true, if_false, call, state, stage_setResult, Outcome.ok_bind]
      by_cases more : index < thens
      · obtain ⟨next, ran, reached⟩ := inductionHypothesis stored.apply more (by omega)
        refine ⟨next, ?_, reached⟩
        simp only [more, decide_true, if_true, List.head?_cons]
        rw [decide_eq_true more] at ran
        exact callback_eq unexpected _ ran
      · obtain rfl : index = thens := by omega
        simp only [Nat.lt_irrefl, decide_false, Bool.false_eq_true, if_false, List.head?_nil] at stored ⊢
        exact ⟨_, rfl, stored⟩

/-- One more `then`, before the promise is set. -/
theorem Reached.then_before (reached : Reached continuations first pipeline 0 thens 0) :
    ∃ next, step unexpected continuations first pipeline .then_ = .ok next ∧
      Reached continuations first next 0 (thens + 1) 0 := by
  obtain rfl := reached.thens
  have state : pipeline.states pipeline.thens = stage continuations first false false pipeline.thens := by
    rw [reached.states, decide_eq_false (Nat.lt_irrefl pipeline.thens)]
    rfl
  refine ⟨_, ?_, reached.storeCallback⟩
  simp only [step, then_, call, state, stage_setCallback, Outcome.ok_bind, Bool.false_eq_true, if_false,
    List.head?_nil, Nat.not_lt_zero, decide_false]
  rfl

/-- One more `then`, after the promise was set. -/
theorem Reached.then_after (reached : Reached continuations first pipeline (thens + 1) thens thens) :
    ∃ next, step unexpected continuations first pipeline .then_ = .ok next ∧
      Reached continuations first next (thens + 1 + 1) (thens + 1) (thens + 1) := by
  obtain rfl := reached.thens
  have state : pipeline.states pipeline.thens = stage continuations first true false pipeline.thens := by
    rw [reached.states, decide_eq_true (Nat.lt_succ_self pipeline.thens),
      decide_eq_false (Nat.lt_irrefl pipeline.thens)]
  obtain ⟨next, ran, reached⟩ := reached.storeCallback.apply.set unexpected (pipeline.thens + 1)
    le_rfl (by omega)
  refine ⟨next, ?_, reached⟩
  rw [decide_eq_true (Nat.lt_succ_self pipeline.thens)] at ran
  simp only [step, then_, call, state, stage_setCallback, Outcome.ok_bind, if_true, List.head?_cons]
  rw [callback_eq unexpected _ ran]
  rfl

theorem run_before (count : Nat) (reached : Reached continuations first pipeline 0 thens 0) :
    ∃ next, run (step unexpected continuations first) pipeline (List.replicate count .then_) = .ok next ∧
      Reached continuations first next 0 (thens + count) 0 := by
  induction count generalizing pipeline thens with
  | zero => exact ⟨pipeline, rfl, reached⟩
  | succ count inductionHypothesis =>
      obtain ⟨next, stepped, reached⟩ := reached.then_before unexpected
      obtain ⟨last, ran, reached⟩ := inductionHypothesis reached
      refine ⟨last, ?_, by rwa [Nat.add_right_comm, Nat.add_assoc] at reached⟩
      rw [List.replicate_succ, run, stepped]
      exact ran

theorem run_after (count : Nat) (reached : Reached continuations first pipeline (thens + 1) thens thens) :
    ∃ next, run (step unexpected continuations first) pipeline (List.replicate count .then_) = .ok next ∧
      Reached continuations first next (thens + count + 1) (thens + count) (thens + count) := by
  induction count generalizing pipeline thens with
  | zero => exact ⟨pipeline, rfl, reached⟩
  | succ count inductionHypothesis =>
      obtain ⟨next, stepped, reached⟩ := reached.then_after unexpected
      obtain ⟨last, ran, reached⟩ := inductionHypothesis reached
      refine ⟨last, ?_, by rwa [Nat.add_right_comm thens 1 count, Nat.add_assoc thens count 1] at reached⟩
      rw [List.replicate_succ, run, stepped]
      exact ran

theorem Reached.get (reached : Reached continuations first pipeline count thens applied) (before : index < count) :
    pipeline.get index = .ok (results continuations first index) := by
  have state : pipeline.states index =
      stage continuations first true (decide (index < thens)) index := by
    rw [reached.states, decide_eq_true before]
  simp only [Pipeline.get, World.wait, World.getResult, state, stage_hasResult, if_true, Outcome.ok_bind]
  rfl

theorem initial_reached : Reached continuations first {} 0 0 0 where
  states _ := rfl
  released _ := rfl
  thens := rfl
  applied := rfl

/-- **Chained continuations fold the result.** Wherever `set` comes among the calls of `then`, the
last future holds the fold of the continuations over the first result, and each continuation was
applied once, to the result so far. -/
theorem then_folds (unexpected : X) (continuations : ∀ index, Result X (T index) → Result X (T (index + 1)))
    (first : Result X (T 0)) (before after : Nat) :
    ∃ pipeline, run (step unexpected continuations first) {}
        (List.replicate before .then_ ++ .set :: List.replicate after .then_) = .ok pipeline ∧
      pipeline.thens = before + after ∧
      pipeline.get (before + after) = .ok (results continuations first (before + after)) ∧
      pipeline.applied = applications continuations first (before + after) := by
  obtain ⟨waiting, ran, reached⟩ := run_before unexpected before
    (initial_reached : Reached continuations first {} 0 0 0)
  rw [Nat.zero_add] at reached
  have chained : waiting.thens = before := reached.thens
  obtain ⟨settled, sets, done⟩ := reached.set unexpected (before + 1) (Nat.zero_le _) (by omega)
  obtain ⟨last, later, reached⟩ := run_after unexpected after done
  refine ⟨last, ?_, reached.thens, reached.get (Nat.lt_succ_self _), reached.applied⟩
  have stepped : step unexpected continuations first waiting .set = .ok settled := by
    rw [step, chained]
    exact congrArg (· >>= finish) sets
  simp only [run_append, ran, run, stepped, later]

end Pipeline

end Dsac.Futures

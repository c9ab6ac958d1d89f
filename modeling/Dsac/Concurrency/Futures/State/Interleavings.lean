import Dsac.Concurrency.Futures.State

namespace Dsac.Futures

open Dsac.Library

/-! What holds between one `set_result`, one `set_callback` and any number of
`get_result` calls on a fresh shared state, in whichever order they take steps. -/

variable {T E C ι : Type}

/-- The delivery that the two calls owe to the user. -/
def Delivery.owed (executor : Option E) (result : T) (callback : C) : Delivery T E C :=
  match executor with
  | none => .invoked callback result
  | some executor => .submitted executor (some (some callback)) result

/-- The ways in which `state_` may move. -/
inductive State.Moves : State → State → Prop where
  | stays (state : State) : Moves state state
  | resultFirst : Moves State.start State.onlyResult
  | callbackFirst : Moves State.start State.onlyCallback
  | callbackSecond : Moves State.onlyResult State.done
  | resultSecond : Moves State.onlyCallback State.done

theorem State.onlyResult_ne_start : State.onlyResult ≠ State.start := by decide

theorem State.onlyCallback_ne_start : State.onlyCallback ≠ State.start := by decide

/-- The values that the thread holds are those of the shared state. -/
def DoCallback.Holds (executor : Option E) (result : T) : DoCallback T E → Prop
  | .asserting | .copying => True
  | .choosing data => data = result
  | .running data chosen => data = result ∧ chosen = executor

namespace Setting

/-- The call may still find `state_` at `start`. -/
def Racing : Setting T E → Prop
  | .asserting | .emplacing | .loading | .exchanging => True
  | .storing | .calling _ | .returned => False

/-- The call has not changed `state_`. -/
def Joining (at_ : Setting T E) : Prop := at_.Racing ∨ at_ = .storing

/-- The payload of the call is stored. -/
def Stored : Setting T E → Prop
  | .asserting | .emplacing => False
  | .loading | .exchanging | .storing | .calling _ | .returned => True

/-- The most steps that the call can still take. -/
def remaining : Setting T E → Nat
  | .asserting => 9
  | .emplacing => 8
  | .loading => 7
  | .exchanging => 6
  | .storing => 5
  | .calling .asserting => 4
  | .calling .copying => 3
  | .calling (.choosing _) => 2
  | .calling (.running _ _) => 1
  | .returned => 0

theorem returned_of_remaining {at_ : Setting T E} (spent : at_.remaining = 0) :
    at_ = .returned := by
  cases at_ with
  | calling next => cases next <;> cases spent
  | returned => rfl
  | _ => cases spent

end Setting

section

variable (executor : Option E) (result : T) (callback : C)

/-- Where the two calls can be, by the value of `state_`. -/
inductive Phase (world : World T E C) (producer consumer : Setting T E) : Prop where
  | racing (state : world.state_ = State.start) (producing : producer.Racing)
      (consuming : consumer.Racing) (silent : world.deliveries = [])
  | resultFirst (state : world.state_ = State.onlyResult) (producing : producer = .returned)
      (consuming : consumer.Joining) (silent : world.deliveries = [])
  | callbackFirst (state : world.state_ = State.onlyCallback) (producing : producer.Joining)
      (consuming : consumer = .returned) (silent : world.deliveries = [])
  | producerCalls (next : DoCallback T E) (state : world.state_ = State.done)
      (producing : producer = .calling next) (holds : next.Holds executor result)
      (consuming : consumer = .returned) (silent : world.deliveries = [])
  | consumerCalls (next : DoCallback T E) (state : world.state_ = State.done)
      (producing : producer = .returned) (consuming : consumer = .calling next)
      (holds : next.Holds executor result) (silent : world.deliveries = [])
  | delivered (state : world.state_ = State.done) (producing : producer = .returned)
      (consuming : consumer = .returned)
      (once : world.deliveries = [.owed executor result callback])

/-- The invariant of every interleaving, readers apart. -/
structure Safe (world : World T E C) (producer consumer : Setting T E) : Prop where
  phase : Phase executor result callback world producer consumer
  environment : world.executor_ = executor
  resultStored : producer.Stored → world.result_ = some result
  callbackStored : consumer.Stored → world.deliveries = [] →
    world.callback_ = some (some callback)

/-- What one step of either call does to the world. -/
structure Effect (world next : World T E C) (before after : Setting T E) : Prop where
  moves : State.Moves world.state_ next.state_
  keepsResult : world.result_ = some result → next.result_ = some result
  delivers : next.deliveries ≠ world.deliveries →
    world.result_ = some result ∧ world.callback_ = some (some callback)
  progress : after.remaining ≤ before.remaining - 1

variable {executor result callback}

/-- A step that makes no delivery, moves `state_` as allowed and keeps the result. -/
theorem Effect.quiet {world next : World T E C} {before after : Setting T E}
    (moves : State.Moves world.state_ next.state_)
    (keepsResult : world.result_ = some result → next.result_ = some result)
    (silent : next.deliveries = world.deliveries) (progress : after.remaining < before.remaining) :
    Effect result callback world next before after :=
  ⟨moves, keepsResult, fun other => absurd silent other, Nat.le_sub_one_of_lt progress⟩

/-- `do_callback` on a satisfied shared state either goes one step on, or makes the
delivery and returns. -/
theorem World.doCallback_step {world : World T E C} {current : DoCallback T E}
    (state : world.state_ = State.done) (environment : world.executor_ = executor)
    (resultStored : world.result_ = some result)
    (callbackStored : world.callback_ = some (some callback)) (silent : world.deliveries = [])
    (holds : current.Holds executor result) :
    (∃ line, world.doCallback current = .ok (.calling line, world) ∧ line.Holds executor result ∧
        Effect result callback world world (.calling current) (.calling line)) ∨
      ∃ moved, world.doCallback current = .ok (.returned, { world with
        callback_ := moved
        deliveries := [.owed executor result callback] }) := by
  cases current with
  | asserting =>
      exact Or.inl ⟨.copying, by simp only [doCallback, state, if_true], trivial,
        .quiet (.stays _) id rfl (Nat.lt_succ_self _)⟩
  | copying =>
      exact Or.inl ⟨.choosing result, by simp only [doCallback, resultStored], rfl,
        .quiet (.stays _) id rfl (Nat.lt_succ_self _)⟩
  | choosing data =>
      exact Or.inl ⟨.running data executor,
        by simp only [doCallback, SharedState.getExecutor, environment], ⟨holds, rfl⟩,
        .quiet (.stays _) id rfl (Nat.lt_succ_self _)⟩
  | running data chosen =>
      obtain ⟨rfl, rfl⟩ := holds
      cases chosen with
      | none =>
          refine Or.inr ⟨world.callback_, ?_⟩
          simp only [doCallback, callbackStored, Delivery.owed, silent, List.nil_append]
          rw [← callbackStored]
      | some executor =>
          refine Or.inr ⟨some none, ?_⟩
          simp only [doCallback, callbackStored, Delivery.owed, silent, List.nil_append,
            Option.map_some]

/-- No delivery is made before both calls have returned. -/
theorem Phase.silent {world : World T E C} {producer consumer : Setting T E}
    (phase : Phase executor result callback world producer consumer)
    (pending : producer ≠ .returned ∨ consumer ≠ .returned) : world.deliveries = [] := by
  rcases phase with ⟨_, _, _, silent⟩ | ⟨_, _, _, silent⟩ | ⟨_, _, _, silent⟩ |
    ⟨_, _, _, _, _, silent⟩ | ⟨_, _, _, _, _, silent⟩ | ⟨_, producing, consuming, _⟩
  case delivered => exact (pending.elim (· producing) (· consuming)).elim
  all_goals exact silent

theorem Phase.producer_races {world next : World T E C} {producer consumer after : Setting T E}
    (phase : Phase executor result callback world producer consumer) (racing : producer.Racing)
    (still : after.Racing) (state : next.state_ = world.state_)
    (deliveries : next.deliveries = world.deliveries) :
    Phase executor result callback next after consumer := by
  rcases phase with ⟨held, _, consuming, silent⟩ | ⟨_, rfl, _, _⟩ | ⟨held, _, consuming, silent⟩ |
    ⟨_, _, rfl, _, _, _⟩ | ⟨_, _, rfl, _, _, _⟩ | ⟨_, rfl, _, _⟩
  · exact .racing (state.trans held) still consuming (deliveries.trans silent)
  · exact racing.elim
  · exact .callbackFirst (state.trans held) (Or.inl still) consuming (deliveries.trans silent)
  all_goals exact racing.elim

theorem Phase.consumer_races {world next : World T E C} {producer consumer after : Setting T E}
    (phase : Phase executor result callback world producer consumer) (racing : consumer.Racing)
    (still : after.Racing) (state : next.state_ = world.state_)
    (deliveries : next.deliveries = world.deliveries) :
    Phase executor result callback next producer after := by
  rcases phase with ⟨held, producing, _, silent⟩ | ⟨held, producing, _, silent⟩ | ⟨_, _, rfl, _⟩ |
    ⟨_, _, _, _, rfl, _⟩ | ⟨_, _, _, rfl, _, _⟩ | ⟨_, _, rfl, _⟩
  · exact .racing (state.trans held) producing still (deliveries.trans silent)
  · exact .resultFirst (state.trans held) producing (Or.inl still) (deliveries.trans silent)
  all_goals exact racing.elim

/-- While `set_result` races, `state_` tells whether `set_callback` has come first. -/
theorem Phase.of_producer_racing {world : World T E C} {producer consumer : Setting T E}
    (phase : Phase executor result callback world producer consumer) (racing : producer.Racing) :
    world.state_ = State.start ∧ consumer.Racing ∨
      world.state_ = State.onlyCallback ∧ consumer = .returned := by
  rcases phase with ⟨held, _, consuming, _⟩ | ⟨_, rfl, _, _⟩ | ⟨held, _, consuming, _⟩ |
    ⟨_, _, rfl, _, _, _⟩ | ⟨_, _, rfl, _, _, _⟩ | ⟨_, rfl, _, _⟩
  · exact Or.inl ⟨held, consuming⟩
  · exact racing.elim
  · exact Or.inr ⟨held, consuming⟩
  all_goals exact racing.elim

/-- While `set_callback` races, `state_` tells whether `set_result` has come first. -/
theorem Phase.of_consumer_racing {world : World T E C} {producer consumer : Setting T E}
    (phase : Phase executor result callback world producer consumer) (racing : consumer.Racing) :
    world.state_ = State.start ∧ producer.Racing ∨
      world.state_ = State.onlyResult ∧ producer = .returned := by
  rcases phase with ⟨held, producing, _, _⟩ | ⟨held, producing, _, _⟩ | ⟨_, _, rfl, _⟩ |
    ⟨_, _, _, _, rfl, _⟩ | ⟨_, _, _, rfl, _, _⟩ | ⟨_, _, rfl, _⟩
  · exact Or.inl ⟨held, producing⟩
  · exact Or.inr ⟨held, producing⟩
  all_goals exact racing.elim

theorem Phase.of_producer_storing {world : World T E C} {consumer : Setting T E}
    (phase : Phase executor result callback world .storing consumer) :
    world.state_ = State.onlyCallback ∧ consumer = .returned := by
  rcases phase with ⟨_, racing, _, _⟩ | ⟨_, other, _, _⟩ | ⟨state, _, consuming, _⟩ |
    ⟨_, _, other, _, _, _⟩ | ⟨_, _, other, _, _, _⟩ | ⟨_, other, _, _⟩
  case racing => exact racing.elim
  case callbackFirst => exact ⟨state, consuming⟩
  all_goals cases other

theorem Phase.of_producer_calling {world : World T E C} {current : DoCallback T E}
    {consumer : Setting T E}
    (phase : Phase executor result callback world (.calling current) consumer) :
    world.state_ = State.done ∧ current.Holds executor result ∧ consumer = .returned := by
  rcases phase with ⟨_, racing, _, _⟩ | ⟨_, other, _, _⟩ | ⟨_, joining, _, _⟩ |
    ⟨_, state, producing, holds, consuming, _⟩ | ⟨_, _, other, _, _, _⟩ | ⟨_, other, _, _⟩
  case racing => exact racing.elim
  case callbackFirst => exact joining.elim False.elim nofun
  case producerCalls =>
      cases producing
      exact ⟨state, holds, consuming⟩
  all_goals cases other

theorem World.setResult_step {world : World T E C} {producer consumer : Setting T E}
    (safe : Safe executor result callback world producer consumer) :
    ∃ after next, world.setResult result producer = .ok (after, next) ∧
      Safe executor result callback next after consumer ∧
      Effect result callback world next producer after := by
  obtain ⟨phase, environment, resultStored, callbackStored⟩ := safe
  cases producer with
  | asserting =>
      have unset : world.hasResult = false := by
        rcases phase.of_producer_racing trivial with ⟨state, _⟩ | ⟨state, _⟩ <;>
          rw [SharedState.hasResult, state] <;> decide
      refine ⟨.emplacing, world, by simp only [setResult, unset, Bool.false_eq_true, if_false],
        ?_, .quiet (.stays _) id rfl (Nat.lt_succ_self _)⟩
      exact ⟨phase.producer_races trivial trivial rfl rfl, environment, False.elim, callbackStored⟩
  | emplacing =>
      refine ⟨.loading, { world with result_ := some result }, rfl,
        ?_, .quiet (.stays _) (fun _ => rfl) rfl (Nat.lt_succ_self _)⟩
      exact ⟨phase.producer_races trivial trivial rfl rfl, environment, fun _ => rfl, callbackStored⟩
  | loading =>
      rcases phase.of_producer_racing trivial with ⟨state, _⟩ | ⟨state, consuming⟩
      · refine ⟨.exchanging, world, by simp only [setResult, state, if_true],
          ?_, .quiet (.stays _) id rfl (Nat.lt_succ_self _)⟩
        exact ⟨phase.producer_races trivial trivial rfl rfl, environment, resultStored, callbackStored⟩
      · refine ⟨.storing, world, by simp only [setResult, state, State.onlyCallback_ne_start,
          if_false, if_true], ?_, .quiet (.stays _) id rfl (by simp only [Setting.remaining]; omega)⟩
        exact ⟨.callbackFirst state (Or.inr rfl) consuming (phase.silent (Or.inl nofun)),
          environment, resultStored, callbackStored⟩
  | exchanging =>
      have silent : world.deliveries = [] := phase.silent (Or.inl nofun)
      rcases phase.of_producer_racing trivial with ⟨state, consuming⟩ | ⟨state, consuming⟩
      · refine ⟨.returned, { world with state_ := State.onlyResult },
          by simp only [setResult, state, if_true],
          ?_, .quiet (state ▸ .resultFirst) id rfl (by simp only [Setting.remaining]; omega)⟩
        exact ⟨.resultFirst rfl rfl (Or.inl consuming) silent, environment, resultStored, callbackStored⟩
      · refine ⟨.storing, world, by simp only [setResult, state, State.onlyCallback_ne_start,
          if_false, if_true], ?_, .quiet (.stays _) id rfl (Nat.lt_succ_self _)⟩
        exact ⟨.callbackFirst state (Or.inr rfl) consuming silent,
          environment, resultStored, callbackStored⟩
  | storing =>
      have silent : world.deliveries = [] := phase.silent (Or.inl nofun)
      obtain ⟨state, consuming⟩ := phase.of_producer_storing
      refine ⟨.calling .asserting, { world with state_ := State.done }, rfl,
        ?_, .quiet (state ▸ .resultSecond) id rfl (Nat.lt_succ_self _)⟩
      exact ⟨.producerCalls .asserting rfl rfl trivial consuming silent,
        environment, resultStored, callbackStored⟩
  | calling current =>
      have silent : world.deliveries = [] := phase.silent (Or.inl nofun)
      obtain ⟨state, holds, rfl⟩ := phase.of_producer_calling
      have called := callbackStored trivial silent
      rcases doCallback_step state environment (resultStored trivial) called silent holds with
        ⟨line, stepped, lineHolds, effect⟩ | ⟨moved, stepped⟩
      · refine ⟨.calling line, world, stepped, ?_, effect⟩
        exact ⟨.producerCalls line state rfl lineHolds rfl silent,
          environment, resultStored, callbackStored⟩
      · refine ⟨.returned, _, stepped, ?_, .stays _, id, fun _ => ⟨resultStored trivial, called⟩,
          Nat.zero_le _⟩
        exact ⟨.delivered state rfl rfl rfl, environment, resultStored, fun _ => nofun⟩
  | returned =>
      exact ⟨.returned, world, rfl, ⟨phase, environment, resultStored, callbackStored⟩,
        .stays _, id, fun other => absurd rfl other, le_refl _⟩

/-- At most the owed delivery is made. -/
theorem Phase.deliveries {world : World T E C} {producer consumer : Setting T E}
    (phase : Phase executor result callback world producer consumer) :
    world.deliveries = [] ∨ world.deliveries = [.owed executor result callback] := by
  rcases phase with ⟨_, _, _, silent⟩ | ⟨_, _, _, silent⟩ | ⟨_, _, _, silent⟩ |
    ⟨_, _, _, _, _, silent⟩ | ⟨_, _, _, _, _, silent⟩ | ⟨_, _, _, once⟩
  case delivered => exact Or.inr once
  all_goals exact Or.inl silent

/-- The owed delivery is made once both calls have returned. -/
theorem Phase.of_returned {world : World T E C} {producer consumer : Setting T E}
    (phase : Phase executor result callback world producer consumer)
    (produced : producer = .returned) (consumed : consumer = .returned) :
    world.state_ = State.done ∧ world.deliveries = [.owed executor result callback] := by
  subst produced consumed
  rcases phase with ⟨_, racing, _, _⟩ | ⟨_, _, joining, _⟩ | ⟨_, joining, _, _⟩ |
    ⟨_, _, other, _, _, _⟩ | ⟨_, _, _, other, _, _⟩ | ⟨state, _, _, once⟩
  case racing => exact racing.elim
  case resultFirst => exact joining.elim False.elim nofun
  case callbackFirst => exact joining.elim False.elim nofun
  case delivered => exact ⟨state, once⟩
  all_goals cases other

theorem Phase.of_consumer_storing {world : World T E C} {producer : Setting T E}
    (phase : Phase executor result callback world producer .storing) :
    world.state_ = State.onlyResult ∧ producer = .returned := by
  rcases phase with ⟨_, _, racing, _⟩ | ⟨state, producing, _, _⟩ | ⟨_, _, other, _⟩ |
    ⟨_, _, _, _, other, _⟩ | ⟨_, _, _, other, _, _⟩ | ⟨_, _, other, _⟩
  case racing => exact racing.elim
  case resultFirst => exact ⟨state, producing⟩
  all_goals cases other

theorem Phase.of_consumer_calling {world : World T E C} {producer : Setting T E}
    {current : DoCallback T E}
    (phase : Phase executor result callback world producer (.calling current)) :
    world.state_ = State.done ∧ current.Holds executor result ∧ producer = .returned := by
  rcases phase with ⟨_, _, racing, _⟩ | ⟨_, _, joining, _⟩ | ⟨_, _, other, _⟩ |
    ⟨_, _, _, _, other, _⟩ | ⟨_, state, producing, consuming, holds, _⟩ | ⟨_, _, other, _⟩
  case racing => exact racing.elim
  case resultFirst => exact joining.elim False.elim nofun
  case consumerCalls =>
      cases consuming
      exact ⟨state, holds, producing⟩
  all_goals cases other

theorem World.setCallback_step {world : World T E C} {producer consumer : Setting T E}
    (safe : Safe executor result callback world producer consumer) :
    ∃ after next, world.setCallback callback consumer = .ok (after, next) ∧
      Safe executor result callback next producer after ∧
      Effect result callback world next consumer after := by
  obtain ⟨phase, environment, resultStored, callbackStored⟩ := safe
  cases consumer with
  | asserting =>
      have unset : world.hasCallback = false := by
        rcases phase.of_consumer_racing trivial with ⟨state, _⟩ | ⟨state, _⟩ <;>
          rw [SharedState.hasCallback, state] <;> decide
      refine ⟨.emplacing, world, by simp only [setCallback, unset, Bool.false_eq_true, if_false],
        ?_, .quiet (.stays _) id rfl (Nat.lt_succ_self _)⟩
      exact ⟨phase.consumer_races trivial trivial rfl rfl, environment, resultStored, False.elim⟩
  | emplacing =>
      refine ⟨.loading, { world with callback_ := some (some callback) }, rfl,
        ?_, .quiet (.stays _) id rfl (Nat.lt_succ_self _)⟩
      exact ⟨phase.consumer_races trivial trivial rfl rfl, environment, resultStored, fun _ _ => rfl⟩
  | loading =>
      rcases phase.of_consumer_racing trivial with ⟨state, _⟩ | ⟨state, producing⟩
      · refine ⟨.exchanging, world, by simp only [setCallback, state, if_true],
          ?_, .quiet (.stays _) id rfl (Nat.lt_succ_self _)⟩
        exact ⟨phase.consumer_races trivial trivial rfl rfl, environment, resultStored, callbackStored⟩
      · refine ⟨.storing, world, by simp only [setCallback, state, State.onlyResult_ne_start,
          if_false, if_true], ?_, .quiet (.stays _) id rfl (by simp only [Setting.remaining]; omega)⟩
        exact ⟨.resultFirst state producing (Or.inr rfl) (phase.silent (Or.inr nofun)),
          environment, resultStored, callbackStored⟩
  | exchanging =>
      have silent : world.deliveries = [] := phase.silent (Or.inr nofun)
      rcases phase.of_consumer_racing trivial with ⟨state, producing⟩ | ⟨state, producing⟩
      · refine ⟨.returned, { world with state_ := State.onlyCallback },
          by simp only [setCallback, state, if_true],
          ?_, .quiet (state ▸ .callbackFirst) id rfl (by simp only [Setting.remaining]; omega)⟩
        exact ⟨.callbackFirst rfl (Or.inl producing) rfl silent, environment, resultStored, callbackStored⟩
      · refine ⟨.storing, world, by simp only [setCallback, state, State.onlyResult_ne_start,
          if_false, if_true], ?_, .quiet (.stays _) id rfl (Nat.lt_succ_self _)⟩
        exact ⟨.resultFirst state producing (Or.inr rfl) silent,
          environment, resultStored, callbackStored⟩
  | storing =>
      have silent : world.deliveries = [] := phase.silent (Or.inr nofun)
      obtain ⟨state, producing⟩ := phase.of_consumer_storing
      refine ⟨.calling .asserting, { world with state_ := State.done }, rfl,
        ?_, .quiet (state ▸ .callbackSecond) id rfl (Nat.lt_succ_self _)⟩
      exact ⟨.consumerCalls .asserting rfl producing rfl trivial silent,
        environment, resultStored, callbackStored⟩
  | calling current =>
      have silent : world.deliveries = [] := phase.silent (Or.inr nofun)
      obtain ⟨state, holds, rfl⟩ := phase.of_consumer_calling
      have called := callbackStored trivial silent
      rcases doCallback_step state environment (resultStored trivial) called silent holds with
        ⟨line, stepped, lineHolds, effect⟩ | ⟨moved, stepped⟩
      · refine ⟨.calling line, world, stepped, ?_, effect⟩
        exact ⟨.consumerCalls line state rfl rfl lineHolds silent,
          environment, resultStored, callbackStored⟩
      · refine ⟨.returned, _, stepped, ?_, .stays _, id, fun _ => ⟨resultStored trivial, called⟩,
          Nat.zero_le _⟩
        exact ⟨.delivered state rfl rfl rfl, environment, resultStored, fun _ => nofun⟩
  | returned =>
      exact ⟨.returned, world, rfl, ⟨phase, environment, resultStored, callbackStored⟩,
        .stays _, id, fun other => absurd rfl other, le_refl _⟩

/-- `get_result` leaves its loop only when the result can be read. -/
theorem Safe.result_of_hasResult {world : World T E C} {producer consumer : Setting T E}
    (safe : Safe executor result callback world producer consumer)
    (found : world.hasResult = true) : world.result_ = some result := by
  have unset : ∀ state, state = State.start ∨ state = State.onlyCallback →
      world.state_ ≠ state := by
    rintro state (rfl | rfl) held
    all_goals
      rw [SharedState.hasResult, held] at found
      exact absurd found (by decide)
  rcases safe.phase with ⟨state, _, _, _⟩ | ⟨_, rfl, _, _⟩ | ⟨state, _, _, _⟩ |
    ⟨_, _, rfl, _, _, _⟩ | ⟨_, _, rfl, _, _, _⟩ | ⟨_, rfl, _, _⟩
  case racing => exact absurd state (unset _ (Or.inl rfl))
  case callbackFirst => exact absurd state (unset _ (Or.inr rfl))
  all_goals exact safe.resultStored trivial

/-- What a thread inside `get_result` may rely on. -/
def Getting.Holds (world : World T E C) (result : T) : Getting T → Prop
  | .spinning => True
  | .copying => world.result_ = some result
  | .returned data => world.result_ = some result ∧ data = result

theorem World.getResult_step {world : World T E C} {producer consumer : Setting T E}
    {current : Getting T} (safe : Safe executor result callback world producer consumer)
    (holds : current.Holds world result) :
    ∃ after, world.getResult current = .ok after ∧ after.Holds world result := by
  cases current with
  | spinning =>
      refine ⟨_, rfl, ?_⟩
      split
      next found => exact safe.result_of_hasResult found
      next => trivial
  | copying =>
      have stored : world.result_ = some result := holds
      exact ⟨.returned result, by simp only [getResult, stored], stored, rfl⟩
  | returned data => exact ⟨.returned data, rfl, holds⟩

theorem Getting.Holds.kept {world next : World T E C} {before after : Setting T E}
    (effect : Effect result callback world next before after) {current : Getting T}
    (holds : current.Holds world result) : current.Holds next result := by
  cases current with
  | spinning => trivial
  | copying => exact effect.keepsResult holds
  | returned data => exact ⟨effect.keepsResult holds.1, holds.2⟩

namespace System

variable [DecidableEq ι]

/-- The invariant of an interleaving once the threads in `past` took a step each. -/
structure Invariant (executor : Option E) (result : T) (callback : C) (past : List (Thread ι))
    (system : System T E C ι) : Prop where
  safe : Safe executor result callback system.world system.producer system.consumer
  reading : ∀ index, (system.readers index).Holds system.world result
  producing : system.producer.remaining ≤ 9 - past.count .producer
  consuming : system.consumer.remaining ≤ 9 - past.count .consumer

theorem initial_invariant (executor : Option E) (result : T) (callback : C) :
    Invariant executor result callback [] (initial executor : System T E C ι) where
  safe := ⟨.racing rfl trivial trivial rfl, rfl, False.elim, False.elim⟩
  reading _ := trivial
  producing := le_refl _
  consuming := le_refl _

/-- Every step of every thread succeeds and keeps the invariant. -/
theorem step_invariant {past : List (Thread ι)} {system : System T E C ι}
    (invariant : Invariant executor result callback past system) (thread : Thread ι) :
    ∃ next, system.step result callback thread = .ok next ∧
      Invariant executor result callback (past ++ [thread]) next ∧
      State.Moves system.world.state_ next.world.state_ ∧
      (next.world.deliveries ≠ system.world.deliveries →
        system.world.result_ = some result ∧ system.world.callback_ = some (some callback)) := by
  obtain ⟨safe, reading, producing, consuming⟩ := invariant
  cases thread with
  | producer =>
      obtain ⟨producer, world, stepped, safe, effect⟩ := World.setResult_step safe
      refine ⟨{ system with world, producer }, by simp only [step, stepped], ?_, effect.moves,
        effect.delivers⟩
      refine ⟨safe, fun index => (reading index).kept effect, ?_, ?_⟩
      · have progress := effect.progress
        simp only [List.count_append, List.count_singleton_self]
        omega
      · simpa using consuming
  | consumer =>
      obtain ⟨consumer, world, stepped, safe, effect⟩ := World.setCallback_step safe
      refine ⟨{ system with world, consumer }, by simp only [step, stepped], ?_, effect.moves,
        effect.delivers⟩
      refine ⟨safe, fun index => (reading index).kept effect, ?_, ?_⟩
      · simpa using producing
      · have progress := effect.progress
        simp only [List.count_append, List.count_singleton_self]
        omega
  | reader index =>
      obtain ⟨reader, stepped, holds⟩ := World.getResult_step safe (reading index)
      refine ⟨{ system with readers := Function.update system.readers index reader },
        by simp only [step, stepped], ?_, .stays _, fun other => absurd rfl other⟩
      refine ⟨safe, fun other => ?_, by simpa using producing, by simpa using consuming⟩
      by_cases same : other = index
      · subst same
        simpa only [Function.update_self] using holds
      · simpa only [Function.update_of_ne same] using reading other

/-- **The callback is delivered exactly once.** In every interleaving of one
`set_result`, one `set_callback` and any number of `get_result` calls, no step faults;
once nine steps are granted to each of the two calls both have returned, and then the
one delivery owed has been made. Before that there is at most this delivery, which is
made when both payloads are stored. -/
theorem interleave_delivers_once (executor : Option E) (result : T) (callback : C)
    (schedule : List (Thread ι)) :
    ∃ system : System T E C ι, interleave executor result callback schedule = .ok system ∧
      (system.world.deliveries = [] ∨
        system.world.deliveries = [.owed executor result callback]) ∧
      (system.producer = .returned → system.consumer = .returned →
        system.world.state_ = State.done ∧
          system.world.deliveries = [.owed executor result callback]) ∧
      (9 ≤ schedule.count .producer → system.producer = .returned) ∧
      (9 ≤ schedule.count .consumer → system.consumer = .returned) ∧
      (∀ index data, system.readers index = .returned data → data = result) ∧
      ∀ thread, ∃ next, system.step result callback thread = .ok next ∧
        State.Moves system.world.state_ next.world.state_ ∧
        (next.world.deliveries ≠ system.world.deliveries →
          system.world.result_ = some result ∧
            system.world.callback_ = some (some callback)) := by
  obtain ⟨system, ran, invariant⟩ := run_invariant (step result callback)
    (Invariant executor result callback)
    (fun past state thread held _ =>
      let ⟨next, stepped, kept, _⟩ := step_invariant held thread
      ⟨next, stepped, kept⟩)
    (initial_invariant executor result callback)
    (Meets.of_forall (step result callback) (fun _ _ => trivial) (initial executor) schedule)
  rw [List.nil_append] at invariant
  have steps := step_invariant invariant
  obtain ⟨safe, reading, producing, consuming⟩ := invariant
  refine ⟨system, ran, safe.phase.deliveries, safe.phase.of_returned, ?_, ?_, ?_, ?_⟩
  · intro granted
    exact Setting.returned_of_remaining (by omega)
  · intro granted
    exact Setting.returned_of_remaining (by omega)
  · intro index data returned
    have holds := reading index
    rw [returned] at holds
    exact holds.2
  · intro thread
    obtain ⟨next, stepped, _, moves, delivers⟩ := steps thread
    exact ⟨next, stepped, moves, delivers⟩

end System

end

end Dsac.Futures

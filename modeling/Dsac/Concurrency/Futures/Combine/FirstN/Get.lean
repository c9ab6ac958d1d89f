import Dsac.Concurrency.Futures.Combine.Exposure

namespace Dsac.Futures

open Dsac.Library

/-! What `get` yields on the future that `first_n` returns. -/

variable {m : Nat} {R O E D P : Type}

namespace Session

variable {lambda : Lambda (Fin m) R O D P} {results : Fin m → R}

theorem combine_returned {system next : Combination m R O E D P} {future : Option Addr}
    (returned : system.combinator = .returned future) (stepped : system.combine results = .ok next) :
    next = system := by
  simp only [Combination.combine, returned, Except.ok.injEq] at stepped
  exact stepped.symm

theorem agent_combinator {system next : Combination m R O E D P} {agent : Agent m} {future : Option Addr}
    (returned : system.combinator = .returned future)
    (stepped : system.step lambda results agent = .ok next) : next.combinator = .returned future := by
  cases agent with
  | combinator => rw [combine_returned returned stepped, returned]
  | completer index =>
      rw [Combination.step, Combination.complete] at stepped
      split at stepped
      · cases stepped
      · cases stepped
        exact returned
  | callback index =>
      rw [Combination.step, Combination.call] at stepped
      grind

/-- Whoever is inside `get` was returned the future that it reads. -/
def Follows (session : Session m R O E D P) : Prop :=
  ∀ state at_, session.reader = .getting state at_ → session.system.combinator = .returned (some state)

theorem read_follows {session next : Session m R O E D P} (before : session.Follows)
    (stepped : session.read = .ok next) : next.Follows := by
  rw [Follows, read_system stepped]
  intro state at_ reading
  rw [Session.read] at stepped
  cases place : session.reader with
  | waiting =>
      simp only [place] at stepped
      cases returned : session.system.combinator with
      | returned future =>
          cases future with
          | none => simp only [returned, reduceCtorEq] at stepped
          | some other =>
              simp only [returned, Except.ok.injEq] at stepped
              subst stepped
              cases reading
              rfl
      | _ =>
          simp only [returned, Except.ok.injEq] at stepped
          subst stepped
          cases place.symm.trans reading
  | getting other before_ =>
      have here := before other before_ place
      simp only [place] at stepped
      cases loaded : load session.system.states other with
      | error fault => simp only [loaded, reduceCtorEq] at stepped
      | ok world =>
          simp only [loaded] at stepped
          cases got : world.getResult before_ with
          | error fault => simp only [got, reduceCtorEq] at stepped
          | ok after =>
              simp only [got, Except.ok.injEq] at stepped
              subst stepped
              cases reading
              exact here

theorem step_follows (session : Session m R O E D P) (participant : Participant m)
    (next : Session m R O E D P) (before : session.Follows)
    (stepped : session.step lambda results participant = .ok next) : next.Follows := by
  cases participant with
  | agent agent =>
      obtain ⟨system, moved, rfl⟩ := step_agent stepped
      intro state at_ reading
      exact agent_combinator (before state at_ reading) moved
  | reader => exact read_follows before stepped

theorem interleave_follows {session : Session m R O E D P} {start : Combination m R O E D P}
    {schedule : List (Participant m)}
    (ran : interleave lambda results (.ok start) schedule = .ok session) : session.Follows :=
  run_keeps (step lambda results) Follows step_follows ran nofun

end Session

namespace FirstN

variable {n : Nat} {results : Fin m → R} {executors : Fin m → Option E}
  {schedule : List (Participant m)} {session : Session m R (Except String (List R)) E (Context m R) (Place R)}
  {state : Addr} {data : Except String (List R)}

/-- `get` yields the results of the first `n` futures to complete. -/
theorem get_winners (enough : n ≤ m)
    (ran : Session.interleave (firstN n) results (call n executors) schedule = .ok session)
    (got : session.reader = .getting state (.returned data)) :
    let winners := session.system.context.winners n
    data = .ok (((List.finRange m).filter (· ∈ winners)).map results) ∧ winners.length = n ∧
      winners.Nodup := by
  have all : (List.finRange m).take m = List.finRange m := List.take_of_length_le (by simp)
  have called : call n executors = .ok (Combination.initial (firstN n : Lambda (Fin m) R _ _ _) executors) :=
    if_neg (Nat.not_lt.mpr enough)
  rw [called] at ran
  have returned := Session.interleave_follows ran state _ got
  have runs := @Session.run_refers m R (Except String (List R)) E (Context m R) (Place R) (firstN n)
    results _ (disciplined results n)
    (fun context _ delivered => delivered =
        .ok (((List.finRange m).filter (· ∈ context.winners n)).map results) ∧
      (context.winners n).length = n ∧ (context.winners n).Nodup)
    (fun context places index delivered inv => by
      cases inv.scanning with
      | published _ full admitted nobody =>
          refine ⟨by rw [gather, all], ?_, inv.winners_distinct⟩
          have winners := inv.winners_length
          have completed := (inv.all_stored full).1
          omega) executors schedule
  obtain ⟨refers, meets⟩ := runs
  obtain ⟨other, same, refer⟩ := refers (meets session state ran returned)
  cases ran.symm.trans same
  obtain ⟨_, index, _, combined⟩ := refer.yields state data got
  exact combined

theorem producer_consumer {input next : System R E (Fin m) Empty} {result : R} {index : Fin m}
    (stepped : input.step result index .producer = .ok next) : next.consumer = input.consumer := by
  rw [System.step] at stepped
  cases set : input.world.setResult result input.producer with
  | error fault => simp only [set, reduceCtorEq] at stepped
  | ok outcome =>
      simp only [set, Except.ok.injEq] at stepped
      subst stepped
      rfl

/-- No callback is delivered before it is subscribed. -/
theorem silent_of_unsubscribed {input : System R E (Fin m) Empty} {executor : Option E} {result : R}
    {index : Fin m} (safe : Safe executor result index input.world input.producer input.consumer)
    (unsubscribed : input.consumer = .asserting) : input.world.deliveries = [] := by
  cases safe.phase with
  | racing _ _ _ silent | resultFirst _ _ _ silent => exact silent
  | callbackFirst _ _ consuming | producerCalls _ _ _ _ consuming | consumerCalls _ _ _ consuming
  | delivered _ _ consuming => cases unsubscribed.symm.trans consuming

/-- What is left of the threads when there are too few futures: no callback is subscribed, and
the returned state holds the error. -/
structure Refused (results : Fin m → R) (executors : Fin m → Option E)
    (session : Session m R (Except String (List R)) E (Context m R) (Place R)) : Prop where
  inputs : ∀ index, Safe (executors index) (results index) index (session.system.inputs index).world
    (session.system.inputs index).producer (session.system.inputs index).consumer
  unsubscribed : ∀ index, (session.system.inputs index).consumer = .asserting
  waiting : ∀ index, session.system.callbacks index = .waiting
  returned : ∃ state world, session.system.combinator = .returned (some state) ∧
    session.system.states.get state = some world ∧ world.result_ = some (.error "not enough futures")
  follows : session.Follows
  reading : ∀ state data, session.reader = .getting state (.returned data) →
    data = .error "not enough futures"

theorem read_refused {session next : Session m R (Except String (List R)) E (Context m R) (Place R)}
    (refused : Refused results executors session) (stepped : session.read = .ok next)
    (got : next.reader = .getting state (.returned data)) : data = .error "not enough futures" := by
  rw [Session.read] at stepped
  cases place : session.reader with
  | waiting =>
      obtain ⟨returned, _, here, _⟩ := refused.returned
      simp only [place, here, Except.ok.injEq] at stepped
      subst stepped
      cases got
  | getting other at_ =>
      obtain ⟨returned, world, here, found, failed⟩ := refused.returned
      cases here.symm.trans (refused.follows other at_ place)
      simp only [place, load_of_get found] at stepped
      cases at_ with
      | spinning =>
          simp only [World.getResult, Except.ok.injEq] at stepped
          subst stepped
          split at got <;> cases got
      | copying =>
          simp only [World.getResult, failed, Except.ok.injEq] at stepped
          subst stepped
          cases got
          rfl
      | returned old =>
          simp only [World.getResult, Except.ok.injEq] at stepped
          subst stepped
          cases got
          exact refused.reading _ _ place

theorem refused_step (session : Session m R (Except String (List R)) E (Context m R) (Place R))
    (participant : Participant m)
    (next : Session m R (Except String (List R)) E (Context m R) (Place R))
    (refused : Refused results executors session)
    (stepped : session.step (firstN n) results participant = .ok next) :
    Refused results executors next := by
  have follows := Session.step_follows session participant next refused.follows stepped
  cases participant with
  | reader =>
      have same := Session.read_system stepped
      refine ⟨?_, ?_, ?_, ?_, follows, ?_⟩
      · rw [same]
        exact refused.inputs
      · rw [same]
        exact refused.unsubscribed
      · rw [same]
        exact refused.waiting
      · rw [same]
        exact refused.returned
      · intro state data got
        obtain ⟨returned, world, here, found, failed⟩ := refused.returned
        exact read_refused refused stepped got
  | agent agent =>
      obtain ⟨system, moved, rfl⟩ := Session.step_agent stepped
      cases agent with
      | combinator =>
          obtain ⟨state, world, returned, found, failed⟩ := refused.returned
          rw [Session.combine_returned returned moved]
          exact refused
      | completer index =>
          obtain ⟨input, completed, safe⟩ := Combination.producer_step (refused.inputs index)
          have updated : system = { session.system with
              inputs := Function.update session.system.inputs index input } := by
            simp only [Combination.step, Combination.complete, completed, Except.ok.injEq] at moved
            exact moved.symm
          subst updated
          refine ⟨Combination.inputs_update refused.inputs safe, ?_, refused.waiting, refused.returned, follows,
            refused.reading⟩
          intro other
          by_cases here : other = index
          · subst here
            show (Function.update session.system.inputs other input other).consumer = _
            rw [Function.update_self, producer_consumer completed]
            exact refused.unsubscribed other
          · show (Function.update session.system.inputs index input other).consumer = _
            rw [Function.update_of_ne here]
            exact refused.unsubscribed other
      | callback index =>
          have silent : Combination.received (session.system.inputs index) = .ok none := by
            rw [Combination.received, silent_of_unsubscribed (refused.inputs index) (refused.unsubscribed index)]
          simp only [Combination.step, Combination.call, refused.waiting index, silent, Except.ok.injEq] at moved
          subst moved
          exact refused

/-- With too few futures `get` yields the error, whatever happens to the futures. -/
theorem get_few (few : m < n)
    (ran : Session.interleave (firstN n) results (call n executors) schedule = .ok session)
    (got : session.reader = .getting state (.returned data)) : data = .error "not enough futures" := by
  obtain ⟨start, future, world, called, returned, found, _, failed, inputs, callbacks⟩ :=
    @call_of_few m R E n few executors
  rw [called] at ran
  have refused : Refused results executors { system := start, reader := .waiting } := by
    refine ⟨?_, ?_, callbacks, ⟨future, world, returned, found, failed⟩, nofun, nofun⟩
    · intro index
      show Safe _ _ _ (start.inputs index).world (start.inputs index).producer (start.inputs index).consumer
      rw [inputs index]
      exact (System.initial_invariant (executors index) (results index) index).safe
    · intro index
      show (start.inputs index).consumer = .asserting
      rw [inputs index]
      rfl
  exact (run_keeps (Session.step (firstN n) results) (Refused results executors) refused_step ran refused).reading
    state data got

end FirstN

end Dsac.Futures

import Dsac.Concurrency.Futures.Combine.FirstN.Quorum
import Dsac.Concurrency.Futures.Combine.FirstOf

namespace Dsac.Futures

open Dsac.Library

/-! The future that a combinator returns, with respect to the shared state that its
callbacks fulfil. -/

variable {m : Nat} {R O E D P : Type}

def Looping.hasReturned : Looping → Bool
  | .returned _ => true
  | .subscribing _ | .calling _ | .extracting | .copying => false

def Callback.isReleasing : Callback P O E → Bool
  | .releasing _ => true
  | .waiting | .running _ | .fulfilling _ _ _ | .returned => false

theorem Combination.Fulfilling.safe {result : O} {held : Option Addr} {world : World O E Unit}
    {callback : Callback P O E} (stage : Fulfilling result held world callback) :
    ∃ at_, Safe none result () world at_ .asserting := by
  cases stage with
  | releasing _ safe => exact ⟨_, safe⟩
  | fulfilling at_ _ safe => exact ⟨at_, safe⟩
  | returned _ safe => exact ⟨_, safe⟩

theorem hasResult_of_returned {result : O} {world : World O E Unit}
    (safe : Safe none result () world .returned .asserting) : world.hasResult = true := by
  rcases safe.phase with ⟨_, racing, _, _⟩ | ⟨state, _, _, _⟩ | ⟨_, _, other, _⟩ |
    ⟨_, _, _, _, other, _⟩ | ⟨_, _, _, other, _, _⟩ | ⟨_, _, other, _⟩
  case racing => exact racing.elim
  case resultFirst =>
      rw [SharedState.hasResult, state]
      decide
  all_goals cases other

/-- What was published stays published, and nothing more is. -/
theorem Combination.published_of_prefix {results : Fin m → R} {executors : Fin m → Option E}
    {inv : D → (Fin m → Progress P) → Option (Fin m × O) → Prop}
    {system : Combination m R O E D P} (sound : system.Sound inv results executors)
    {setter : Fin m × O} (more : [setter] <+: system.published) :
    system.published = [setter] := by
  obtain ⟨_, _, publication⟩ := sound.publishes
  cases publication with
  | awaited unset => simp [unset] at more
  | set index result world once => simpa [once, eq_comm] using more

namespace Session

/-- The step does not release the state of the promise before the combinator has
returned its future. -/
def ReturnsFirst (session : Session m R O E D P) : Participant m → Prop
  | .agent (.callback index) =>
      (session.system.callbacks index).isReleasing = true → session.system.combinator.hasReturned = true
  | .agent .combinator | .agent (.completer _) | .reader => True

instance (session : Session m R O E D P) (participant : Participant m) :
    Decidable (session.ReturnsFirst participant) := by
  unfold ReturnsFirst
  split <;> infer_instance

/-- The returned future and the callbacks refer to the shared state that the promise was
made with, and `get` yields the result that a callback published. -/
structure Refers (combined : D → Fin m → O → Prop) (session : Session m R O E D P) : Prop where
  future : ∀ future, session.system.combinator = .returned future →
    future = some Combination.promised
  fulfils : ∀ index state result at_,
    session.system.callbacks index = .fulfilling state result at_ → state = Combination.promised
  ready : ∀ index result, session.system.published = [(index, result)] →
    session.system.callbacks index = .returned →
    ∃ world, session.system.states.get Combination.promised = some world ∧
      world.hasResult = true ∧ world.result_ = some result
  yields : ∀ state data, session.reader = .getting state (.returned data) →
    state = Combination.promised ∧
      ∃ index, session.system.published = [(index, data)] ∧ combined session.system.context index data

/-- What a thread inside `get` may rely on. -/
def Reading (system : Combination m R O E D P) : Reader O → Prop
  | .waiting => True
  | .getting state at_ => state = Combination.promised ∧ (at_ = .spinning ∨
      ∃ index result world, system.published = [(index, result)] ∧
        system.states.get Combination.promised = some world ∧ at_.Holds world result)

variable {lambda : Lambda (Fin m) R O D P} {results : Fin m → R} {executors : Fin m → Option E}
  {inv : D → (Fin m → Progress P) → Option (Fin m × O) → Prop}

/-- The invariant of the runs that release the promise's state last. -/
structure Sound (inv : D → (Fin m → Progress P) → Option (Fin m × O) → Prop) (results : Fin m → R)
    (executors : Fin m → Option E) (session : Session m R O E D P) : Prop where
  system : session.system.Sound inv results executors
  held : session.system.combinator.hasReturned = false →
    session.system.promise.state_ = some Combination.promised
  future : ∀ future, session.system.combinator = .returned future →
    future = some Combination.promised
  reading : Reading session.system session.reader

/-- The state of the promise is released while the combinator is still to return. -/
structure Lost (session : Session m R O E D P) : Prop where
  released : session.system.promise.state_ = none
  future : ∀ future, session.system.combinator = .returned future → future = none

theorem hasReturned_iff {combinator : Looping} :
    combinator.hasReturned = true ↔ ∃ future, combinator = .returned future := by
  cases combinator with
  | returned future => exact ⟨fun _ => ⟨future, rfl⟩, fun _ => rfl⟩
  | _ => exact ⟨nofun, nofun⟩

/-- The shared state of the promise, with the call of `set_result` that it goes through. -/
theorem shared_of_sound {system : Combination m R O E D P}
    (sound : system.Sound inv results executors) :
    ∃ world, system.states.get Combination.promised = some world ∧
      (system.published = [] ∧ world.hasResult = false ∨
        ∃ index result at_, system.published = [(index, result)] ∧
          Safe none result () world at_ .asserting) := by
  obtain ⟨published, _, publication⟩ := sound.publishes
  cases publication with
  | awaited unset _ found => exact ⟨World.new, found, Or.inl ⟨unset, World.new_hasResult⟩⟩
  | set index result world once found stage =>
      obtain ⟨at_, safe⟩ := stage.safe
      exact ⟨world, found, Or.inr ⟨index, result, at_, once, safe⟩⟩

theorem read_sound {session : Session m R O E D P} (sound : session.Sound inv results executors) :
    ∃ next, session.read = .ok next ∧ next.Sound inv results executors ∧
      next.system = session.system := by
  have ⟨system, held, future, reading⟩ := sound
  cases place : session.reader with
  | waiting =>
      cases at_ : session.system.combinator with
      | returned returned =>
          obtain rfl := future returned at_
          refine ⟨{ session with reader := .getting Combination.promised .spinning },
            by simp only [read, place, at_], ⟨system, held, future, ?_⟩, rfl⟩
          exact ⟨rfl, Or.inl rfl⟩
      | _ => exact ⟨session, by simp only [read, place, at_], sound, rfl⟩
  | getting state at_ =>
      rw [place] at reading
      obtain ⟨rfl, progress⟩ := reading
      obtain ⟨world, found, shared⟩ := shared_of_sound system
      have loaded : load session.system.states Combination.promised = .ok world := load_of_get found
      rcases shared with ⟨unset, silent⟩ | ⟨index, result, setting, once, safe⟩
      · rcases progress with rfl | ⟨_, _, _, other, _⟩
        · refine ⟨{ session with reader := .getting Combination.promised .spinning }, ?_,
            ⟨system, held, future, rfl, Or.inl rfl⟩, rfl⟩
          simp only [read, place, loaded, World.getResult, silent, Bool.false_eq_true, if_false]
        · cases unset.symm.trans other
      · have holds : at_.Holds world result := by
          rcases progress with rfl | ⟨_, _, _, other, present, holds⟩
          · trivial
          · cases once.symm.trans other
            cases found.symm.trans present
            exact holds
        obtain ⟨after, stepped, kept⟩ := World.getResult_step safe holds
        refine ⟨{ session with reader := .getting Combination.promised after },
          by simp only [read, place, loaded, stepped], ⟨system, held, future, rfl, Or.inr ?_⟩, rfl⟩
        exact ⟨index, result, world, once, found, kept⟩

/-- A reader relies on what no step of the combinator's threads takes back. -/
theorem Reading.kept {system next : Combination m R O E D P} {reader : Reader O}
    (reading : Reading system reader)
    (published : ∀ index result, system.published = [(index, result)] →
      next.published = [(index, result)])
    (kept : ∀ index result world, system.published = [(index, result)] →
      system.states.get Combination.promised = some world → world.result_ = some result →
      ∃ after, next.states.get Combination.promised = some after ∧ after.result_ = some result) :
    Reading next reader := by
  cases reader with
  | waiting => trivial
  | getting state at_ =>
      obtain ⟨same, rfl | ⟨index, result, world, once, found, holds⟩⟩ := reading
      · exact ⟨same, Or.inl rfl⟩
      · cases at_ with
        | spinning => exact ⟨same, Or.inl rfl⟩
        | copying =>
            obtain ⟨after, present, stored⟩ := kept index result world once found holds
            exact ⟨same, Or.inr ⟨index, result, after, published index result once, present, stored⟩⟩
        | returned data =>
            obtain ⟨after, present, stored⟩ := kept index result world once found holds.1
            exact ⟨same, Or.inr ⟨index, result, after, published index result once, present, stored,
              holds.2⟩⟩

/-- The threads that complete the futures and combine them do not disturb `get`. -/
theorem Reading.apart {system next : Combination m R O E D P} {reader : Reader O}
    (reading : Reading system reader) (apart : Combination.Apart system next) :
    Reading next reader := by
  refine reading.kept (fun _ _ once => apart.published.trans once) ?_
  intro index result world _ found stored
  exact ⟨world, apart.states ▸ found, stored⟩

theorem agent_sound (disciplined : lambda.Disciplined results inv) {session : Session m R O E D P}
    (sound : session.Sound inv results executors) (agent : Agent m)
    (first : session.ReturnsFirst (.agent agent)) :
    ∃ next, session.step lambda results (.agent agent) = .ok next ∧
      next.Sound inv results executors := by
  obtain ⟨system, held, future, reading⟩ := sound
  cases agent with
  | combinator =>
      obtain ⟨next, stepped, kept, apart, stays, advances⟩ := Combination.combine_sound system
      have before : next.combinator.hasReturned = false →
          session.system.combinator.hasReturned = false := by
        intro running
        by_contra finished
        obtain ⟨returned, at_⟩ := hasReturned_iff.mp (eq_true_of_ne_false finished)
        rw [stays returned at_, at_] at running
        cases running
      refine ⟨{ session with system := next }, by simp only [step, Combination.step, stepped],
        kept, fun running => apart.held.trans (held (before running)), ?_, reading.apart apart⟩
      intro returned at_
      rcases advances returned at_ with already | copied
      · exact future returned already
      · cases running : session.system.combinator.hasReturned with
        | false => exact copied.trans (held running)
        | true =>
            obtain ⟨already, stood⟩ := hasReturned_iff.mp running
            exact future returned ((stays already stood ▸ at_))
  | completer index =>
      obtain ⟨next, stepped, kept, apart, combinator⟩ := Combination.complete_sound system index
      refine ⟨{ session with system := next }, by simp only [step, Combination.step, stepped],
        kept, ?_, ?_, reading.apart apart⟩
      · exact fun running => apart.held.trans (held (by rwa [← combinator]))
      · exact fun returned at_ => future returned (combinator ▸ at_)
  | callback index =>
      obtain ⟨next, stepped, kept, calls⟩ := Combination.call_sound disciplined system index
      refine ⟨{ session with system := next }, by simp only [step, Combination.step, stepped],
        kept, fun running => ?_, ?_, ?_⟩
      · have before : session.system.combinator.hasReturned = false := by
          rwa [← calls.combinator]
        have same := calls.promise fun result releasing => by
          have returned := first (by rw [releasing]; rfl)
          rw [before] at returned
          cases returned
        exact (congrArg Promise.state_ same).trans (held before)
      · exact fun returned at_ => future returned (calls.combinator ▸ at_)
      · refine reading.kept (fun setter result once => ?_) fun _ _ _ once found stored =>
          calls.result once found stored
        exact Combination.published_of_prefix kept (once ▸ calls.published)

theorem step_sound (disciplined : lambda.Disciplined results inv) {session : Session m R O E D P}
    (sound : session.Sound inv results executors) (participant : Participant m)
    (first : session.ReturnsFirst participant) :
    ∃ next, session.step lambda results participant = .ok next ∧
      next.Sound inv results executors := by
  cases participant with
  | agent agent => exact agent_sound disciplined sound agent first
  | reader =>
      obtain ⟨next, stepped, kept, _⟩ := read_sound sound
      exact ⟨next, stepped, kept⟩

theorem Sound.refers {combined : D → Fin m → O → Prop}
    (shows : ∀ context places index result, inv context places (some (index, result)) →
      combined context index result)
    {session : Session m R O E D P} (sound : session.Sound inv results executors) :
    session.Refers combined where
  future := sound.future
  fulfils index state result at_ standing := by
    obtain ⟨_, _, publication⟩ := sound.system.publishes
    obtain ⟨_, _, _, _, _, stage, _⟩ := publication.setter
      (show (session.system.callbacks index).Publishing by rw [standing]; trivial)
    rw [standing] at stage
    cases stage
    rfl
  ready index result once returned := by
    obtain ⟨_, _, publication⟩ := sound.system.publishes
    cases publication with
    | awaited unset => cases unset.symm.trans once
    | set setter stored world unique found stage =>
        cases unique.symm.trans once
        rw [returned] at stage
        cases stage with
        | returned _ safe => exact ⟨world, found, hasResult_of_returned safe, safe.resultStored trivial⟩
  yields state data standing := by
    have reading := sound.reading
    rw [standing] at reading
    obtain ⟨same, other | ⟨index, result, world, once, _, holds⟩⟩ := reading
    · cases other
    · refine ⟨same, index, holds.2 ▸ once, ?_⟩
      obtain ⟨_, held, publication⟩ := sound.system.publishes
      cases publication with
      | awaited unset => cases unset.symm.trans once
      | set setter stored world unique =>
          cases unique.symm.trans once
          exact holds.2 ▸ shows _ _ _ _ held

theorem read_system {session next : Session m R O E D P} (stepped : session.read = .ok next) :
    next.system = session.system := by
  cases place : session.reader with
  | waiting =>
      simp only [read, place] at stepped
      split at stepped <;> cases stepped <;> rfl
  | getting state at_ =>
      cases found : load session.system.states state with
      | error fault => simp only [read, place, found, reduceCtorEq] at stepped
      | ok world =>
          cases moved : world.getResult at_ with
          | error fault => simp only [read, place, found, moved, reduceCtorEq] at stepped
          | ok after =>
              simp only [read, place, found, moved] at stepped
              cases stepped
              rfl

theorem step_agent {session next : Session m R O E D P} {agent : Agent m}
    (stepped : session.step lambda results (.agent agent) = .ok next) :
    ∃ system, session.system.step lambda results agent = .ok system ∧
      next = { session with system } := by
  cases moved : session.system.step lambda results agent with
  | error fault => simp only [step, moved, reduceCtorEq] at stepped
  | ok system =>
      simp only [step, moved] at stepped
      exact ⟨system, rfl, (Except.ok.inj stepped).symm⟩

theorem step_system_sound (disciplined : lambda.Disciplined results inv)
    (session : Session m R O E D P) (participant : Participant m) (next : Session m R O E D P)
    (sound : session.system.Sound inv results executors)
    (stepped : session.step lambda results participant = .ok next) :
    next.system.Sound inv results executors := by
  cases participant with
  | agent agent =>
      obtain ⟨system, moved, rfl⟩ := step_agent stepped
      obtain ⟨other, same, kept⟩ := Combination.step_sound disciplined sound agent
      cases same.symm.trans moved
      exact kept
  | reader => rwa [read_system stepped]

/-- A release before the combinator has returned leaves it nothing to return. -/
theorem lost_of_release (disciplined : lambda.Disciplined results inv)
    (session : Session m R O E D P) (participant : Participant m) (next : Session m R O E D P)
    (sound : session.system.Sound inv results executors)
    (stepped : session.step lambda results participant = .ok next)
    (early : ¬ session.ReturnsFirst participant) : next.Lost := by
  cases participant with
  | reader => exact absurd trivial early
  | agent agent =>
      cases agent with
      | combinator => exact absurd trivial early
      | completer index => exact absurd trivial early
      | callback index =>
          obtain ⟨releasing, running⟩ := Classical.not_imp.mp early
          obtain ⟨system, moved, rfl⟩ := step_agent stepped
          obtain ⟨other, same, _, calls⟩ := Combination.call_sound disciplined sound index
          cases same.symm.trans moved
          refine ⟨?_, fun future at_ => absurd ?_ running⟩
          · cases standing : session.system.callbacks index with
            | releasing result =>
                cases held : session.system.promise.state_ with
                | none =>
                    simp only [Combination.call, standing, Promise.releaseState, held, reduceCtorEq] at same
                | some state =>
                    simp only [Combination.call, standing, Promise.releaseState, held] at same
                    cases same
                    rfl
            | _ => simp only [standing, Callback.isReleasing, Bool.false_eq_true] at releasing
          · exact hasReturned_iff.mpr ⟨future, calls.combinator ▸ at_⟩

theorem lost_stays (disciplined : lambda.Disciplined results inv)
    (session : Session m R O E D P) (participant : Participant m) (next : Session m R O E D P)
    (lost : session.system.Sound inv results executors ∧ session.Lost)
    (stepped : session.step lambda results participant = .ok next) : next.Lost := by
  obtain ⟨sound, released, future⟩ := lost
  cases participant with
  | reader =>
      have same := read_system stepped
      exact ⟨same ▸ released, same ▸ future⟩
  | agent agent =>
      obtain ⟨system, moved, rfl⟩ := step_agent stepped
      cases agent with
      | combinator =>
          obtain ⟨other, same, _, apart, _, advances⟩ := Combination.combine_sound sound
          cases same.symm.trans moved
          refine ⟨apart.held.trans released, fun returned at_ => ?_⟩
          rcases advances returned at_ with already | copied
          · exact future returned already
          · exact copied.trans released
      | completer index =>
          obtain ⟨other, same, _, apart, combinator⟩ := Combination.complete_sound sound index
          cases same.symm.trans moved
          exact ⟨apart.held.trans released, fun returned at_ => future returned (combinator ▸ at_)⟩
      | callback index =>
          obtain ⟨other, same, _, calls⟩ := Combination.call_sound disciplined sound index
          cases same.symm.trans moved
          refine ⟨?_, fun returned at_ => future returned (calls.combinator ▸ at_)⟩
          have kept := calls.promise fun result releasing => by
            simp only [Combination.call, releasing, Promise.releaseState, released, reduceCtorEq] at same
          exact (congrArg Promise.state_ kept).trans released

/-- The start of a session whose combinator is about to subscribe its lambda. -/
def start (lambda : Lambda (Fin m) R O D P) (executors : Fin m → Option E) : Session m R O E D P where
  system := Combination.initial lambda executors
  reader := .waiting

/-- A run in which the combinator returns before the promise's state is released meets
no fault, and what it returns is that state. If it returns a state, the run was one. -/
theorem run_refers (disciplined : lambda.Disciplined results inv)
    {combined : D → Fin m → O → Prop}
    (shows : ∀ context places index result, inv context places (some (index, result)) →
      combined context index result)
    (executors : Fin m → Option E) (schedule : List (Participant m)) :
    (Meets (step lambda results) ReturnsFirst (start lambda executors) schedule →
      ∃ session, run (step lambda results) (start lambda executors) schedule = .ok session ∧
        session.Refers combined) ∧
      ∀ session future, run (step lambda results) (start lambda executors) schedule = .ok session →
        session.system.combinator = .returned (some future) →
        Meets (step lambda results) ReturnsFirst (start lambda executors) schedule := by
  have initial : (start lambda executors).system.Sound inv results executors :=
    Combination.initial_sound disciplined
  constructor
  · intro meets
    obtain ⟨session, ran, sound⟩ := @run_invariant _ _ _ (step lambda results) ReturnsFirst
      (fun _ => Sound inv results executors)
      (fun _ _ participant held first => step_sound disciplined held participant first) [] _
      ⟨initial, fun _ => rfl, nofun, trivial⟩ schedule meets
    exact ⟨session, ran, sound.refers shows⟩
  · intro session future ran returned
    refine Meets.of_last (step lambda results) (step_system_sound disciplined)
      (lost_of_release disciplined) (lost_stays disciplined) ran initial fun lost => ?_
    cases lost.future _ returned

end Session

namespace FirstOf

/-- The callback that exchanges `done_` first is the one that publishes. -/
structure Invariant (results : Fin m → R) (done : Bool) (places : Fin m → Progress (FirstOf R))
    (published : Option (Fin m × R)) : Prop where
  carries : ∀ index place, places index = .inside place → place.result = results index
  first : done = false ∧ published = none ∨ done = true ∧ ∃ index, published = some (index, results index)

theorem Invariant.moves {results : Fin m → R} {done : Bool} {places : Fin m → Progress (FirstOf R)}
    {published after : Option (Fin m × R)} {next : Bool} {index : Fin m} {goes : Progress (FirstOf R)}
    (inv : Invariant results done places published)
    (here : ∀ place, goes = .inside place → place.result = results index)
    (first : next = false ∧ after = none ∨ next = true ∧ ∃ index, after = some (index, results index)) :
    Invariant results next (Function.update places index goes) after := by
  refine ⟨fun other place at_ => ?_, first⟩
  by_cases same : other = index
  · subst same
    exact here place (by rwa [Function.update_self] at at_)
  · exact inv.carries other place (by rwa [Function.update_of_ne same] at at_)

theorem disciplined (results : Fin m → R) : firstOf.Disciplined results (Invariant results) where
  initial := ⟨fun _ _ => nofun, Or.inl ⟨rfl, rfl⟩⟩
  enters index inv _ := inv.moves (fun place entered => by cases entered; rfl) inv.first
  steps {done places published} index place inv at_ := by
    rcases inv.first with ⟨rfl, rfl⟩ | ⟨rfl, winner, rfl⟩
    · refine ⟨.set place.result, true, rfl, rfl, inv.moves nofun (Or.inr ⟨rfl, index, ?_⟩)⟩
      rw [inv.carries index place at_]
    · exact ⟨.leave, true, rfl, inv.moves nofun (Or.inr ⟨rfl, winner, rfl⟩)⟩

end FirstOf

/-- A combinator refers to the state of its promise, in one interleaving, if and only if
it returns before that state is released. -/
def Session.RefersIff {E : Type} (lambda : Lambda (Fin m) R O D P) (results : Fin m → R)
    (call : Outcome (Combination m R O E D P)) (combined : D → Fin m → O → Prop)
    (schedule : List (Participant m)) : Prop :=
  ∃ system, call = .ok system ∧
    (Meets (step lambda results) ReturnsFirst { system, reader := .waiting } schedule →
      ∃ session, interleave lambda results call schedule = .ok session ∧ session.Refers combined) ∧
    ∀ session, interleave lambda results call schedule = .ok session →
      session.system.combinator = .returned (some Combination.promised) →
      Meets (step lambda results) ReturnsFirst { system, reader := .waiting } schedule

theorem Session.refersIff {E : Type} {results : Fin m → R} {executors : Fin m → Option E}
    {lambda : Lambda (Fin m) R O D P} {inv : D → (Fin m → Progress P) → Option (Fin m × O) → Prop}
    (disciplined : lambda.Disciplined results inv) {combined : D → Fin m → O → Prop}
    (shows : ∀ context places index result, inv context places (some (index, result)) →
      combined context index result)
    {call : Outcome (Combination m R O E D P)}
    (called : call = .ok (Combination.initial lambda executors)) (schedule : List (Participant m)) :
    Session.RefersIff lambda results call combined schedule := by
  subst called
  obtain ⟨refers, meets⟩ := run_refers disciplined shows executors schedule
  exact ⟨_, rfl, refers, fun session => meets session Combination.promised⟩

/-- **The returned future and the promise.** In an interleaving of a combinator with the
completions of its futures and with `get` on the future that it returns, if every
callback that releases the state of the promise does so after the combinator has
returned, then no step faults, the future and the callbacks refer to the state that the
promise was made with, and `get` yields the combined result. Only in such
interleavings does the combinator return that state. -/
theorem combinators_return_promised_state {E : Type} {n : Nat} (enough : n ≤ m)
    (results : Fin m → R) (executors : Fin m → Option E) (schedule : List (Participant m)) :
    Session.RefersIff (firstN n) results (FirstN.call n executors)
        (fun context _ delivered => delivered = .ok
          (((List.finRange m).filter (· ∈ context.arrivals.take n)).map results)) schedule ∧
      Session.RefersIff firstOf results (FirstOf.call executors)
        (fun _ index delivered => delivered = results index) schedule := by
  have all : (List.finRange m).take m = List.finRange m := List.take_of_length_le (by simp)
  constructor
  · refine Session.refersIff (FirstN.disciplined results n) ?_ (if_neg (Nat.not_lt.mpr enough)) schedule
    intro context places index delivered inv
    cases inv.scanning with
    | published =>
        rw [FirstN.gather, all]
        rfl
  · refine Session.refersIff (FirstOf.disciplined results) ?_ rfl schedule
    intro done places index delivered inv
    rcases inv.first with ⟨_, other⟩ | ⟨_, winner, same⟩
    · cases other
    · cases same
      rfl

/-- One future, which is completed before the combinator is called. -/
def completedFirst : List (Participant 1) :=
  List.replicate 9 (.agent (.completer 0)) ++ List.replicate 9 (.agent .combinator) ++
    List.replicate 12 (.agent (.callback 0)) ++ List.replicate 5 (.agent .combinator)

/-- The future completes once the combinator has returned, and `get` is called last. -/
def completedLast : List (Participant 1) :=
  List.replicate 12 (.agent .combinator) ++ List.replicate 9 (.agent (.completer 0)) ++
    List.replicate 12 (.agent (.callback 0)) ++ List.replicate 4 .reader

def soleResult (_ : Fin 1) : Nat := 5

def soleExecutor (_ : Fin 1) : Option Empty := none

/-- The future of a combinator over an already completed future is null, and `get` on it
fails its assertion. -/
theorem completed_future_is_lost :
    (∃ session, Session.interleave (firstN 1) soleResult (FirstN.call 1 soleExecutor) completedFirst =
        .ok session ∧ session.system.combinator = .returned none) ∧
      Session.interleave (firstN 1) soleResult (FirstN.call 1 soleExecutor)
        (completedFirst ++ [.reader]) = .error .assertion ∧
      (∃ session, Session.interleave firstOf soleResult (FirstOf.call soleExecutor) completedFirst =
        .ok session ∧ session.system.combinator = .returned none) ∧
      Session.interleave firstOf soleResult (FirstOf.call soleExecutor)
        (completedFirst ++ [.reader]) = .error .assertion :=
  ⟨⟨_, rfl, rfl⟩, rfl, ⟨_, rfl, rfl⟩, rfl⟩

theorem combinators_return_promised_state_sole :
    (∃ session, Session.interleave (firstN 1) soleResult (FirstN.call 1 soleExecutor) completedLast =
        .ok session ∧ session.system.combinator = .returned (some Combination.promised) ∧
        session.reader = .getting Combination.promised (.returned (.ok [5]))) ∧
      Session.RefersIff (firstN 1) soleResult (FirstN.call 1 soleExecutor)
        (fun context _ delivered => delivered = .ok
          (((List.finRange 1).filter (· ∈ context.arrivals.take 1)).map soleResult)) completedLast ∧
      Session.RefersIff firstOf soleResult (FirstOf.call soleExecutor)
        (fun _ index delivered => delivered = soleResult index) completedLast :=
  ⟨⟨_, rfl, rfl, rfl⟩,
    combinators_return_promised_state (Nat.le_refl 1) soleResult soleExecutor completedLast⟩

end Dsac.Futures

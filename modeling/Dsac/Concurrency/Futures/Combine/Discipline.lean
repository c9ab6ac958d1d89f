import Dsac.Concurrency.Futures.Combine
import Dsac.Concurrency.Futures.State.Interleavings

namespace Dsac.Futures

open Dsac.Library

/-! A combinator whose lambda calls `promise_.set` at most once, over all the
callbacks, never faults, in whichever order its threads take steps. -/

variable {m : Nat} {R O E D P : Type}

/-- How far a callback has come in the lambda, before `promise_.set`. -/
inductive Progress (P : Type) where
  | waiting
  | inside (place : P)
  | past

namespace Callback

def progress : Callback P O E → Progress P
  | .waiting => .waiting
  | .running place => .inside place
  | .releasing _ | .fulfilling _ _ _ | .returned => .past

/-- The callback is inside `promise_.set`. -/
def Publishing : Callback P O E → Prop
  | .releasing _ | .fulfilling _ _ _ => True
  | .waiting | .running _ | .returned => False

end Callback

/-- What a lambda's invariant has to say after one of its steps. -/
def Continue.Keeps (inv : D → (Fin m → Progress P) → Option (Fin m × O) → Prop)
    (places : Fin m → Progress P) (published : Option (Fin m × O)) (index : Fin m) (context : D) :
    Continue P O → Prop
  | .goto next => inv context (Function.update places index (.inside next)) published
  | .leave => inv context (Function.update places index .past) published
  | .set result =>
      published = none ∧ inv context (Function.update places index .past) (some (index, result))

/-- The callbacks keep an invariant under which no step of the lambda faults and none
sets the promise a second time. -/
structure Lambda.Disciplined (lambda : Lambda (Fin m) R O D P) (results : Fin m → R)
    (inv : D → (Fin m → Progress P) → Option (Fin m × O) → Prop) : Prop where
  initial : inv lambda.context (fun _ => .waiting) none
  enters : ∀ {context places published} (index : Fin m), inv context places published →
    places index = .waiting →
    inv context (Function.update places index (.inside (lambda.enter (results index)))) published
  steps : ∀ {context places published} (index : Fin m) {place : P}, inv context places published →
    places index = .inside place →
    ∃ next after, lambda.step index place context = .ok (next, after) ∧
      next.Keeps inv places published index after

theorem World.new_hasResult : (World.new : World O E Unit).hasResult = false := by
  show ((0 : State) != (State.start &&& (State.onlyResult ||| State.done))) = false
  decide

namespace Combination

/-- The address of the shared state that the promise of the context is made with. -/
def promised : Addr := 0

def places (system : Combination m R O E D P) (index : Fin m) : Progress P :=
  (system.callbacks index).progress

/-- Where the callback that set the promise stands, with what the promise holds and the
shared state that it was made with. -/
inductive Fulfilling (result : O) (held : Option Addr) (world : World O E Unit) :
    Callback P O E → Prop where
  | releasing (kept : held = some promised)
      (safe : Safe none result () world .asserting .asserting) : Fulfilling result held world (.releasing result)
  | fulfilling (at_ : Setting O E) (released : held = none)
      (safe : Safe none result () world at_ .asserting) :
      Fulfilling result held world (.fulfilling promised result at_)
  | returned (released : held = none) (safe : Safe none result () world .returned .asserting) :
      Fulfilling result held world .returned

/-- Either the promise is still to be set, or one callback has called `set`. -/
inductive Publication (system : Combination m R O E D P) : Option (Fin m × O) → Prop where
  | awaited (unset : system.published = []) (held : system.promise.state_ = some promised)
      (found : system.states.get promised = some World.new)
      (idle : ∀ index, ¬ (system.callbacks index).Publishing) : Publication system none
  | set (index : Fin m) (result : O) (world : World O E Unit)
      (once : system.published = [(index, result)])
      (found : system.states.get promised = some world)
      (stage : Fulfilling result system.promise.state_ world (system.callbacks index))
      (others : ∀ other, other ≠ index → ¬ (system.callbacks other).Publishing) :
      Publication system (some (index, result))

/-- The invariant of every interleaving. -/
structure Sound (inv : D → (Fin m → Progress P) → Option (Fin m × O) → Prop) (results : Fin m → R)
    (executors : Fin m → Option E) (system : Combination m R O E D P) : Prop where
  inputs : ∀ index, Safe (executors index) (results index) index (system.inputs index).world
    (system.inputs index).producer (system.inputs index).consumer
  publishes : ∃ published, inv system.context system.places published ∧
    Publication system published
  exposed : system.promise.futureExtracted_ = true →
    system.combinator = .copying ∨ ∃ future, system.combinator = .returned future

theorem new_safe (result : O) : Safe none result () (World.new : World O E Unit) .asserting .asserting :=
  ⟨.racing rfl trivial trivial rfl, rfl, False.elim, False.elim⟩

variable {lambda : Lambda (Fin m) R O D P} {results : Fin m → R} {executors : Fin m → Option E}
  {inv : D → (Fin m → Progress P) → Option (Fin m × O) → Prop}

theorem initial_sound (disciplined : lambda.Disciplined results inv) :
    Sound inv results executors (initial lambda executors) where
  inputs index := (@System.initial_invariant _ _ _ Empty _ (executors index) (results index) index).safe
  publishes := ⟨none, disciplined.initial, .awaited rfl rfl rfl fun _ => id⟩
  exposed := nofun

theorem producer_step {executor : Option E} {result : R} {index : Fin m}
    {input : System R E (Fin m) Empty}
    (safe : Safe executor result index input.world input.producer input.consumer) :
    ∃ next, input.step result index .producer = .ok next ∧
      Safe executor result index next.world next.producer next.consumer := by
  obtain ⟨producer, world, stepped, kept, _⟩ := World.setResult_step safe
  exact ⟨{ input with world, producer }, by simp only [System.step, stepped], kept⟩

theorem consumer_step {executor : Option E} {result : R} {index : Fin m}
    {input : System R E (Fin m) Empty}
    (safe : Safe executor result index input.world input.producer input.consumer) :
    ∃ next, input.step result index .consumer = .ok next ∧
      Safe executor result index next.world next.producer next.consumer := by
  obtain ⟨consumer, world, stepped, kept, _⟩ := World.setCallback_step safe
  exact ⟨{ input with world, consumer }, by simp only [System.step, stepped], kept⟩

/-- What the thread of the combinator leaves as it is. -/
structure Apart (system next : Combination m R O E D P) : Prop where
  callbacks : next.callbacks = system.callbacks
  context : next.context = system.context
  published : next.published = system.published
  states : next.states = system.states
  held : next.promise.state_ = system.promise.state_

theorem Apart.publishes {system next : Combination m R O E D P} (apart : Apart system next)
    (publishes : ∃ published, inv system.context system.places published ∧
      Publication system published) :
    ∃ published, inv next.context next.places published ∧ Publication next published := by
  obtain ⟨callbacks, context, once, states, held⟩ := apart
  have places : next.places = system.places := by funext index; rw [places, places, callbacks]
  obtain ⟨published, holds, publication⟩ := publishes
  refine ⟨published, by rwa [context, places], ?_⟩
  cases publication with
  | awaited unset kept found idle =>
      exact .awaited (once.trans unset) (held.trans kept) (by rwa [states]) (by rwa [callbacks])
  | set index result world unique found stage others =>
      exact .set index result world (once.trans unique) (by rwa [states])
        (by rwa [held, callbacks]) (by rwa [callbacks])

/-- Replacing the state of one future by a safe one. -/
theorem inputs_update {inputs : Fin m → System R E (Fin m) Empty} {index : Fin m}
    {next : System R E (Fin m) Empty}
    (safe : ∀ index, Safe (executors index) (results index) index (inputs index).world
      (inputs index).producer (inputs index).consumer)
    (kept : Safe (executors index) (results index) index next.world next.producer next.consumer)
    (other : Fin m) :
    Safe (executors other) (results other) other (Function.update inputs index next other).world
      (Function.update inputs index next other).producer
      (Function.update inputs index next other).consumer := by
  by_cases same : other = index
  · subst same
    simpa only [Function.update_self] using kept
  · simpa only [Function.update_of_ne same] using safe other

theorem complete_sound {system : Combination m R O E D P}
    (sound : Sound inv results executors system) (index : Fin m) :
    ∃ next, system.complete results index = .ok next ∧ Sound inv results executors next ∧
      Apart system next ∧ next.combinator = system.combinator := by
  obtain ⟨inputs, publishes, exposed⟩ := sound
  obtain ⟨input, stepped, kept⟩ := producer_step (inputs index)
  have apart : Apart system { system with inputs := Function.update system.inputs index input } :=
    ⟨rfl, rfl, rfl, rfl, rfl⟩
  exact ⟨_, by simp only [complete, stepped],
    ⟨inputs_update inputs kept, apart.publishes publishes, exposed⟩, apart, rfl⟩

/-- What a step of the combinator's own thread does to its position. -/
def Advances (system next : Combination m R O E D P) : Prop :=
  (∀ future, system.combinator = .returned future → next = system) ∧
    ∀ future, next.combinator = .returned future →
      system.combinator = .returned future ∨ future = system.promise.state_

/-- A step of the combinator's own thread before it extracts the future. -/
theorem Sound.loops {system next : Combination m R O E D P} {before after : Looping}
    (sound : Sound inv results executors system) (at_ : system.combinator = before)
    (inputs : ∀ index, Safe (executors index) (results index) index (next.inputs index).world
      (next.inputs index).producer (next.inputs index).consumer)
    (apart : Apart system next) (promise : next.promise = system.promise)
    (goes : next.combinator = after)
    (running : before ≠ .copying ∧ ∀ future, before ≠ .returned future)
    (still : ∀ future, after ≠ .returned future) :
    Sound inv results executors next ∧ Apart system next ∧ Advances system next := by
  refine ⟨⟨inputs, apart.publishes sound.publishes, fun extracted => ?_⟩, apart, ?_, ?_⟩
  · rcases sound.exposed (promise ▸ extracted) with copying | ⟨future, returned⟩
    · exact absurd (at_.symm.trans copying) running.1
    · exact absurd (at_.symm.trans returned) (running.2 future)
  · exact fun future returned => absurd (at_.symm.trans returned) (running.2 future)
  · exact fun future returned => absurd (goes.symm.trans returned) (still future)

theorem combine_sound {system : Combination m R O E D P}
    (sound : Sound inv results executors system) :
    ∃ next, system.combine results = .ok next ∧ Sound inv results executors next ∧
      Apart system next ∧ Advances system next := by
  have same : Apart system system := ⟨rfl, rfl, rfl, rfl, rfl⟩
  cases at_ : system.combinator with
  | subscribing index =>
      by_cases inside : index < m
      · by_cases left : (system.inputs ⟨index, inside⟩).consumer = .returned
        · refine ⟨{ system with combinator := .subscribing (index + 1) },
            by simp only [combine, at_, inside, dif_pos, left], ?_⟩
          exact sound.loops at_ sound.inputs ⟨rfl, rfl, rfl, rfl, rfl⟩ rfl rfl ⟨nofun, nofun⟩ nofun
        · obtain ⟨input, stepped, kept⟩ := consumer_step (sound.inputs ⟨index, inside⟩)
          refine ⟨{ system with
            inputs := Function.update system.inputs ⟨index, inside⟩ input
            combinator := if invokes (system.inputs ⟨index, inside⟩).consumer then .calling index
              else .subscribing index }, ?_, ?_⟩
          · cases consumer : (system.inputs ⟨index, inside⟩).consumer with
            | returned => exact absurd consumer left
            | _ => simp only [combine, at_, inside, dif_pos, consumer, stepped]
          · refine sound.loops at_ (inputs_update sound.inputs kept) ⟨rfl, rfl, rfl, rfl, rfl⟩ rfl
              rfl ⟨nofun, nofun⟩ fun future => ?_
            split <;> nofun
      · refine ⟨{ system with combinator := .extracting },
          by simp only [combine, at_, inside, dif_neg, not_false_eq_true], ?_⟩
        exact sound.loops at_ sound.inputs ⟨rfl, rfl, rfl, rfl, rfl⟩ rfl rfl ⟨nofun, nofun⟩ nofun
  | calling index =>
      have stays := sound.loops at_ sound.inputs same rfl at_ ⟨nofun, nofun⟩ nofun
      by_cases inside : index < m
      · by_cases left : system.callbacks ⟨index, inside⟩ = .returned
        · refine ⟨{ system with combinator := .subscribing index },
            by simp only [combine, at_, inside, dif_pos, left], ?_⟩
          exact sound.loops at_ sound.inputs ⟨rfl, rfl, rfl, rfl, rfl⟩ rfl rfl ⟨nofun, nofun⟩ nofun
        · refine ⟨system, ?_, stays⟩
          cases callback : system.callbacks ⟨index, inside⟩ with
          | returned => exact absurd callback left
          | _ => simp only [combine, at_, inside, dif_pos, callback]
      · exact ⟨system, by simp only [combine, at_, inside, dif_neg, not_false_eq_true], stays⟩
  | extracting =>
      have hidden : ¬ system.promise.futureExtracted_ = true := fun extracted => by
        rcases sound.exposed extracted with other | ⟨_, other⟩ <;> cases at_.symm.trans other
      have apart : Apart system { system with
          promise := { system.promise with futureExtracted_ := true }, combinator := .copying } :=
        ⟨rfl, rfl, rfl, rfl, rfl⟩
      refine ⟨_, by simp only [combine, at_, hidden, if_false, Bool.false_eq_true], ?_, apart,
        ?_, nofun⟩
      · exact ⟨sound.inputs, apart.publishes sound.publishes, fun _ => Or.inl rfl⟩
      · exact fun future returned => nomatch at_.symm.trans returned
  | copying =>
      have apart : Apart system { system with combinator := .returned system.promise.state_ } :=
        ⟨rfl, rfl, rfl, rfl, rfl⟩
      refine ⟨_, by simp only [combine, at_], ?_, apart, ?_, ?_⟩
      · exact ⟨sound.inputs, apart.publishes sound.publishes, fun _ => Or.inr ⟨_, rfl⟩⟩
      · exact fun future returned => nomatch at_.symm.trans returned
      · exact fun future returned => Or.inr (Looping.returned.inj returned).symm
  | returned future =>
      exact ⟨system, by simp only [combine, at_], sound, same, fun _ _ => rfl,
        fun _ returned => Or.inl returned⟩

/-- A callback is called with the result of its future. -/
theorem received_of_safe {executor : Option E} {result : R} {index : Fin m}
    {input : System R E (Fin m) Empty}
    (safe : Safe executor result index input.world input.producer input.consumer) :
    received input = .ok none ∨ received input = .ok (some result) := by
  rcases safe.phase.deliveries with silent | owed
  · exact Or.inl (by simp only [received, silent])
  · refine Or.inr ?_
    cases executor <;> simp only [received, owed, Delivery.owed]

theorem places_update {system : Combination m R O E D P} {index : Fin m} {next : Callback P O E} :
    (fun other => (Function.update system.callbacks index next other).progress) =
      Function.update system.places index next.progress := by
  funext other
  by_cases same : other = index
  · subst same
    simp only [Function.update_self]
  · simp only [Function.update_of_ne same, places]

/-- A callback that has left the lambda's own statements does not enter them again. -/
theorem places_past {system : Combination m R O E D P} {index : Fin m} {next : Callback P O E}
    (before : (system.callbacks index).progress = .past) (after : next.progress = .past) :
    (fun other => (Function.update system.callbacks index next other).progress) = system.places := by
  rw [places_update, after, ← before]
  exact Function.update_eq_self index system.places

/-- Nothing else changes for the promise when a callback moves inside the lambda. -/
theorem Publication.moves {system : Combination m R O E D P} {published : Option (Fin m × O)}
    (publication : Publication system published) {index : Fin m} {after : Callback P O E}
    (inside : (system.callbacks index).progress ≠ .past) (still : ¬ after.Publishing) (context : D) :
    Publication { system with context, callbacks := Function.update system.callbacks index after }
      published := by
  have idle : ∀ {other}, ¬ (system.callbacks other).Publishing →
      ¬ (Function.update system.callbacks index after other).Publishing := by
    intro other quiet
    by_cases same : other = index
    · subst same
      simpa only [Function.update_self] using still
    · simpa only [Function.update_of_ne same] using quiet
  cases publication with
  | awaited unset held found quiet => exact .awaited unset held found fun other => idle (quiet other)
  | set setter result world once found stage others =>
      have different : setter ≠ index := by
        rintro rfl
        cases at_ : system.callbacks setter <;> rw [at_] at inside stage
        case waiting => cases stage
        case running => cases stage
        all_goals exact inside rfl
      refine .set setter result world once found ?_ fun other apart => idle (others other apart)
      simpa only [Function.update_of_ne different] using stage

/-- Only the callback that set the promise can be inside `promise_.set`. -/
theorem Publication.setter {system : Combination m R O E D P} {published : Option (Fin m × O)}
    (publication : Publication system published) {index : Fin m}
    (publishing : (system.callbacks index).Publishing) :
    ∃ result world, published = some (index, result) ∧ system.published = [(index, result)] ∧
      system.states.get promised = some world ∧
      Fulfilling result system.promise.state_ world (system.callbacks index) ∧
      ∀ other, other ≠ index → ¬ (system.callbacks other).Publishing := by
  cases publication with
  | awaited _ _ _ idle => exact absurd publishing (idle index)
  | set setter result world once found stage others =>
      have same : setter = index := by
        by_contra different
        exact others index (Ne.symm different) publishing
      subst same
      exact ⟨result, world, rfl, once, found, stage, others⟩

/-- What a step of a callback leaves as it is. -/
structure Calls (index : Fin m) (system next : Combination m R O E D P) : Prop where
  inputs : next.inputs = system.inputs
  combinator : next.combinator = system.combinator
  promise : (∀ result, system.callbacks index ≠ .releasing result) →
    next.promise = system.promise
  extracted : next.promise.futureExtracted_ = system.promise.futureExtracted_
  published : system.published <+: next.published
  result : ∀ {setter result world}, system.published = [(setter, result)] →
    system.states.get promised = some world → world.result_ = some result →
    ∃ after, next.states.get promised = some after ∧ after.result_ = some result

theorem Calls.refl (index : Fin m) (system : Combination m R O E D P) :
    Calls index system system :=
  ⟨rfl, rfl, fun _ => rfl, rfl, List.prefix_rfl, fun _ found stored => ⟨_, found, stored⟩⟩

/-- A step of the callback inside the lambda. -/
theorem Calls.of_moves {system : Combination m R O E D P} {index : Fin m} (context : D)
    (after : Callback P O E) {published : List (Fin m × O)}
    (more : system.published <+: published) :
    Calls index system { system with
      context, published, callbacks := Function.update system.callbacks index after } where
  inputs := rfl
  combinator := rfl
  promise _ := rfl
  extracted := rfl
  published := more
  result _ found stored := ⟨_, found, stored⟩

theorem call_sound (disciplined : lambda.Disciplined results inv)
    {system : Combination m R O E D P} (sound : Sound inv results executors system)
    (index : Fin m) :
    ∃ next, system.call lambda index = .ok next ∧ Sound inv results executors next ∧
      Calls index system next := by
  obtain ⟨inputs, ⟨published, holds, publication⟩, exposed⟩ := sound
  cases at_ : system.callbacks index with
  | waiting =>
      have inside : (system.callbacks index).progress ≠ .past := by rw [at_]; nofun
      rcases received_of_safe (inputs index) with none | called
      · exact ⟨system, by simp only [call, at_, none],
          ⟨inputs, ⟨published, holds, publication⟩, exposed⟩, .refl index system⟩
      · have entered := disciplined.enters index holds (by rw [places, at_]; rfl)
        refine ⟨{ system with
          callbacks := Function.update system.callbacks index (.running (lambda.enter (results index))) },
          by simp only [call, at_, called], ⟨inputs, ⟨published, ?_, ?_⟩, exposed⟩,
          .of_moves system.context _ List.prefix_rfl⟩
        · exact (congrArg (inv system.context · published) places_update).mpr entered
        · exact publication.moves inside id system.context
  | running place =>
      have inside : (system.callbacks index).progress ≠ .past := by rw [at_]; nofun
      obtain ⟨next, context, stepped, keeps⟩ := disciplined.steps index holds
        (show system.places index = .inside place by rw [places, at_]; rfl)
      cases next with
      | goto after =>
          refine ⟨{ system with
            context, callbacks := Function.update system.callbacks index (.running after) },
            by simp only [call, at_, stepped], ⟨inputs, ⟨published, ?_, ?_⟩, exposed⟩,
            .of_moves context _ List.prefix_rfl⟩
          · exact (congrArg (inv context · published) places_update).mpr keeps
          · exact publication.moves inside id context
      | leave =>
          refine ⟨{ system with
            context, callbacks := Function.update system.callbacks index .returned },
            by simp only [call, at_, stepped], ⟨inputs, ⟨published, ?_, ?_⟩, exposed⟩,
            .of_moves context _ List.prefix_rfl⟩
          · exact (congrArg (inv context · published) places_update).mpr keeps
          · exact publication.moves inside id context
      | set result =>
          obtain ⟨rfl, keeps⟩ := keeps
          cases publication with
          | awaited unset held found idle =>
              refine ⟨{ system with
                context
                callbacks := Function.update system.callbacks index (.releasing result)
                published := system.published ++ [(index, result)] },
                by simp only [call, at_, stepped],
                ⟨inputs, ⟨some (index, result), ?_, ?_⟩, exposed⟩,
                .of_moves context _ (List.prefix_append _ _)⟩
              · exact (congrArg (inv context · _) places_update).mpr keeps
              · refine .set index result World.new (by rw [unset, List.nil_append]) found ?_ ?_
                · simpa only [Function.update_self] using .releasing held (new_safe result)
                · intro other different
                  simpa only [Function.update_of_ne different] using idle other
  | releasing result =>
      obtain ⟨chosen, world, rfl, once, found, stage, others⟩ :=
        publication.setter (show (system.callbacks index).Publishing by rw [at_]; trivial)
      rw [at_] at stage
      cases stage with
      | releasing kept safe =>
          refine ⟨{ system with
            promise := { system.promise with state_ := none }
            callbacks := Function.update system.callbacks index (.fulfilling promised result .asserting) },
            by simp only [call, at_, Promise.releaseState, kept],
            ⟨inputs, ⟨_, ?_, .set index result world once found ?_ ?_⟩, exposed⟩, ?_⟩
          · exact (congrArg (inv system.context · _) (places_past (by rw [at_]; rfl) rfl)).mpr holds
          · simpa only [Function.update_self] using .fulfilling .asserting rfl safe
          · intro other different
            simpa only [Function.update_of_ne different] using others other different
          · exact ⟨rfl, rfl, fun apart => absurd at_ (apart result), rfl, List.prefix_rfl,
              fun _ found stored => ⟨_, found, stored⟩⟩
  | fulfilling state result inner =>
      obtain ⟨chosen, world, rfl, once, found, stage, others⟩ :=
        publication.setter (show (system.callbacks index).Publishing by rw [at_]; trivial)
      rw [at_] at stage
      cases stage with
      | fulfilling _ released safe =>
          have past : (system.callbacks index).progress = .past := by rw [at_]; rfl
          by_cases left : inner = .returned
          · subst left
            refine ⟨{ system with callbacks := Function.update system.callbacks index .returned },
              by simp only [call, at_],
              ⟨inputs, ⟨_, ?_, .set index result world once found ?_ ?_⟩, exposed⟩,
              .of_moves system.context _ List.prefix_rfl⟩
            · exact (congrArg (inv system.context · _) (places_past past rfl)).mpr holds
            · simpa only [Function.update_self] using .returned released safe
            · intro other different
              simpa only [Function.update_of_ne different] using others other different
          · obtain ⟨after, nextWorld, stepped, kept, effect⟩ := World.setResult_step safe
            have written : (system.states.set promised nextWorld).get promised = some nextWorld :=
              Heap.get_set_self (Heap.lt_fresh_of_get found)
            refine ⟨{ system with
              states := system.states.set promised nextWorld
              callbacks := Function.update system.callbacks index (.fulfilling promised result after) },
              ?_, ⟨inputs, ⟨_, ?_, .set index result nextWorld once written ?_ ?_⟩, exposed⟩, ?_⟩
            · cases inner with
              | returned => exact absurd rfl left
              | _ => simp only [call, at_, load_of_get found, stepped]
            · exact (congrArg (inv system.context · _) (places_past past rfl)).mpr holds
            · simpa only [Function.update_self] using .fulfilling after released kept
            · intro other different
              simpa only [Function.update_of_ne different] using others other different
            · refine ⟨rfl, rfl, fun _ => rfl, rfl, List.prefix_rfl, ?_⟩
              intro setter stored other unique present holding
              cases once.symm.trans unique
              cases found.symm.trans present
              exact ⟨nextWorld, written, effect.keepsResult holding⟩
  | returned =>
      exact ⟨system, by simp only [call, at_],
        ⟨inputs, ⟨published, holds, publication⟩, exposed⟩, .refl index system⟩

/-- Only a step of the lambda changes the context. -/
theorem call_context {system next : Combination m R O E D P} {index : Fin m}
    (called : system.call lambda index = .ok next) :
    next.context = system.context ∨ ∃ place goes, system.callbacks index = .running place ∧
      lambda.step index place system.context = .ok (goes, next.context) := by
  cases at_ : system.callbacks index with
  | running place =>
      cases stepped : lambda.step index place system.context with
      | error fault => simp only [call, at_, stepped, reduceCtorEq] at called
      | ok result =>
          obtain ⟨goes, after⟩ := result
          refine Or.inr ⟨place, goes, rfl, ?_⟩
          cases goes <;>
            simp only [call, at_, stepped, Except.ok.injEq] at called <;>
            subst called <;> exact stepped
  | waiting =>
      simp only [call, at_] at called
      split at called <;> cases called <;> exact Or.inl rfl
  | releasing result =>
      simp only [call, at_] at called
      split at called <;> cases called
      exact Or.inl rfl
  | fulfilling state result inner =>
      by_cases left : inner = .returned
      · subst left
        simp only [call, at_] at called
        cases called
        exact Or.inl rfl
      · cases found : load system.states state with
        | error fault => simp only [call, at_, found, reduceCtorEq] at called
        | ok world =>
            cases stepped : world.setResult result inner with
            | error fault => simp only [call, at_, found, stepped, reduceCtorEq] at called
            | ok result =>
                simp only [call, at_, found, stepped] at called
                cases called
                exact Or.inl rfl
  | returned =>
      simp only [call, at_] at called
      cases called
      exact Or.inl rfl

/-- Every step of every thread succeeds and keeps the invariant. -/
theorem step_sound (disciplined : lambda.Disciplined results inv)
    {system : Combination m R O E D P} (sound : Sound inv results executors system)
    (agent : Agent m) :
    ∃ next, system.step lambda results agent = .ok next ∧ Sound inv results executors next := by
  cases agent with
  | combinator =>
      obtain ⟨next, stepped, kept, _⟩ := combine_sound sound
      exact ⟨next, stepped, kept⟩
  | completer index =>
      obtain ⟨next, stepped, kept, _⟩ := complete_sound sound index
      exact ⟨next, stepped, kept⟩
  | callback index =>
      obtain ⟨next, stepped, kept, _⟩ := call_sound disciplined sound index
      exact ⟨next, stepped, kept⟩

theorem interleave_sound (disciplined : lambda.Disciplined results inv)
    (executors : Fin m → Option E) (schedule : List (Agent m)) :
    ∃ system : Combination m R O E D P,
      interleave lambda results (.ok (initial lambda executors)) schedule = .ok system ∧
        Sound inv results executors system :=
  @run_invariant _ _ _ (step lambda results) (fun _ _ => True)
    (fun _ => Sound inv results executors)
    (fun _ _ agent held _ => step_sound disciplined held agent) [] _
    (initial_sound disciplined) schedule (Meets.of_forall _ (fun _ _ => trivial) _ schedule)

end Combination

end Dsac.Futures

import Dsac.Concurrency.Futures.Chain

namespace Dsac.Futures

open Dsac.Library

/-! Exceptions of continuations and callbacks in a chain of futures. -/

variable {X T : Type} {chain : Chain X T} {links next : Links X T} {value data : Result X T} {index count done : Nat}

/-- The promises before `count` are set, and the callbacks before `done` invoked. -/
structure Reached (chain : Chain X T) (links : Links X T) (count done : Nat) : Prop where
  sets : links.sets = chain.results.zipIdx.take count
  deliveries : links.deliveries = chain.results.zipIdx.take done
  released : ∀ index, links.released index = decide (index < count)
  stored : ∀ index, links.result_ index = if index < count then chain.results[index]? else none

/-- What a delivery leaves alone. -/
structure Keeps (links next : Links X T) : Prop where
  attached : next.attached = links.attached
  submitted : next.submitted = links.submitted
  started : next.started = links.started

theorem Keeps.trans {last : Links X T} (first : Keeps links next) (second : Keeps next last) : Keeps links last :=
  ⟨second.attached.trans first.attached, second.submitted.trans first.submitted, second.started.trans first.started⟩

namespace Chain

theorem take_results (here : chain.results[index]? = some value) :
    chain.results.zipIdx.take (index + 1) = chain.results.zipIdx.take index ++ [(value, index)] := by
  rw [List.take_add_one, List.getElem?_zipIdx, here]
  simp

theorem length_results : chain.results.length = chain.continuations.length + 1 := by
  rw [results, List.length_scanl]

theorem results_zero : chain.results[0]? = some chain.first := by
  cases continuations : chain.continuations <;> simp [results, continuations]

theorem results_succ {continuation : Result X T → Result X T} (here : chain.results[index]? = some data)
    (stage : chain.continuations[index]? = some continuation) : chain.results[index + 1]? = some (continuation data) := by
  rw [results] at here ⊢
  rw [List.getElem?_succ_scanl, here, stage]
  rfl

end Chain

theorem Reached.cast {newCount newDone : Nat} (reached : Reached chain links count done) (counts : count = newCount)
    (dones : done = newDone) : Reached chain links newCount newDone := by
  subst counts dones
  exact reached

theorem Reached.deliver (reached : Reached chain links count index) (here : chain.results[index]? = some data) :
    Reached chain { links with deliveries := links.deliveries ++ [(data, index)] } count (index + 1) where
  sets := reached.sets
  deliveries := by rw [Chain.take_results here, reached.deliveries]
  released := reached.released
  stored := reached.stored

/-- The next promise is set. -/
theorem Reached.set (reached : Reached chain links index done) (here : chain.results[index]? = some value)
    (doCallback : Delivers X T) : ∃ next, links.set doCallback index value =
        (if index < links.attached then doCallback value next else .ok (none, next)) ∧
      Keeps links next ∧ Reached chain next (index + 1) done := by
  have unset : links.released index = false := by
    rw [reached.released]
    simp
  let next : Links X T := { links with
    released := Function.update links.released index true
    result_ := Function.update links.result_ index (some value)
    sets := links.sets ++ [(value, index)] }
  refine ⟨next, ?_, ⟨rfl, rfl, rfl⟩, ?_, reached.deliveries, ?_, ?_⟩
  · simp only [Links.set, unset, Bool.false_eq_true, if_false]
    rfl
  · simp only [next, Chain.take_results here, reached.sets]
  · intro other
    by_cases same : other = index
    · simp [next, same]
    · simp only [next, Function.update_of_ne same, reached.released, decide_eq_decide]
      omega
  · intro other
    by_cases same : other = index
    · simp [next, same, here]
    · have iff : other < index + 1 ↔ other < index := by omega
      simp only [next, Function.update_of_ne same, reached.stored, iff]

theorem Reached.set_again (reached : Reached chain links count done) (before : index < count)
    (doCallback : Delivers X T) : links.set doCallback index value = .error .assertion := by
  rw [Links.set, reached.released, decide_eq_true before]
  rfl

namespace Chain

/-- The callback of `subscribe` throws in the delivery, after some continuation has returned. -/
def Overtakes (chain : Chain X T) (links : Links X T) (rest : List (Result X T → Result X T)) (data : Result X T) :
    Prop :=
  links.attached = chain.continuations.length + 1 ∧
    chain.callback (rest.foldl (fun result continuation => continuation result) data) ≠ none ∧ Returns rest data

/-- How a delivery ends that sets the promises of all stages with a callback. -/
def Ends (chain : Chain X T) (links : Links X T) (rest : List (Result X T → Result X T)) (data : Result X T)
    (outcome : Outcome (Option X × Links X T)) : Prop :=
  (chain.Overtakes links rest data ∧ outcome = .error .assertion) ∨
    (¬ chain.Overtakes links rest data ∧ ∃ next, Keeps links next ∧
      Reached chain next (min links.attached chain.continuations.length + 1) links.attached ∧
      outcome = .ok (if links.attached = chain.continuations.length + 1 then
        chain.callback (rest.foldl (fun result continuation => continuation result) data) else none, next))

theorem Ends.congr {rest : List (Result X T → Result X T)} {outcome : Outcome (Option X × Links X T)}
    (ends : chain.Ends next rest data outcome) (keeps : Keeps links next) : chain.Ends links rest data outcome := by
  rw [Ends, Overtakes, keeps.attached] at ends
  rcases ends with overtakes | ⟨calm, last, lastKeeps, reached, outcome⟩
  · exact .inl overtakes
  · exact .inr ⟨calm, last, keeps.trans lastKeeps, reached, outcome⟩

/-- The `catch` block sets the promise again if its delivery has thrown. -/
theorem setCatching_ends {before : Links X T} {rest : List (Result X T → Result X T)}
    {continuation : Result X T → Result X T} {doCallback : Delivers X T} (inside : index ≤ chain.continuations.length)
    (ends : chain.Ends links rest (continuation data) (before.set doCallback index (continuation data))) :
    chain.Ends links (continuation :: rest) data (before.setCatching doCallback index (continuation data)) := by
  cases computed : continuation data with
  | error exception =>
      rw [computed] at ends
      have same : chain.Overtakes links (continuation :: rest) data ↔ chain.Overtakes links rest (.error exception) := by
        simp only [Overtakes, List.foldl_cons, Returns, computed, Except.isOk, Except.toBool, Bool.false_eq_true,
          false_or]
      rw [Ends, same, List.foldl_cons, computed]
      exact ends
  | ok result =>
      have same : chain.Overtakes links (continuation :: rest) data ↔
          links.attached = chain.continuations.length + 1 ∧
            chain.callback (rest.foldl (fun result continuation => continuation result) (.ok result)) ≠ none := by
        simp only [Overtakes, List.foldl_cons, Returns, computed, Except.isOk, Except.toBool, true_or, and_true]
      rw [computed] at ends
      rw [Ends, same, List.foldl_cons, computed, Links.setCatching]
      rcases ends with ⟨overtakes, stops⟩ | ⟨_, next, nextKeeps, nextReached, sets⟩
      · rw [stops]
        exact .inl ⟨⟨overtakes.1, overtakes.2.1⟩, rfl⟩
      · by_cases throws : links.attached = chain.continuations.length + 1 ∧
            chain.callback (rest.foldl (fun result continuation => continuation result) (.ok result)) ≠ none
        · left
          refine ⟨throws, ?_⟩
          obtain ⟨exception, thrown⟩ := Option.ne_none_iff_exists'.mp throws.2
          rw [sets, if_pos throws.1, thrown, Outcome.ok_bind]
          exact nextReached.set_again (by omega) _
        · right
          refine ⟨throws, next, nextKeeps, nextReached, ?_⟩
          have calm : (if links.attached = chain.continuations.length + 1 then
              chain.callback (rest.foldl (fun result continuation => continuation result) (.ok result))
              else none) = none := by
            split
            next whole =>
              by_contra thrown
              exact throws ⟨whole, thrown⟩
            next => rfl
          rw [sets, calm]
          rfl

/-- **A delivery from some state on.** The induction is on the continuations that are left. -/
theorem invoke_ends (rest : List (Result X T → Result X T)) (here : chain.results[index]? = some data)
    (left : chain.continuations.drop index = rest) (reached : Reached chain links (index + 1) index)
    (present : index < links.attached) (bound : links.attached ≤ chain.continuations.length + 1) :
    chain.Ends links rest data (chain.invoke rest index data links) := by
  induction rest generalizing index data links with
  | nil =>
      have past := List.drop_eq_nil_iff.mp left
      have whole : links.attached = chain.continuations.length + 1 := by omega
      refine .inr ⟨fun overtakes => overtakes.2.2, { links with deliveries := links.deliveries ++ [(data, index)] },
        ⟨rfl, rfl, rfl⟩, ?_, ?_⟩
      · apply (reached.deliver here).cast
        · omega
        · omega
      · rw [if_pos whole]
        rfl
  | cons continuation rest ih =>
      have inside : index < chain.continuations.length := by
        by_contra outside
        rw [List.drop_eq_nil_of_le (Nat.le_of_not_lt outside)] at left
        cases left
      have stage : chain.continuations[index]? = some continuation := by
        rw [List.drop_eq_getElem_cons inside] at left
        rw [List.getElem?_eq_getElem inside, (List.cons.inj left).1]
      have later : chain.continuations.drop (index + 1) = rest := by
        rw [List.drop_eq_getElem_cons inside] at left
        exact (List.cons.inj left).2
      have there := results_succ here stage
      have delivered := reached.deliver here
      obtain ⟨middle, set, keeps, middleReached⟩ := delivered.set there (chain.invoke rest (index + 1))
      have keeps : Keeps links middle := ⟨keeps.attached, keeps.submitted, keeps.started⟩
      -- what `set` does in the `try` block
      have ends : chain.Ends links rest (continuation data)
          ({ links with deliveries := links.deliveries ++ [(data, index)] }.set (chain.invoke rest (index + 1))
            (index + 1) (continuation data)) := by
        rw [set]
        split
        next more =>
          apply Ends.congr _ keeps
          apply ih there later middleReached
          · rw [keeps.attached]
            exact more
          · rw [keeps.attached]
            exact bound
        next none_ =>
          have edge : links.attached = index + 1 := Nat.le_antisymm (Nat.le_of_not_lt none_) present
          have short : links.attached ≠ chain.continuations.length + 1 := by omega
          refine .inr ⟨fun overtakes => short overtakes.1, middle, keeps, ?_, by rw [if_neg short]⟩
          apply middleReached.cast
          · omega
          · exact edge.symm
      exact setCatching_ends inside ends

/-- Where the run of a chain stands. -/
inductive Stands (chain : Chain X T) (links : Links X T) : Prop where
  | idle (started : links.started = false) (submitted : links.submitted = none) (reached : Reached chain links 0 0)
  /-- the executor is to run the callback of the first state -/
  | waiting (routine : Result X T) (source : chain.source = .asyncVia routine) (started : links.started = true)
      (submitted : links.submitted = some chain.first) (present : 0 < links.attached) (reached : Reached chain links 1 0)
  /-- every callback that is attached was invoked -/
  | running (started : links.started = true) (submitted : links.submitted = none)
      (reached : Reached chain links (min links.attached chain.continuations.length + 1) links.attached)

theorem Stands.once (stands : Stands chain links) : chain.Once links := by
  have prefixes : ∀ {count done}, Reached chain links count done →
      links.sets <+: chain.results.zipIdx ∧ links.deliveries <+: chain.results.zipIdx := by
    intro count done reached
    rw [reached.sets, reached.deliveries]
    exact ⟨List.take_prefix _ _, List.take_prefix _ _⟩
  cases stands with
  | idle started _ reached =>
      refine ⟨(prefixes reached).1, (prefixes reached).2, ?_⟩
      rw [started]
      nofun
  | waiting _ _ _ submitted _ reached =>
      refine ⟨(prefixes reached).1, (prefixes reached).2, ?_⟩
      rw [submitted]
      nofun
  | running _ _ reached =>
      refine ⟨(prefixes reached).1, (prefixes reached).2, ?_⟩
      intro _ _ whole
      rw [reached.sets, reached.deliveries, whole, Nat.min_eq_right (Nat.le_succ _)]
      have all : chain.results.zipIdx.length = chain.continuations.length + 1 := by
        rw [List.length_zipIdx, length_results]
      rw [← all, List.take_length]
      exact ⟨rfl, rfl⟩

/-- A delivery that leaves the chain running. -/
theorem Ends.stands {rest : List (Result X T → Result X T)} {outcome : Outcome (Option X × Links X T)}
    (ends : chain.Ends links rest data outcome) (started : links.started = true) (submitted : links.submitted = none)
    (bound : links.attached ≤ chain.continuations.length + 1) :
    (chain.Overtakes links rest data ∧ (do return (← outcome).2) = (.error .assertion : Outcome (Links X T))) ∨
    (¬ chain.Overtakes links rest data ∧ ∃ next, (do return (← outcome).2) = (.ok next : Outcome (Links X T)) ∧
      next.attached ≤ chain.continuations.length + 1 ∧ Stands chain next) := by
  rcases ends with ⟨overtakes, rfl⟩ | ⟨calm, next, keeps, reached, rfl⟩
  · exact .inl ⟨overtakes, rfl⟩
  · refine .inr ⟨calm, next, rfl, ?_, .running ?_ ?_ ?_⟩
    · rwa [keeps.attached]
    · rw [keeps.started, started]
    · rw [keeps.submitted, submitted]
    · rw [keeps.attached]
      exact reached

/-- The event is harmless and keeps the chain standing, or it sets a promise again. -/
def Steps (chain : Chain X T) (links : Links X T) (event : ChainEvent) : Prop :=
  (¬ chain.Harmless links event ∧ chain.step links event = .error .assertion) ∨
    (chain.Harmless links event ∧ ∃ next, chain.step links event = .ok next ∧
      next.attached ≤ chain.continuations.length + 1 ∧ Stands chain next)

theorem doCallback_promise {value : Result X T} (source : chain.source = .promise value) (index : Nat) :
    chain.doCallback index = chain.invoke (chain.continuations.drop index) index := by
  simp only [doCallback, source]

theorem doCallback_asyncVia {routine : Result X T} (source : chain.source = .asyncVia routine) :
    chain.doCallback 0 = fun data links => links.submit data := by
  simp only [doCallback, source]

theorem doCallback_succ (index : Nat) :
    chain.doCallback (index + 1) = chain.invoke (chain.continuations.drop (index + 1)) (index + 1) := by
  unfold doCallback
  split
  next _ impossible => cases impossible
  next => rfl

theorem harmless_of_not_begins {event : ChainEvent} (ends : ¬ chain.Begins links event) : chain.Harmless links event :=
  fun begins => absurd begins ends

theorem harmless_iff {event : ChainEvent} (begins : chain.Begins links event) :
    chain.Harmless links event ↔ ¬ chain.Overtakes links chain.continuations chain.first := by
  rw [Harmless, Overtakes, last]
  tauto

/-- The first promise of `async_via` is set, and its callback left to the executor. -/
theorem setCatching_submit {routine : Result X T} (source : chain.source = .asyncVia routine)
    (started : links.started = true) (submitted : links.submitted = none)
    (bound : links.attached ≤ chain.continuations.length + 1) (reached : Reached chain links 0 0) :
    ∃ next, (do return (← links.setCatching (chain.doCallback 0) 0 routine).2 : Outcome (Links X T)) = .ok next ∧
      next.attached ≤ chain.continuations.length + 1 ∧ Stands chain next := by
  have first : chain.first = routine := by rw [Chain.first, source]
  have here : chain.results[0]? = some routine := by rw [results_zero, first]
  obtain ⟨middle, sets, keeps, middleReached⟩ := reached.set here (chain.doCallback 0)
  have catches : links.setCatching (chain.doCallback 0) 0 routine =
      .ok (none, if 0 < links.attached then { middle with submitted := some routine } else middle) := by
    have direct : links.set (chain.doCallback 0) 0 routine =
        .ok (none, if 0 < links.attached then { middle with submitted := some routine } else middle) := by
      rw [sets, doCallback_asyncVia source]
      split <;> rfl
    cases routine with
    | error exception => exact direct
    | ok value =>
        rw [Links.setCatching, direct]
        rfl
  refine ⟨_, by rw [catches]; rfl, ?_⟩
  split
  next some_ =>
    refine ⟨keeps.attached.trans_le bound, .waiting routine source ?_ ?_ ?_ ?_⟩
    · exact keeps.started.trans started
    · rw [first]
    · exact some_.trans_eq keeps.attached.symm
    · exact ⟨middleReached.sets, middleReached.deliveries, middleReached.released, middleReached.stored⟩
  next none_ =>
    refine ⟨keeps.attached.trans_le bound, .running ?_ ?_ ?_⟩
    · exact keeps.started.trans started
    · exact keeps.submitted.trans submitted
    · apply middleReached.cast
      · rw [keeps.attached]
        omega
      · rw [keeps.attached]
        omega

theorem start_steps (stands : Stands chain links) (bound : links.attached ≤ chain.continuations.length + 1) :
    Steps chain links .start := by
  by_cases started : links.started = true
  · refine .inr ⟨?_, links, by rw [step, if_pos started], bound, stands⟩
    apply harmless_of_not_begins
    rintro ⟨fresh, _⟩
    rw [started] at fresh
    cases fresh
  · have fresh : links.started = false := Bool.eq_false_iff.mpr started
    cases stands with
    | waiting _ _ now => exact absurd now started
    | running now => exact absurd now started
    | idle _ submitted reached =>
        have reached' : Reached chain { links with started := true } 0 0 :=
          ⟨reached.sets, reached.deliveries, reached.released, reached.stored⟩
        rw [Steps, step, if_neg started]
        cases source : chain.source with
        | asyncVia routine =>
            right
            obtain ⟨next, sets, nextBound, nextStands⟩ :=
              @setCatching_submit _ _ _ { links with started := true } _ source rfl submitted bound reached'
            refine ⟨harmless_of_not_begins ?_, next, sets, nextBound, nextStands⟩
            rintro ⟨_, value, other⟩
            cases source.symm.trans other
        | promise value =>
            have here : chain.results[0]? = some value := by rw [results_zero, first, source]
            obtain ⟨middle, sets, keeps, middleReached⟩ := reached'.set here (chain.doCallback 0)
            have same : chain.first = value := by rw [first, source]
            have harmless : chain.Harmless links .start ↔ ¬ chain.Overtakes links chain.continuations value := by
              have begins : chain.Begins links .start := ⟨fresh, value, source⟩
              rw [harmless_iff begins, same]
            have ends : (chain.Overtakes links chain.continuations value ∧
                (do return (← { links with started := true }.set (chain.doCallback 0) 0 value).2) =
                  (.error .assertion : Outcome (Links X T))) ∨
                (¬ chain.Overtakes links chain.continuations value ∧ ∃ next,
                  (do return (← { links with started := true }.set (chain.doCallback 0) 0 value).2) =
                    (.ok next : Outcome (Links X T)) ∧
                  next.attached ≤ chain.continuations.length + 1 ∧ Stands chain next) := by
              have middleBound : middle.attached ≤ chain.continuations.length + 1 := keeps.attached.trans_le bound
              rw [sets]
              split
              next some_ =>
                have ends := invoke_ends chain.continuations here List.drop_zero middleReached
                  (some_.trans_eq keeps.attached.symm) middleBound
                rw [doCallback_promise source, List.drop_zero]
                have result := ends.stands keeps.started (keeps.submitted.trans submitted) middleBound
                rwa [Overtakes, keeps.attached] at result
              next none_ =>
                right
                have nobody : links.attached = 0 := Nat.eq_zero_of_not_pos none_
                refine ⟨?_, middle, rfl, middleBound, .running keeps.started (keeps.submitted.trans submitted) ?_⟩
                · intro overtakes
                  rw [Overtakes, nobody] at overtakes
                  cases overtakes.1
                · apply middleReached.cast
                  · rw [keeps.attached, nobody, Nat.zero_min]
                  · rw [keeps.attached, nobody]
            rw [harmless, not_not]
            exact ends

theorem task_steps (stands : Stands chain links) (bound : links.attached ≤ chain.continuations.length + 1) :
    Steps chain links .task := by
  have unchanged : links.submitted = none → Steps chain links .task := by
    intro submitted
    refine .inr ⟨?_, links, by simp only [step, submitted], bound, stands⟩
    apply harmless_of_not_begins
    rw [Begins, submitted]
    exact Bool.false_ne_true
  cases stands with
  | idle _ submitted => exact unchanged submitted
  | running _ submitted => exact unchanged submitted
  | waiting routine source started submitted present reached =>
      have ends := @invoke_ends _ _ _ { links with submitted := none } _ _ chain.continuations results_zero List.drop_zero
        ⟨reached.sets, reached.deliveries, reached.released, reached.stored⟩ present bound
      have result := ends.stands started rfl bound
      have begins : chain.Begins links .task := by
        rw [Begins, submitted]
        rfl
      rw [Steps, harmless_iff begins, not_not]
      simp only [step, submitted]
      exact result

theorem attach_steps (stands : Stands chain links) (bound : links.attached ≤ chain.continuations.length + 1) :
    Steps chain links .attach := by
  right
  refine ⟨harmless_of_not_begins id, ?_⟩
  by_cases more : links.attached ≤ chain.continuations.length
  · have nextBound : links.attached + 1 ≤ chain.continuations.length + 1 := Nat.succ_le_succ more
    have awaits : ∀ {count done}, Reached chain links count done → count ≤ links.attached →
        links.result_ links.attached = none := by
      intro count done reached few
      rw [reached.stored, if_neg (Nat.not_lt.mpr few)]
    rw [step, if_pos more]
    cases stands with
    | idle started submitted reached =>
        refine ⟨{ links with attached := links.attached + 1 }, ?_, nextBound, .idle started submitted
          ⟨reached.sets, reached.deliveries, reached.released, reached.stored⟩⟩
        simp only [awaits reached (Nat.zero_le _)]
    | waiting routine source started submitted present reached =>
        refine ⟨{ links with attached := links.attached + 1 }, ?_, nextBound, .waiting routine source started submitted
          (Nat.succ_pos _) ⟨reached.sets, reached.deliveries, reached.released, reached.stored⟩⟩
        simp only [awaits reached present]
    | running started submitted reached =>
        have inside : links.attached < chain.results.length := by
          rw [length_results]
          omega
        have here : chain.results[links.attached]? = some chain.results[links.attached] := List.getElem?_eq_getElem inside
        have stored : links.result_ links.attached = some chain.results[links.attached] := by
          rw [reached.stored, if_pos (by omega), here]
        have reached' : Reached chain { links with attached := links.attached + 1 } (links.attached + 1) links.attached := by
          have same : min links.attached chain.continuations.length + 1 = links.attached + 1 := by omega
          rw [← same]
          exact ⟨reached.sets, reached.deliveries, reached.released, reached.stored⟩
        simp only [stored]
        by_cases queues : links.attached = 0 ∧ ∃ routine, chain.source = .asyncVia routine
        · obtain ⟨nobody, routine, source⟩ := queues
          have first : chain.results[links.attached] = chain.first := by
            have zero := @results_zero _ _ chain
            rw [← nobody, here] at zero
            exact Option.some.inj zero
          refine ⟨{ links with attached := links.attached + 1, submitted := some chain.first }, ?_, nextBound,
            .waiting routine source started rfl (Nat.succ_pos _) ?_⟩
          · rw [first, nobody, doCallback_asyncVia source]
            rfl
          · have early := reached'.cast (show _ = 1 by rw [nobody]) nobody
            exact ⟨early.sets, early.deliveries, early.released, early.stored⟩
        · have inline : chain.doCallback links.attached =
              chain.invoke (chain.continuations.drop links.attached) links.attached := by
            cases nobody : links.attached with
            | succ index => exact doCallback_succ index
            | zero =>
                cases source : chain.source with
                | promise value => exact doCallback_promise source 0
                | asyncVia routine => exact absurd ⟨nobody, routine, source⟩ queues
          have ends := invoke_ends (chain.continuations.drop links.attached) here rfl reached' (Nat.lt_succ_self _) nextBound
          rw [inline]
          rcases ends.stands started submitted nextBound with ⟨overtakes, _⟩ | ⟨_, standing⟩
          · have past : chain.continuations.length ≤ links.attached := Nat.le_of_succ_le_succ overtakes.1.ge
            rw [List.drop_eq_nil_of_le past] at overtakes
            exact overtakes.2.2.elim
          · exact standing
  · exact ⟨links, by rw [step, if_neg more], bound, stands⟩

theorem step_steps (stands : Stands chain links) (bound : links.attached ≤ chain.continuations.length + 1)
    (event : ChainEvent) : Steps chain links event := by
  cases event with
  | start => exact start_steps stands bound
  | task => exact task_steps stands bound
  | attach => exact attach_steps stands bound

theorem initial_stands : Stands chain {} := by
  refine .idle rfl rfl ⟨rfl, rfl, ?_, ?_⟩
  · simp
  · simp

/-- **Promises are set once.** Every event of a run ends without setting a promise again, with the
promises set and the callbacks invoked once each on the results of their stages, if and only if no
delivery through the whole chain has its last callback throw after a continuation has returned. -/
theorem run_sets_once_iff (chain : Chain X T) (schedule : List ChainEvent) :
    (∀ first rest, schedule = first ++ rest → ∃ links, run chain.step {} first = .ok links ∧ chain.Once links) ↔
      Meets chain.step chain.Harmless {} schedule := by
  apply run_prefixes_iff chain.step fun links => links.attached ≤ chain.continuations.length + 1 ∧ Stands chain links
  · rintro links ⟨_, stands⟩
    exact stands.once
  · rintro links event ⟨bound, stands⟩ harmless
    rcases step_steps stands bound event with ⟨harmful, _⟩ | ⟨_, stepped⟩
    · exact absurd harmless harmful
    · exact stepped
  · rintro links event next ⟨bound, stands⟩ harmful stepped
    rcases step_steps stands bound event with ⟨_, stops⟩ | ⟨harmless, _⟩
    · cases stops.symm.trans stepped
    · exact absurd harmless harmful
  · exact ⟨Nat.zero_le _, initial_stands⟩

/-- One `then` and a `subscribe` whose callback throws: the promise of `then` has delivered its
result when it is set again. -/
theorem run_sets_twice :
    run (step (⟨.promise (.ok 1), [id], fun _ => some 0⟩ : Chain Nat Nat)) {} [.attach, .attach, .start] =
      .error .assertion := rfl

end Chain

end Dsac.Futures

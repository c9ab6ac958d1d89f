import Dsac.Concurrency.Futures.Combine.Exposure

namespace Dsac.Futures.FirstN

open Dsac.Library

/-! What `first_n` has done once all the callbacks have completed. -/

variable {m : Nat} {R E : Type}

/-- The shared state that the promise of the context was made with has the result that `set` was
called with. -/
def PromiseSet (system : Combination m R (Except String (List R)) E (Context m R) (Place R)) : Prop :=
  ∃ world result, system.states.get Combination.promised = some world ∧ world.hasResult = true ∧
    world.result_ = some result ∧ system.published.map Prod.snd = [result]

section

variable {results : Fin m → R} {n : Nat} {context : Context m R}
  {places : Fin m → Progress (Place R)} {published : Option (Fin m × Except String (List R))}

theorem Invariant.completed_of_past (inv : Invariant results n context places published)
    (past : ∀ index, places index = .past) : context.completed = m := by
  have arrived : ∀ index, index ∈ context.arrivals := fun index => by
    rw [(inv.stands index).arrived, past index]
    rfl
  have lower := (List.nodup_finRange m).length_le_of_subset fun index _ => arrived index
  have upper := inv.distinct.length_le_card
  rw [List.length_finRange] at lower
  rw [Fintype.card_fin] at upper
  rw [inv.counted]
  exact Nat.le_antisymm upper lower

/-- The last winner to come to `stored` published, unless nobody is a winner. -/
theorem Invariant.isSome_iff (enough : n ≤ m) (inv : Invariant results n context places published)
    (past : ∀ index, places index = .past) : published.isSome ↔ 0 < n := by
  have length : (context.winners n).length = n := by
    rw [inv.winners_length, inv.completed_of_past past]
    exact Nat.min_eq_left enough
  have passed : (context.winners n).countP (fun index => Stored (places index)) = (context.winners n).length :=
    List.countP_eq_length.mpr fun index _ => by
      rw [past index]
      rfl
  have full : context.stored = n := by rw [inv.stored, passed, length]
  cases inv.scanning with
  | filling open_ nobody entries =>
      have none : n = 0 := by omega
      simp only [none, Option.isSome_none, Bool.false_eq_true, Nat.lt_irrefl]
  | gathering index j _ admitted at_ alone entries => cases (past index).symm.trans at_
  | published index _ admitted nobody =>
      have some : 0 < n := by
        rw [← length]
        exact List.length_pos_of_mem admitted
      simp only [some, Option.isSome_some]

end

/-- **With `n = 0` the promise is never set.** In every final state of a run of `first_n` in which
all the callbacks have completed, the promise of the context has been set if and only if `n` is
not zero. -/
theorem interleave_sets_promise_iff {n : Nat} (enough : n ≤ m) (results : Fin m → R)
    (executors : Fin m → Option E) (schedule : List (Agent m)) :
    ∃ system, Combination.interleave (firstN n) results (call n executors) schedule = .ok system ∧
      ((∀ index, system.callbacks index = .returned) → (PromiseSet system ↔ 0 < n)) := by
  have start : call n executors = .ok (Combination.initial (firstN n : Lambda (Fin m) R _ _ _) executors) :=
    if_neg (Nat.not_lt.mpr enough)
  obtain ⟨system, ran, sound⟩ := Combination.interleave_sound (disciplined results n) executors schedule
  refine ⟨system, by rw [start, ran], fun done => ?_⟩
  obtain ⟨published, inv, publication⟩ := sound.publishes
  have past : ∀ index, system.places index = .past := fun index => by
    rw [Combination.places, done index]
    rfl
  rw [← inv.isSome_iff enough past]
  cases publication with
  | awaited unset held found idle =>
      refine iff_of_false ?_ (by rintro ⟨⟩)
      rintro ⟨world, result, stored, has, _⟩
      cases found.symm.trans stored
      rw [World.new_hasResult] at has
      cases has
  | set index result world once found stage others =>
      rw [done index] at stage
      cases stage with
      | returned released safe =>
          refine iff_of_true ⟨world, result, found, hasResult_of_returned safe, safe.resultStored trivial, ?_⟩ rfl
          rw [once]
          rfl

/-- Both futures complete, and both callbacks are called and run to their end. -/
def completedBoth : List (Agent 2) :=
  List.replicate 30 .combinator ++ List.replicate 9 (.completer 1) ++
    List.replicate 9 (.completer 0) ++ List.replicate 30 (.callback 1) ++
    List.replicate 30 (.callback 0)

theorem interleave_sets_promise_iff_both :
    ∃ system, Combination.interleave (firstN 2) (fun index : Fin 2 => index.val + 5)
        (call 2 fun _ => (none : Option Empty)) completedBoth = .ok system ∧ PromiseSet system := by
  obtain ⟨system, ran, set⟩ := interleave_sets_promise_iff (show 2 ≤ 2 by decide)
    (fun index : Fin 2 => index.val + 5) (fun _ => (none : Option Empty)) completedBoth
  have callbacks : (Combination.interleave (firstN 2) (fun index : Fin 2 => index.val + 5)
      (call 2 fun _ => (none : Option Empty)) completedBoth).map (·.callbacks 0) = .ok .returned ∧
      (Combination.interleave (firstN 2) (fun index : Fin 2 => index.val + 5)
      (call 2 fun _ => (none : Option Empty)) completedBoth).map (·.callbacks 1) = .ok .returned := ⟨rfl, rfl⟩
  rw [ran] at callbacks
  refine ⟨system, ran, (set fun index => ?_).mpr (by decide)⟩
  match index with
  | 0 => exact Except.ok.inj callbacks.1
  | 1 => exact Except.ok.inj callbacks.2

/-- Nobody is to be waited for: both callbacks leave at their first test. -/
theorem nobody_sets_promise :
    ∃ system, Combination.interleave (firstN 0) (fun index : Fin 2 => index.val + 5)
        (call 0 fun _ => (none : Option Empty)) completedBoth = .ok system ∧
      system.callbacks 0 = .returned ∧ system.callbacks 1 = .returned ∧ ¬ PromiseSet system := by
  refine ⟨_, rfl, rfl, rfl, ?_⟩
  rintro ⟨world, result, _, _, _, published⟩
  cases published

end Dsac.Futures.FirstN

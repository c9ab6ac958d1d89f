import Mathlib

namespace Dsac.Library

/-! Finite runs of a fallible step function. A run is given by its list of
inputs; an invariant may mention the inputs consumed so far. -/

variable {σ : Type u} {ι : Type v} {ε : Type w} (step : σ → ι → Except ε σ)

def run : σ → List ι → Except ε σ
  | state, [] => .ok state
  | state, input :: inputs =>
      match step state input with
      | .error reason => .error reason
      | .ok next => run next inputs

/-- Every step that the run takes meets the condition in the state before it. -/
def Meets (condition : σ → ι → Prop) : σ → List ι → Prop
  | _, [] => True
  | state, input :: inputs =>
      condition state input ∧ ∀ next, step state input = .ok next → Meets condition next inputs

instance Meets.decidable (condition : σ → ι → Prop)
    [∀ state input, Decidable (condition state input)] :
    (state : σ) → (inputs : List ι) → Decidable (Meets step condition state inputs)
  | _, [] => .isTrue trivial
  | state, input :: inputs =>
      match stepped : step state input with
      | .error _ =>
          decidable_of_iff (condition state input)
            ⟨fun now => ⟨now, fun _ other => nomatch stepped.symm.trans other⟩, And.left⟩
      | .ok next =>
          have := Meets.decidable condition next inputs
          decidable_of_iff (condition state input ∧ Meets step condition next inputs)
            ⟨fun met => ⟨met.1, fun _ other => Except.ok.inj (stepped.symm.trans other) ▸ met.2⟩,
              fun met => ⟨met.1, met.2 next stepped⟩⟩

theorem run_append (state : σ) (first second : List ι) :
    run step state (first ++ second) =
      match run step state first with
      | .error reason => .error reason
      | .ok middle => run step middle second := by
  induction first generalizing state with
  | nil => rfl
  | cons input inputs ih =>
      simp only [List.cons_append, run]
      cases step state input with
      | error reason => rfl
      | ok next => exact ih next

theorem Meets.of_append {condition : σ → ι → Prop} {state : σ} {first second : List ι}
    (meets : Meets step condition state (first ++ second)) :
    Meets step condition state first := by
  induction first generalizing state with
  | nil => trivial
  | cons input inputs ih =>
      exact ⟨meets.1, fun next stepped => ih (meets.2 next stepped)⟩

theorem Meets.after_append {condition : σ → ι → Prop} {state middle : σ} {first second : List ι}
    (meets : Meets step condition state (first ++ second)) (ran : run step state first = .ok middle) :
    Meets step condition middle second := by
  induction first generalizing state with
  | nil =>
      cases ran
      exact meets
  | cons input inputs ih =>
      cases stepped : step state input with
      | error reason => simp only [run, stepped, reduceCtorEq] at ran
      | ok next =>
          simp only [run, stepped] at ran
          exact ih (meets.2 next stepped) ran

/-- A run meets the condition if and only if it holds before each of its steps. -/
theorem meets_iff_prefixes {condition : σ → ι → Prop} {state : σ}
    {inputs : List ι} :
    Meets step condition state inputs ↔ ∀ first input rest middle, inputs = first ++ input :: rest →
      run step state first = .ok middle → condition middle input := by
  constructor
  · rintro meets first input rest middle rfl ran
    exact (meets.after_append step ran).1
  · intro holds
    induction inputs generalizing state with
    | nil => trivial
    | cons input inputs ih =>
        refine ⟨holds [] input inputs state rfl rfl, fun next stepped => ih ?_⟩
        intro first other rest middle split ran
        refine holds (input :: first) other rest middle (by rw [split, List.cons_append]) ?_
        simpa only [run, stepped] using ran

theorem Meets.of_forall {condition : σ → ι → Prop} (always : ∀ state input, condition state input)
    (state : σ) (inputs : List ι) : Meets step condition state inputs := by
  induction inputs generalizing state with
  | nil => trivial
  | cons input inputs ih => exact ⟨always state input, fun next _ => ih next⟩

/-- What every successful step keeps, a run that succeeds keeps. -/
theorem run_keeps (invariant : σ → Prop)
    (kept : ∀ state input next, invariant state → step state input = .ok next → invariant next)
    {state last : σ} {inputs : List ι} (ran : run step state inputs = .ok last)
    (holds : invariant state) : invariant last := by
  induction inputs generalizing state with
  | nil =>
      cases ran
      exact holds
  | cons input inputs ih =>
      cases stepped : step state input with
      | error reason => simp only [run, stepped, reduceCtorEq] at ran
      | ok next =>
          simp only [run, stepped] at ran
          exact ih ran (kept state input next holds stepped)

/-- If a step that fails the condition dooms the rest of the run, a run that does not
end in a doomed state has met the condition. -/
theorem Meets.of_last {condition : σ → ι → Prop} {invariant doomed : σ → Prop}
    (kept : ∀ state input next, invariant state → step state input = .ok next → invariant next)
    (fails : ∀ state input next, invariant state → step state input = .ok next →
      ¬ condition state input → doomed next)
    (stays : ∀ state input next, invariant state ∧ doomed state → step state input = .ok next →
      doomed next)
    {state last : σ} {inputs : List ι} (ran : run step state inputs = .ok last)
    (holds : invariant state) (spared : ¬ doomed last) : Meets step condition state inputs := by
  induction inputs generalizing state with
  | nil => trivial
  | cons input inputs ih =>
      cases stepped : step state input with
      | error reason => simp only [run, stepped, reduceCtorEq] at ran
      | ok next =>
          simp only [run, stepped] at ran
          have after := kept state input next holds stepped
          refine ⟨by_contra fun failed => ?_, fun other same => ?_⟩
          · have lost : invariant last ∧ doomed last :=
              run_keeps step (fun state => invariant state ∧ doomed state)
                (fun state input next held moved => ⟨kept state input next held.1 moved, stays state input next held moved⟩)
                ran ⟨after, fails state input next holds stepped failed⟩
            exact spared lost.2
          · cases stepped.symm.trans same
            exact ih ran after

/-- The run rule. Every step that meets the condition carries the invariant from the
inputs `past` to `past ++ [input]` if it returns, and ends in an allowed error if not. -/
theorem run_outcome {condition : σ → ι → Prop} (invariant : List ι → σ → Prop) (allowed : ε → Prop)
    (preserved : ∀ past state input, invariant past state → condition state input →
      (∃ next, step state input = .ok next ∧ invariant (past ++ [input]) next) ∨
        ∃ reason, step state input = .error reason ∧ allowed reason)
    {past : List ι} {state : σ} (holds : invariant past state)
    {inputs : List ι} (meets : Meets step condition state inputs) :
    (∃ last, run step state inputs = .ok last ∧ invariant (past ++ inputs) last) ∨
      ∃ reason, run step state inputs = .error reason ∧ allowed reason := by
  induction inputs generalizing past state with
  | nil => exact Or.inl ⟨state, rfl, by simpa using holds⟩
  | cons input inputs ih =>
      rcases preserved past state input holds meets.1 with ⟨next, stepped, nextHolds⟩ | ⟨reason, stepped, ends⟩
      · simpa only [run, stepped, List.append_assoc, List.singleton_append] using
          ih nextHolds (meets.2 next stepped)
      · exact Or.inr ⟨reason, by simp only [run, stepped], ends⟩

/-- The run rule for steps that succeed whenever they meet the condition. -/
theorem run_invariant {condition : σ → ι → Prop} (invariant : List ι → σ → Prop)
    (preserved : ∀ past state input, invariant past state → condition state input →
      ∃ next, step state input = .ok next ∧ invariant (past ++ [input]) next)
    {past : List ι} {state : σ} (holds : invariant past state)
    {inputs : List ι} (meets : Meets step condition state inputs) :
    ∃ last, run step state inputs = .ok last ∧ invariant (past ++ inputs) last := by
  rcases run_outcome step invariant (fun _ => False)
    (fun past state input held met => Or.inl (preserved past state input held met)) holds meets with
    ran | ⟨_, _, impossible⟩
  · exact ran
  · exact impossible.elim

/-- If exactly the steps that meet the condition lead to a good state, a run is good after
every step if and only if all its steps meet the condition. -/
theorem run_prefixes_iff {condition : σ → ι → Prop} {good : σ → Prop} (invariant : σ → Prop)
    (isGood : ∀ state, invariant state → good state)
    (kept : ∀ state input, invariant state → condition state input →
      ∃ next, step state input = .ok next ∧ invariant next)
    (spoilt : ∀ state input next, invariant state → ¬ condition state input →
      step state input = .ok next → ¬ good next)
    {state : σ} (holds : invariant state) (inputs : List ι) :
    (∀ first rest, inputs = first ++ rest → ∃ last, run step state first = .ok last ∧ good last) ↔
      Meets step condition state inputs := by
  induction inputs generalizing state with
  | nil =>
      refine ⟨fun _ => trivial, fun _ first rest split => ?_⟩
      obtain ⟨rfl, rfl⟩ := List.append_eq_nil_iff.mp split.symm
      exact ⟨state, rfl, isGood state holds⟩
  | cons input inputs ih =>
      constructor
      · intro always
        obtain ⟨next, stepped, nextGood⟩ := always [input] inputs rfl
        have stepped : step state input = .ok next := by
          cases result : step state input <;> simp_all [run]
        have met : condition state input := by_contra fun failed =>
          spoilt state input next holds failed stepped nextGood
        obtain ⟨_, same, nextHolds⟩ := kept state input holds met
        cases stepped.symm.trans same
        refine ⟨met, fun other again => ?_⟩
        cases stepped.symm.trans again
        refine (ih nextHolds).mp fun first rest split => ?_
        have further := always (input :: first) rest (by rw [split, List.cons_append])
        simpa only [run, stepped] using further
      · rintro ⟨met, later⟩ first rest split
        cases first with
        | nil => exact ⟨state, rfl, isGood state holds⟩
        | cons head first =>
            obtain ⟨rfl, remaining⟩ := List.cons.inj split
            obtain ⟨next, stepped, nextHolds⟩ := kept state input holds met
            simpa only [run, stepped] using (ih nextHolds).mpr (later next stepped) first rest remaining

end Dsac.Library

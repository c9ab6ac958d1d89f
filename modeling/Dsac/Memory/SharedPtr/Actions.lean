import Dsac.Memory.SharedPtr.Counting

namespace Dsac.SharedPtr

open Dsac.Library

/-! Every step of the members of `shared_ptr` keeps the handles and the counters together. -/

variable {ν : Type}

namespace Stage

/-- The destructor is destroying the object. -/
def Busy : Stage → Prop
  | .zero | .uncounted | .deleting => True
  | .alive | .ending | .done => False

variable {stage : Stage}

theorem busy_iff : stage.Busy ↔ stage = .zero ∨ stage = .uncounted ∨ stage = .deleting := by
  cases stage <;> simp [Busy]

theorem quiet_of_not_busy (idle : ¬ stage.Busy) : stage = .alive ∨ stage = .ending ∨ stage = .done := by
  cases stage <;> simp_all [Busy]

end Stage

theorem Fields.whole_owning (name offset : Nat) : (owning name offset).Whole := .inr ⟨name, offset, rfl⟩

theorem Fields.whole_empty : ({} : Fields).Whole := .inl rfl

theorem counted_empty (name : Nat) (stage : Stage) : counted name (some ⟨stage, {}⟩) = 0 := by
  simp [counted, holds]

theorem counted_done (name : Nat) (fields : Fields) : counted name (some ⟨.done, fields⟩) = 0 := by
  simp [counted, holds]

theorem quiet_idle {name : Nat} {handle : Handle} (idle : ¬ handle.stage.Busy) : Quiet name (some handle) :=
  quiet_of_stage (Stage.quiet_of_not_busy idle)

theorem not_refers_owning {name other offset : Nat} {stage : Stage} (apart : other ≠ name) :
    ¬ Refers other (some ⟨stage, owning name offset⟩) :=
  not_refers_of_ne fun same => apart (Option.some.inj same).symm

namespace Store

variable {store next : Store ν} {name : Nat} {this other : ν} {handle : Handle} {fields : Fields}
  {cell : Option Handle}

theorem get_eq (here : store.handles this = some handle) : store.get this = .ok handle := by
  rw [get, here]

theorem counter_eq {value : Int} (here : store.counters name = some value) :
    store.counter (some name) = .ok (name, value) := by
  simp only [counter, here]

/-- A step that only moves pointers between quiet handles. -/
theorem Sound.keep [Fintype ν] (sound : store.Sound)
    (cells : ∀ name this, next.handles this = store.handles this ∨
      Quiet name (store.handles this) ∧ Quiet name (next.handles this))
    (total : ∀ name, next.total name = store.total name) (counters : next.counters = store.counters)
    (objects : next.objects = store.objects) (deleters : next.deleters = store.deleters)
    (fresh : next.fresh = store.fresh)
    (fits : ∀ this handle, next.handles this = some handle → next.handles this = store.handles this ∨
      handle.fields.Whole ∧ ¬ handle.stage.Busy) : next.Sound where
  whole this handle here := by
    rcases fits this handle here with same | ⟨whole, _⟩
    · exact sound.whole this handle (same ▸ here)
    · exact whole
  phase name := by
    apply (sound.phase name).keep (cells name) (total name)
    · rw [counters]
    · rw [objects]
    · rw [deleters]
    · rw [fresh]
  owns this handle here stage := by
    rcases fits this handle here with same | ⟨_, idle⟩
    · exact sound.owns this handle (same ▸ here) stage
    · exact absurd (Stage.busy_iff.mpr stage) idle

variable [DecidableEq ν]

@[simp] theorem put_self : (store.put this cell).handles this = cell := Function.update_self _ _ _

theorem put_of_ne (apart : other ≠ this) : (store.put this cell).handles other = store.handles other :=
  Function.update_of_ne apart _ _

theorem decrement_eq {offset : Nat} {value : Int} (here : store.handles this = some ⟨.ending, owning name offset⟩)
    (counter : store.counters name = some value) :
    store.decrement this = .ok ((store.setCounter name (some (value - 1))).put this
      (some ⟨if value - 1 = 0 then .zero else .done, owning name offset⟩)) := by
  rw [Store.decrement, get_eq here, Outcome.ok_bind]
  simp only [owning, counter_eq counter, Outcome.ok_bind]

/-- A handle whose decrement did not reach zero has nothing left to destroy. -/
theorem destroy_done (here : store.handles this = some ⟨.done, fields⟩) :
    store.deleteCount this = .ok store ∧ store.deleteObject this = .ok store ∧
      store.deleteDeleter this = .ok store := by
  refine ⟨?_, ?_, ?_⟩
  · rw [deleteCount, get_eq here, Outcome.ok_bind, if_pos rfl]
  · rw [deleteObject, get_eq here, Outcome.ok_bind, if_pos rfl]
  · rw [deleteDeleter, get_eq here, Outcome.ok_bind, if_pos rfl]

variable [Fintype ν]

theorem total_put (store : Store ν) (this : ν) (cell : Option Handle) (name : Nat) :
    (store.put this cell).total name + counted name (store.handles this) = store.total name + counted name cell :=
  WaitQueue.total_update (counted name) store.handles this cell

/-- A handle changes without a change of the count. -/
theorem Sound.put (sound : store.Sound) (before : ∀ name, Quiet name (store.handles this))
    (same : ∀ name, counted name cell = counted name (store.handles this))
    (fits : ∀ handle, cell = some handle → handle.fields.Whole ∧ ¬ handle.stage.Busy) :
    (store.put this cell).Sound := by
  refine sound.keep ?_ ?_ rfl rfl rfl rfl ?_
  · intro name other
    by_cases here : other = this
    · subst here
      rw [put_self]
      refine .inr ⟨before name, ?_⟩
      intro handle isCell
      exact quiet_idle (fits handle isCell).2 handle rfl
    · exact .inl (put_of_ne here)
  · intro name
    have total := store.total_put this cell name
    rw [same name] at total
    exact Nat.add_right_cancel total
  · intro other handle here
    by_cases isThis : other = this
    · subst isThis
      rw [put_self] at here
      exact .inr (fits handle here)
    · exact .inl (put_of_ne isThis)

theorem Sound.clear (sound : store.Sound) (absent : store.handles this = none) : (store.clear this).Sound := by
  apply sound.put
  · intro name
    rw [absent]
    exact quiet_none
  · intro name
    rw [absent, counted_empty]
    rfl
  · intro handle same
    cases same
    exact ⟨Fields.whole_empty, fun busy => busy⟩

theorem Sound.close (sound : store.Sound) (here : store.handles this = some ⟨.alive, fields⟩) :
    store.close this = .ok (store.put this (some ⟨.ending, fields⟩)) ∧
      (store.put this (some ⟨.ending, fields⟩)).Sound := by
  constructor
  · rw [Store.close, get_eq here]
    rfl
  · apply sound.put
    · intro name
      rw [here]
      exact quiet_idle fun busy => busy
    · intro name
      rw [here]
      exact counted_congr fields (.inr rfl) (.inl rfl)
    · intro handle same
      have whole : fields.Whole := sound.whole this _ here
      cases same
      exact ⟨whole, fun busy => busy⟩

theorem Sound.leave (sound : store.Sound) (here : store.handles this = some ⟨.done, fields⟩) :
    (store.put this none).Sound := by
  apply sound.put
  · intro name
    rw [here]
    exact quiet_idle fun busy => busy
  · intro name
    rw [here, counted_done]
    rfl
  · intro handle absent
    cases absent

/-- The pointers of a handle go to another one that has none. -/
theorem Sound.take (sound : store.Sound) (apart : this ≠ other)
    (room : store.handles this = none ∨ store.handles this = some ⟨.alive, {}⟩)
    (source : store.handles other = some ⟨.alive, fields⟩) :
    store.take this other =
        .ok ((store.put other (some ⟨.alive, {}⟩)).put this (some ⟨.alive, fields⟩)) ∧
      ((store.put other (some ⟨.alive, {}⟩)).put this (some ⟨.alive, fields⟩)).Sound := by
  have empty : ∀ name, counted name (store.handles this) = 0 := by
    intro name
    rcases room with absent | empty
    · rw [absent]
      rfl
    · rw [empty, counted_empty]
  have quietHere : ∀ name, Quiet name (store.handles this) := by
    intro name
    rcases room with absent | empty
    · rw [absent]
      exact quiet_none
    · rw [empty]
      exact quiet_idle fun busy => busy
  constructor
  · rw [Store.take, get_eq source]
    rfl
  · refine sound.keep ?_ ?_ rfl rfl rfl rfl ?_
    · intro name cell
      by_cases isThis : cell = this
      · subst isThis
        rw [put_self]
        exact .inr ⟨quietHere name, quiet_idle fun busy => busy⟩
      rw [put_of_ne isThis]
      by_cases isOther : cell = other
      · subst isOther
        rw [put_self, source]
        exact .inr ⟨quiet_idle fun busy => busy, quiet_idle fun busy => busy⟩
      · exact .inl (put_of_ne isOther)
    · intro name
      have first := store.total_put other (some ⟨.alive, {}⟩) name
      have second := (store.put other (some ⟨.alive, {}⟩)).total_put this (some ⟨.alive, fields⟩) name
      rw [put_of_ne apart, empty] at second
      rw [source, counted_empty] at first
      omega
    · intro cell handle here
      by_cases isThis : cell = this
      · subst isThis
        rw [put_self] at here
        cases here
        exact .inr ⟨sound.whole other _ source, fun busy => busy⟩
      rw [put_of_ne isThis] at here ⊢
      by_cases isOther : cell = other
      · subst isOther
        rw [put_self] at here
        cases here
        exact .inr ⟨Fields.whole_empty, fun busy => busy⟩
      · exact .inl (put_of_ne isOther)

theorem Sound.swap (sound : store.Sound) {first second : Fields}
    (here : store.handles this = some ⟨.alive, first⟩) (there : store.handles other = some ⟨.alive, second⟩) :
    store.swap this other =
        .ok ((store.put this (some ⟨.alive, second⟩)).put other (some ⟨.alive, first⟩)) ∧
      ((store.put this (some ⟨.alive, second⟩)).put other (some ⟨.alive, first⟩)).Sound := by
  constructor
  · rw [Store.swap, get_eq here, Outcome.ok_bind, get_eq there]
    rfl
  · refine sound.keep ?_ ?_ rfl rfl rfl rfl ?_
    · intro name cell
      by_cases isOther : cell = other
      · subst isOther
        rw [put_self, there]
        exact .inr ⟨quiet_idle fun busy => busy, quiet_idle fun busy => busy⟩
      rw [put_of_ne isOther]
      by_cases isThis : cell = this
      · subst isThis
        rw [put_self, here]
        exact .inr ⟨quiet_idle fun busy => busy, quiet_idle fun busy => busy⟩
      · exact .inl (put_of_ne isThis)
    · intro name
      have one := store.total_put this (some ⟨.alive, second⟩) name
      have two := (store.put this (some ⟨.alive, second⟩)).total_put other (some ⟨.alive, first⟩) name
      rw [here] at one
      by_cases same : other = this
      · subst same
        cases here.symm.trans there
        rw [put_self] at two
        omega
      · rw [put_of_ne same, there] at two
        omega
    · intro cell handle isCell
      by_cases isOther : cell = other
      · subst isOther
        rw [put_self] at isCell
        cases isCell
        exact .inr ⟨sound.whole this _ here, fun busy => busy⟩
      rw [put_of_ne isOther] at isCell ⊢
      by_cases isThis : cell = this
      · subst isThis
        rw [put_self] at isCell
        cases isCell
        exact .inr ⟨sound.whole other _ there, fun busy => busy⟩
      · exact .inl (put_of_ne isThis)

/-- A step that changes one handle and the tables of one object. -/
theorem Sound.change (sound : store.Sound) {stage : Stage} {offset : Nat}
    (handles : next.handles = Function.update store.handles this (some ⟨stage, owning name offset⟩))
    (elsewhere : ∀ other ≠ name, next.counters other = store.counters other ∧
      next.objects other = store.objects other ∧ next.deleters other = store.deleters other ∧
      (next.fresh ≤ other ↔ store.fresh ≤ other))
    (before : ∀ other ≠ name, ¬ Refers other (store.handles this)) (phase : next.Phase name) : next.Sound where
  whole other handle here := by
    rw [handles] at here
    by_cases isThis : other = this
    · subst isThis
      rw [Function.update_self] at here
      cases here
      exact Fields.whole_owning name offset
    · rw [Function.update_of_ne isThis] at here
      exact sound.whole other handle here
  phase other := by
    by_cases isName : other = name
    · rw [isName]
      exact phase
    obtain ⟨counter, object, deleter, later⟩ := elsewhere other isName
    have absent : ¬ Refers other (some ⟨stage, owning name offset⟩) := not_refers_owning isName
    apply (sound.phase other).keep ?_ ?_ counter object deleter later
    · intro cell
      by_cases isThis : cell = this
      · subst isThis
        rw [handles, Function.update_self]
        exact .inr ⟨quiet_of_not_refers (before other isName), quiet_of_not_refers absent⟩
      · rw [handles, Function.update_of_ne isThis]
        exact .inl rfl
    · have total := WaitQueue.total_update (counted other) store.handles this (some ⟨stage, owning name offset⟩)
      rw [counted_eq_zero absent, counted_eq_zero (before other isName), ← handles] at total
      exact total
  owns other handle here busy := by
    rw [handles] at here
    by_cases isThis : other = this
    · subst isThis
      rw [Function.update_self] at here
      cases here
      exact ⟨name, rfl⟩
    · rw [Function.update_of_ne isThis] at here
      exact sound.owns other handle here busy

theorem Sound.wrap (sound : store.Sound) (absent : store.handles this = none) (offset : Nat) :
    (store.wrap this offset).Sound := by
  have nobody : ∀ other, ¬ Refers store.fresh (store.handles other) := by
    intro other
    cases sound.phase store.fresh with
    | unborn _ _ _ nobody => exact nobody other
    | gone _ _ _ nobody => exact nobody other
    | shared earlier => exact absurd earlier (Nat.lt_irrefl _)
    | last earlier => exact absurd earlier (Nat.lt_irrefl _)
  have one : (store.wrap this offset).total store.fresh = 1 := by
    have total := store.total_put this (some ⟨.alive, owning store.fresh offset⟩) store.fresh
    rw [absent, total_eq_zero nobody, counted_alive rfl] at total
    exact total
  apply sound.change rfl
  · intro other apart
    refine ⟨Function.update_of_ne apart _ _, Function.update_of_ne apart _ _, Function.update_of_ne apart _ _, ?_⟩
    show store.fresh + 1 ≤ other ↔ _
    omega
  · intro other _
    rw [absent]
    exact not_refers_none
  · refine .shared (Nat.lt_succ_self _) (by omega) ?_ (Function.update_self _ _ _) (Function.update_self _ _ _) ?_
    · rw [one]
      exact Function.update_self _ _ _
    · intro other
      show Quiet _ (Function.update store.handles this _ other)
      by_cases here : other = this
      · subst here
        rw [Function.update_self]
        exact quiet_idle fun busy => busy
      · rw [Function.update_of_ne here]
        exact quiet_of_not_refers (nobody other)

theorem Sound.copy (sound : store.Sound) (absent : store.handles this = none)
    (source : store.handles other = some ⟨.alive, fields⟩) (offset : Nat) :
    ∃ next, store.copy this other offset = .ok next ∧ next.Sound ∧
      next.handles = Function.update store.handles this (some ⟨.alive, fields.toBase offset⟩) := by
  have read := get_eq source
  rcases sound.whole other _ source with empty | ⟨name, base, owns⟩
  · cases empty
    refine ⟨store.put this (some ⟨.alive, {}⟩), ?_, sound.clear absent, rfl⟩
    rw [Store.copy, read]
    rfl
  · cases owns
    have positive : 0 < counted name (store.handles other) := by
      rw [source, counted_alive rfl]
      exact Nat.one_pos
    obtain ⟨earlier, _, counter, object, deleter, quiet⟩ := sound.shared_of_counted positive
    let next := (store.setCounter name (some ((store.total name : Int) + 1))).put this
      (some ⟨.alive, owning name (base + offset)⟩)
    have more : next.total name = store.total name + 1 := by
      have total := store.total_put this (some ⟨.alive, owning name (base + offset)⟩) name
      rw [absent, counted_alive rfl] at total
      exact total
    refine ⟨next, ?_, ?_, rfl⟩
    · rw [Store.copy, read, Outcome.ok_bind]
      simp only [Fields.toBase, Option.map_some, counter_eq counter, Outcome.ok_bind]
      rfl
    · apply sound.change rfl
      · intro other apart
        exact ⟨Function.update_of_ne apart _ _, rfl, rfl, Iff.rfl⟩
      · intro other _
        rw [absent]
        exact not_refers_none
      · refine .shared earlier (by omega) ?_ object deleter ?_
        · rw [more]
          exact Function.update_self _ _ _
        · intro cell
          show Quiet _ (Function.update store.handles this _ cell)
          by_cases here : cell = this
          · subst here
            rw [Function.update_self]
            exact quiet_idle fun busy => busy
          · rw [Function.update_of_ne here]
            exact quiet cell

/-! The destructor. -/

theorem Sound.decrement_null (sound : store.Sound) (here : store.handles this = some ⟨.ending, {}⟩) :
    store.decrement this = .ok (store.put this (some ⟨.done, {}⟩)) ∧
      (store.put this (some ⟨.done, {}⟩)).Sound := by
  constructor
  · rw [Store.decrement, get_eq here]
    rfl
  · apply sound.put
    · intro name
      rw [here]
      exact quiet_idle fun busy => busy
    · intro name
      rw [here, counted_empty, counted_empty]
    · intro handle same
      cases same
      exact ⟨Fields.whole_empty, fun busy => busy⟩

/-- A handle that is not the last one leaves the object. -/
theorem Sound.decrement_shared (sound : store.Sound) {offset : Nat}
    (here : store.handles this = some ⟨.ending, owning name offset⟩) (more : store.total name ≠ 1) :
    ∃ next, store.decrement this = .ok next ∧ next.Sound ∧ next.objects = store.objects ∧
      next.handles = Function.update store.handles this (some ⟨.done, owning name offset⟩) := by
  have positive : 0 < counted name (store.handles this) := by
    rw [here, counted_ending rfl]
    exact Nat.one_pos
  obtain ⟨earlier, some, counter, object, deleter, quiet⟩ := sound.shared_of_counted positive
  let next := (store.setCounter name (.some ((store.total name : Int) - 1))).put this
    (.some ⟨.done, owning name offset⟩)
  have fewer : next.total name + 1 = store.total name := by
    have total := store.total_put this (.some ⟨.done, owning name offset⟩) name
    rw [here, counted_ending rfl, counted_done] at total
    exact total
  refine ⟨next, ?_, ?_, rfl, rfl⟩
  · rw [decrement_eq here counter, if_neg (by omega)]
  · apply sound.change rfl
    · intro other apart
      exact ⟨Function.update_of_ne apart _ _, rfl, rfl, Iff.rfl⟩
    · intro other apart
      rw [here]
      exact not_refers_owning apart
    · refine .shared earlier (by omega) ?_ object deleter ?_
      · have value : ((next.total name : Nat) : Int) = (store.total name : Int) - 1 := by omega
        rw [value]
        exact Function.update_self _ _ _
      · intro cell
        show Quiet _ (Function.update store.handles this _ cell)
        by_cases isThis : cell = this
        · subst isThis
          rw [Function.update_self]
          exact quiet_idle fun busy => busy
        · rw [Function.update_of_ne isThis]
          exact quiet cell

/-- The last handle of the object finds the counter at one. -/
theorem Sound.decrement_last (sound : store.Sound) (here : store.handles this = some ⟨.ending, owning name 0⟩)
    (one : store.total name = 1) :
    ∃ next, store.decrement this = .ok next ∧ next.Sound ∧ next.objects = store.objects ∧
      next.handles = Function.update store.handles this (some ⟨.zero, owning name 0⟩) := by
  have positive : 0 < counted name (store.handles this) := by
    rw [here, counted_ending rfl]
    exact Nat.one_pos
  obtain ⟨earlier, some, counter, object, deleter, quiet⟩ := sound.shared_of_counted positive
  let next := (store.setCounter name (.some ((store.total name : Int) - 1))).put this
    (.some ⟨.zero, owning name 0⟩)
  refine ⟨next, ?_, ?_, rfl, rfl⟩
  · rw [decrement_eq here counter, if_pos (by omega)]
  · apply sound.change rfl
    · intro other apart
      exact ⟨Function.update_of_ne apart _ _, rfl, rfl, Iff.rfl⟩
    · intro other apart
      rw [here]
      exact not_refers_owning apart
    · refine .last earlier (Function.update_self _ _ _) ⟨?_, object, deleter⟩ ?_
      · have value : (store.total name : Int) - 1 = 0 := by omega
        have reached : next.counters name = .some ((store.total name : Int) - 1) := Function.update_self _ _ _
        rw [reached, value]
      · intro other apart
        have same : next.handles other = store.handles other := Function.update_of_ne apart _ _
        rw [same]
        apply (quiet other).not_refers
        have both : counted name (store.handles other) + counted name (store.handles this) ≤ store.total name := by
          have pair := Finset.sum_le_sum_of_subset (f := fun cell => counted name (store.handles cell))
            (Finset.subset_univ {other, this})
          rwa [Finset.sum_pair apart] at pair
        omega

theorem Sound.deleteCount (sound : store.Sound) (here : store.handles this = some ⟨.zero, fields⟩) :
    ∃ next, store.deleteCount this = .ok next ∧ next.Sound ∧ next.objects = store.objects ∧
      next.handles = Function.update store.handles this (some ⟨.uncounted, fields⟩) := by
  obtain ⟨name, owns, earlier, ⟨counter, object, deleter⟩, others⟩ := sound.last_of_stage here (.inl rfl)
  cases owns
  refine ⟨(store.setCounter name none).put this (some ⟨.uncounted, owning name 0⟩), ?_, ?_, rfl, rfl⟩
  · rw [Store.deleteCount, get_eq here, Outcome.ok_bind, if_neg nofun]
    simp only [owning, counter_eq counter, Outcome.ok_bind]
  · apply sound.change rfl
    · intro other apart
      exact ⟨Function.update_of_ne apart _ _, rfl, rfl, Iff.rfl⟩
    · intro other apart
      rw [here]
      exact not_refers_owning apart
    · refine .last earlier (Function.update_self _ _ _) ⟨Function.update_self _ _ _, object, deleter⟩ ?_
      intro other apart
      rw [put_of_ne apart]
      exact others other apart

theorem Sound.deleteObject (sound : store.Sound) (here : store.handles this = some ⟨.uncounted, fields⟩) :
    ∃ name next, fields = owning name 0 ∧ store.deleteObject this = .ok next ∧ next.Sound ∧
      store.objects name = .alive ∧ next.objects = Function.update store.objects name .destroyed ∧
      next.handles = Function.update store.handles this (some ⟨.deleting, fields⟩) := by
  obtain ⟨name, owns, earlier, ⟨counter, object, deleter⟩, others⟩ := sound.last_of_stage here (.inr (.inl rfl))
  cases owns
  refine ⟨name, { store.put this (some ⟨.deleting, owning name 0⟩) with
    objects := Function.update store.objects name .destroyed }, rfl, ?_, ?_, object, rfl, rfl⟩
  · rw [Store.deleteObject, get_eq here, Outcome.ok_bind, if_neg nofun]
    simp only [owning]
    rw [if_pos ⟨deleter, trivial, object⟩]
  · apply sound.change rfl
    · intro other apart
      exact ⟨rfl, Function.update_of_ne apart _ _, rfl, Iff.rfl⟩
    · intro other apart
      rw [here]
      exact not_refers_owning apart
    · refine .last earlier (Function.update_self _ _ _) ⟨counter, Function.update_self _ _ _, deleter⟩ ?_
      intro other apart
      show ¬ Refers name ((store.put this _).handles other)
      rw [put_of_ne apart]
      exact others other apart

theorem Sound.deleteDeleter (sound : store.Sound) (here : store.handles this = some ⟨.deleting, fields⟩) :
    ∃ next, store.deleteDeleter this = .ok next ∧ next.Sound ∧ next.objects = store.objects ∧
      next.handles = Function.update store.handles this (some ⟨.done, fields⟩) := by
  obtain ⟨name, owns, earlier, ⟨counter, object, deleter⟩, others⟩ := sound.last_of_stage here (.inr (.inr rfl))
  cases owns
  refine ⟨{ store.put this (some ⟨.done, owning name 0⟩) with
    deleters := Function.update store.deleters name false }, ?_, ?_, rfl, rfl⟩
  · rw [Store.deleteDeleter, get_eq here, Outcome.ok_bind, if_neg nofun]
    simp only [owning]
    rw [if_pos deleter]
  · apply sound.change rfl
    · intro other apart
      exact ⟨rfl, rfl, Function.update_of_ne apart _ _, Iff.rfl⟩
    · intro other apart
      rw [here]
      exact not_refers_owning apart
    · refine .gone earlier counter object ?_
      intro other
      show ¬ Refers name ((store.put this _).handles other)
      by_cases isThis : other = this
      · subst isThis
        rw [put_self]
        exact not_refers_done
      · rw [put_of_ne isThis]
        exact others other isThis

end Store

end Dsac.SharedPtr

import Dsac.Library.WaitQueue
import Dsac.Memory.SharedPtr

namespace Dsac.SharedPtr

open Dsac.Library

/-! What the three pointers of the handles, the counters, the objects and the deleters say
about each other. -/

variable {ν : Type}

/-- The pointers of a handle that owns the object of a name, through a base at an offset. -/
def owning (name offset : Nat) : Fields := ⟨some ⟨name, offset⟩, some name, some name⟩

def Fields.Whole (fields : Fields) : Prop := fields = {} ∨ ∃ name offset, fields = owning name offset

/-- A handle of the object in a stage. -/
def holds (stage : Stage) (name : Nat) : Option Handle → Nat
  | some handle => if handle.stage = stage ∧ handle.fields.ref_count_ = some name then 1 else 0
  | none => 0

/-- The handles that the counter counts. -/
def counted (name : Nat) (cell : Option Handle) : Nat := holds .alive name cell + holds .ending name cell

/-- A handle of the object that has not left it. -/
def Refers (name : Nat) (cell : Option Handle) : Prop :=
  ∃ handle, cell = some handle ∧ handle.fields.ref_count_ = some name ∧ handle.stage ≠ .done

/-- The handle does not destroy the object. -/
def Quiet (name : Nat) (cell : Option Handle) : Prop :=
  ∀ handle, cell = some handle → handle.fields.ref_count_ = some name →
    handle.stage = .alive ∨ handle.stage = .ending ∨ handle.stage = .done

section

variable {name : Nat} {cell : Option Handle} {handle : Handle} {fields : Fields}

theorem counted_eq_zero (absent : ¬ Refers name cell) : counted name cell = 0 := by
  cases cell with
  | none => rfl
  | some handle =>
      have left : handle.fields.ref_count_ = some name → handle.stage = .done := by
        intro owns
        by_contra stage
        exact absent ⟨handle, rfl, owns, stage⟩
      simp only [counted, holds]
      rw [if_neg, if_neg]
      · rintro ⟨stage, owns⟩
        cases stage.symm.trans (left owns)
      · rintro ⟨stage, owns⟩
        cases stage.symm.trans (left owns)

theorem counted_alive (owns : fields.ref_count_ = some name) : counted name (some ⟨.alive, fields⟩) = 1 := by
  simp [counted, holds, owns]

theorem counted_ending (owns : fields.ref_count_ = some name) : counted name (some ⟨.ending, fields⟩) = 1 := by
  simp [counted, holds, owns]

theorem counted_congr {stage other : Stage} (fields : Fields) (first : stage = .alive ∨ stage = .ending)
    (second : other = .alive ∨ other = .ending) :
    counted name (some ⟨stage, fields⟩) = counted name (some ⟨other, fields⟩) := by
  rcases first with rfl | rfl <;> rcases second with rfl | rfl <;> simp [counted, holds]

/-- A quiet handle that refers to the object is counted. -/
theorem Quiet.not_refers (quiet : Quiet name cell) (zero : counted name cell = 0) : ¬ Refers name cell := by
  rintro ⟨handle, rfl, owns, stage⟩
  obtain ⟨at_, fields⟩ := handle
  rcases quiet _ rfl owns with here | here | here
  · cases here
    rw [counted_alive owns] at zero
    cases zero
  · cases here
    rw [counted_ending owns] at zero
    cases zero
  · exact stage here

theorem quiet_of_not_refers (absent : ¬ Refers name cell) : Quiet name cell := by
  intro handle here owns
  by_contra loud
  push Not at loud
  exact absent ⟨handle, here, owns, loud.2.2⟩

theorem quiet_none : Quiet name none := nofun

theorem quiet_of_stage (stage : handle.stage = .alive ∨ handle.stage = .ending ∨ handle.stage = .done) :
    Quiet name (some handle) := by
  intro other same _
  cases same
  exact stage

theorem not_refers_of_ne (apart : handle.fields.ref_count_ ≠ some name) : ¬ Refers name (some handle) := by
  rintro ⟨other, same, owns, _⟩
  cases same
  exact apart owns

theorem not_refers_none : ¬ Refers name none := by
  rintro ⟨handle, absent, _⟩
  cases absent

theorem not_refers_done : ¬ Refers name (some ⟨.done, fields⟩) := by
  rintro ⟨handle, same, _, stage⟩
  cases same
  exact stage rfl

end

namespace Store

variable [Fintype ν]

/-- The number of handles of the object in a stage. -/
def count (store : Store ν) (stage : Stage) (name : Nat) : Nat :=
  WaitQueue.total (holds stage name) store.handles

def total (store : Store ν) (name : Nat) : Nat := WaitQueue.total (counted name) store.handles

theorem total_eq (store : Store ν) (name : Nat) :
    store.total name = store.count .alive name + store.count .ending name :=
  Finset.sum_add_distrib

/-- How far the last handle of the object is. -/
def Progress (store : Store ν) (name : Nat) : Stage → Prop
  | .zero => store.counters name = some 0 ∧ store.objects name = .alive ∧ store.deleters name = true
  | .uncounted => store.counters name = none ∧ store.objects name = .alive ∧ store.deleters name = true
  | .deleting => store.counters name = none ∧ store.objects name = .destroyed ∧ store.deleters name = true
  | .alive | .ending | .done => False

/-- The life of the object of a name. -/
inductive Phase (store : Store ν) (name : Nat) : Prop where
  | unborn (later : store.fresh ≤ name) (counter : store.counters name = none)
      (object : store.objects name = .unborn) (nobody : ∀ this, ¬ Refers name (store.handles this))
  | shared (earlier : name < store.fresh) (positive : 0 < store.total name)
      (counter : store.counters name = some (store.total name : Int)) (object : store.objects name = .alive)
      (deleter : store.deleters name = true) (quiet : ∀ this, Quiet name (store.handles this))
  | last (earlier : name < store.fresh) {this : ν} {stage : Stage}
      (here : store.handles this = some ⟨stage, owning name 0⟩) (progress : store.Progress name stage)
      (others : ∀ other ≠ this, ¬ Refers name (store.handles other))
  | gone (earlier : name < store.fresh) (counter : store.counters name = none)
      (object : store.objects name = .destroyed) (nobody : ∀ this, ¬ Refers name (store.handles this))

structure Sound (store : Store ν) : Prop where
  whole : ∀ this handle, store.handles this = some handle → handle.fields.Whole
  phase : ∀ name, store.Phase name
  owns : ∀ this handle, store.handles this = some handle →
    handle.stage = .zero ∨ handle.stage = .uncounted ∨ handle.stage = .deleting →
      ∃ name, handle.fields.ref_count_ = some name

variable {store next : Store ν} {name : Nat} {this other : ν} {handle : Handle} {fields : Fields}

theorem total_eq_zero (nobody : ∀ this, ¬ Refers name (store.handles this)) : store.total name = 0 :=
  Finset.sum_eq_zero fun this _ => counted_eq_zero (nobody this)

theorem counted_le_total (store : Store ν) (name : Nat) (this : ν) :
    counted name (store.handles this) ≤ store.total name :=
  Finset.single_le_sum (f := fun this => counted name (store.handles this)) (fun _ _ => Nat.zero_le _)
    (Finset.mem_univ this)

theorem empty_sound : (empty : Store ν).Sound where
  whole _ _ := nofun
  phase name := .unborn (Nat.zero_le name) rfl rfl fun _ => not_refers_none
  owns _ _ := nofun

omit [Fintype ν] in
theorem Progress.not_done {stage : Stage} (progress : store.Progress name stage) :
    stage ≠ .alive ∧ stage ≠ .ending ∧ stage ≠ .done := by
  cases stage with
  | alive | ending | done => cases progress
  | zero | uncounted | deleting => exact ⟨nofun, nofun, nofun⟩

omit [Fintype ν] in
theorem Progress.congr {stage : Stage} (progress : store.Progress name stage)
    (counter : next.counters name = store.counters name) (object : next.objects name = store.objects name)
    (deleter : next.deleters name = store.deleters name) : next.Progress name stage := by
  cases stage with
  | alive | ending | done => cases progress
  | zero | uncounted | deleting =>
      rw [Progress, counter, object, deleter]
      exact progress

/-- The last handle of the object is not counted. -/
theorem total_eq_zero_of_last {stage : Stage} (here : store.handles this = some ⟨stage, fields⟩)
    (progress : store.Progress name stage) (others : ∀ other ≠ this, ¬ Refers name (store.handles other)) :
    store.total name = 0 := by
  apply Finset.sum_eq_zero
  intro other _
  by_cases same : other = this
  · have stages := progress.not_done
    rw [same, here]
    simp [counted, holds, stages.1, stages.2.1]
  · exact counted_eq_zero (others other same)

/-- An object that only quiet handles changed for, and as many handles as before. -/
theorem Phase.keep (phase : store.Phase name)
    (cells : ∀ this, next.handles this = store.handles this ∨
      Quiet name (store.handles this) ∧ Quiet name (next.handles this))
    (total : next.total name = store.total name) (counter : next.counters name = store.counters name)
    (object : next.objects name = store.objects name) (deleter : next.deleters name = store.deleters name)
    (fresh : next.fresh ≤ name ↔ store.fresh ≤ name) : next.Phase name := by
  have absent : store.total name = 0 → ∀ this, ¬ Refers name (store.handles this) →
      ¬ Refers name (next.handles this) := by
    intro zero this old
    rcases cells this with same | ⟨_, quiet⟩
    · rwa [same]
    · apply quiet.not_refers
      have small := counted_le_total next name this
      omega
  cases phase with
  | unborn later noCounter noObject nobody =>
      exact .unborn (fresh.mpr later) (counter.trans noCounter) (object.trans noObject)
        fun this => absent (total_eq_zero nobody) this (nobody this)
  | shared earlier positive counts alive made quiet =>
      refine .shared (by omega) (by omega) ?_ (object.trans alive) (deleter.trans made) ?_
      · rw [counter, counts, total]
      · intro this
        rcases cells this with same | ⟨_, still⟩
        · rw [same]
          exact quiet this
        · exact still
  | last earlier here progress others =>
      rename_i this stage
      have loud : next.handles this = store.handles this := by
        rcases cells this with same | ⟨quiet, _⟩
        · exact same
        · have stages := progress.not_done
          rcases quiet _ here rfl with at_ | at_ | at_
          · exact absurd at_ stages.1
          · exact absurd at_ stages.2.1
          · exact absurd at_ stages.2.2
      have zero := total_eq_zero_of_last here progress others
      refine .last (by omega) (loud.trans here) (progress.congr counter object deleter) ?_
      intro other apart
      exact absent zero other (others other apart)
  | gone earlier noCounter destroyed nobody =>
      exact .gone (by omega) (counter.trans noCounter) (object.trans destroyed)
        fun this => absent (total_eq_zero nobody) this (nobody this)

/-- The object of a handle that is counted is shared. -/
theorem Sound.shared_of_counted (sound : store.Sound) (positive : 0 < counted name (store.handles this)) :
    name < store.fresh ∧ 0 < store.total name ∧ store.counters name = some (store.total name : Int) ∧
      store.objects name = .alive ∧ store.deleters name = true ∧ ∀ this, Quiet name (store.handles this) := by
  have refers : Refers name (store.handles this) := by
    by_contra absent
    rw [counted_eq_zero absent] at positive
    cases positive
  cases sound.phase name with
  | unborn _ _ _ nobody => exact absurd refers (nobody this)
  | shared earlier some counter object deleter quiet => exact ⟨earlier, some, counter, object, deleter, quiet⟩
  | last _ here progress others =>
      rename_i last stage
      by_cases same : this = last
      · have stages := progress.not_done
        rw [same, here] at positive
        simp [counted, holds, stages.1, stages.2.1] at positive
      · exact absurd refers (others this same)
  | gone _ _ _ nobody => exact absurd refers (nobody this)

/-- The object of a handle whose decrement has reached zero. -/
theorem Sound.last_of_stage (sound : store.Sound) (here : store.handles this = some handle)
    (stage : handle.stage = .zero ∨ handle.stage = .uncounted ∨ handle.stage = .deleting) :
    ∃ name, handle.fields = owning name 0 ∧ name < store.fresh ∧ store.Progress name handle.stage ∧
      ∀ other ≠ this, ¬ Refers name (store.handles other) := by
  obtain ⟨name, owns⟩ := sound.owns this handle here stage
  have notDone : handle.stage ≠ .done := by
    rcases stage with at_ | at_ | at_ <;> rw [at_] <;> nofun
  have refers : Refers name (store.handles this) := ⟨handle, here, owns, notDone⟩
  cases sound.phase name with
  | unborn _ _ _ nobody => exact absurd refers (nobody this)
  | shared _ _ _ _ _ quiet =>
      rcases quiet this handle here owns with at_ | at_ | at_ <;> rw [at_] at stage <;> simp at stage
  | last earlier here' progress others =>
      rename_i last lastStage
      by_cases same : this = last
      · subst same
        cases here.symm.trans here'
        exact ⟨name, rfl, earlier, progress, others⟩
      · exact absurd refers (others this same)
  | gone _ _ _ nobody => exact absurd refers (nobody this)

end Store

end Dsac.SharedPtr

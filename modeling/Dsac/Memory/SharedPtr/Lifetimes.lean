import Dsac.Memory.SharedPtr.Interleavings

namespace Dsac.SharedPtr

open Dsac.Library

/-! Objects live as long as they have handles, in any interleaving of calls. -/

variable {ν : Type} [DecidableEq ν]

omit [DecidableEq ν] in
/-- The handle is the last one of its object, and points to a base that is not at its start. -/
def Store.ReleasesBase (store : Store ν) (this : ν) : Prop :=
  match store.handles this with
  | some ⟨_, ⟨some pointer, some name, _⟩⟩ => store.counters name = some 1 ∧ pointer.offset ≠ 0
  | _ => False

omit [DecidableEq ν] in
theorem Store.releasesBase_iff (store : Store ν) (this : ν) : store.ReleasesBase this ↔
    ∃ handle ∈ store.handles this, ∃ pointer ∈ handle.fields.ptr_, ∃ name ∈ handle.fields.ref_count_,
      store.counters name = some 1 ∧ pointer.offset ≠ 0 := by
  unfold Store.ReleasesBase
  split
  next here => simp [here]
  next other =>
      constructor
      · exact False.elim
      · rintro ⟨⟨stage, ⟨_, _, deleter⟩⟩, here, pointer, ⟨⟩, name, ⟨⟩, _⟩
        exact other _ _ _ _ here

instance (store : Store ν) (this : ν) : Decidable (store.ReleasesBase this) :=
  decidable_of_iff _ (store.releasesBase_iff this).symm

namespace Store

variable [Fintype ν] {store : Store ν} {this : ν}

theorem Sound.perform_decrement (sound : store.Sound) (enabled : Enabled store.shapes (.decrement this))
    (fits : ¬ store.ReleasesBase this) :
    ∃ zero next, store.perform (.decrement this) = .ok next ∧ next.Sound ∧
      next.shapes = after store.shapes zero (.decrement this) := by
  obtain ⟨owns, shape⟩ := enabled
  obtain ⟨fields, here, _⟩ := exists_of_shape shape
  have same : store.shapes this = some (.ending, fields.ptr_.isSome) := by
    rw [shapes, here]
    rfl
  rcases sound.whole this _ here with empty | ⟨name, offset, owning⟩
  · cases empty
    obtain ⟨done, nextSound⟩ := sound.decrement_null here
    refine ⟨false, _, done, nextSound, ?_⟩
    rw [shapes_update rfl, after, same]
    rfl
  · cases owning
    by_cases one : store.total name = 1
    · have positive : 0 < counted name (store.handles this) := by
        rw [here, counted_ending rfl]
        exact Nat.one_pos
      obtain ⟨_, _, counter, _⟩ := sound.shared_of_counted positive
      have start : offset = 0 := by
        by_contra base
        apply fits
        simp only [ReleasesBase, here]
        rw [counter, one]
        exact ⟨rfl, base⟩
      subst start
      obtain ⟨next, done, nextSound, _, handles⟩ := sound.decrement_last here one
      refine ⟨true, next, done, nextSound, ?_⟩
      rw [shapes_update handles, after, same]
      rfl
    · obtain ⟨next, done, nextSound, _, handles⟩ := sound.decrement_shared here one
      refine ⟨false, next, done, nextSound, ?_⟩
      rw [shapes_update handles, after, same]
      rfl

/-- A step that can be made is made, and keeps the store sound. -/
theorem Sound.perform (sound : store.Sound) {action : Action ν} (enabled : Enabled store.shapes action)
    (fits : ∀ this, action = .decrement this → ¬ store.ReleasesBase this) :
    ∃ zero next, store.perform action = .ok next ∧ next.Sound ∧ next.shapes = after store.shapes zero action := by
  cases action with
  | wrap this offset =>
      refine ⟨false, _, rfl, sound.wrap (shapes_eq_none_iff.mp enabled) offset, ?_⟩
      exact shapes_put _ _ _
  | clear this =>
      refine ⟨false, _, rfl, sound.clear (shapes_eq_none_iff.mp enabled), ?_⟩
      exact shapes_put _ _ _
  | copy this other offset =>
      obtain ⟨absent, owns, there⟩ := enabled
      obtain ⟨fields, source, same⟩ := exists_of_shape there
      obtain ⟨next, done, nextSound, handles⟩ := sound.copy (shapes_eq_none_iff.mp absent) source offset
      refine ⟨false, next, done, nextSound, ?_⟩
      rw [shapes_update handles, after, there, ← same]
      simp [Handle.shape, Fields.toBase]
  | take this other =>
      obtain ⟨absent, owns, there⟩ := enabled
      obtain ⟨fields, source, same⟩ := exists_of_shape there
      have apart := (ne_of_alive there absent).symm
      obtain ⟨done, nextSound⟩ := sound.take apart (.inl (shapes_eq_none_iff.mp absent)) source
      refine ⟨false, _, done, nextSound, ?_⟩
      rw [shapes_update rfl, shapes_update rfl, after, there, ← same]
      rfl
  | takeInto this other =>
      obtain ⟨apart, here, owns, there⟩ := enabled
      obtain ⟨empty, target, null⟩ := exists_of_shape here
      obtain ⟨fields, source, same⟩ := exists_of_shape there
      have isEmpty : empty = {} := by
        rcases sound.whole this _ target with isEmpty | ⟨name, offset, owning⟩
        · exact isEmpty
        · cases owning
          cases null
      subst isEmpty
      obtain ⟨done, nextSound⟩ := sound.take apart (.inr target) source
      refine ⟨false, _, ?_, nextSound, ?_⟩
      · rw [Store.perform, takeInto, get_eq target, Outcome.ok_bind]
        exact done
      · rw [shapes_update rfl, shapes_update rfl, after, there, ← same]
        rfl
  | swap this sp =>
      obtain ⟨⟨owns, here⟩, others, there⟩ := enabled
      obtain ⟨first, atThis, same⟩ := exists_of_shape here
      obtain ⟨second, atOther, same'⟩ := exists_of_shape there
      obtain ⟨done, nextSound⟩ := sound.swap atThis atOther
      refine ⟨false, _, done, nextSound, ?_⟩
      rw [shapes_update rfl, shapes_update rfl, after, here, there, ← same, ← same']
      rfl
  | close this =>
      obtain ⟨owns, shape⟩ := enabled
      obtain ⟨fields, here, same⟩ := exists_of_shape shape
      obtain ⟨done, nextSound⟩ := sound.close here
      refine ⟨false, _, done, nextSound, ?_⟩
      rw [shapes_update rfl, after, shape, ← same]
      rfl
  | decrement this => exact sound.perform_decrement enabled (fits this rfl)
  | deleteCount this =>
      obtain ⟨stage, owns, shape, range⟩ := enabled
      obtain ⟨fields, here, same⟩ := exists_of_shape shape
      rcases range with rfl | rfl
      · obtain ⟨next, done, nextSound, _, handles⟩ := sound.deleteCount here
        refine ⟨false, next, done, nextSound, ?_⟩
        rw [shapes_update handles, after, shape, ← same]
        rfl
      · refine ⟨false, store, (destroy_done here).1, sound, ?_⟩
        rw [after, shape]
        exact (Function.update_eq_self_iff.mpr shape.symm).symm
  | deleteObject this =>
      obtain ⟨stage, owns, shape, range⟩ := enabled
      obtain ⟨fields, here, same⟩ := exists_of_shape shape
      rcases range with rfl | rfl
      · obtain ⟨_, next, _, done, nextSound, _, _, handles⟩ := sound.deleteObject here
        refine ⟨false, next, done, nextSound, ?_⟩
        rw [shapes_update handles, after, shape, ← same]
        rfl
      · refine ⟨false, store, (destroy_done here).2.1, sound, ?_⟩
        rw [after, shape]
        exact (Function.update_eq_self_iff.mpr shape.symm).symm
  | deleteDeleter this =>
      obtain ⟨stage, owns, shape, range⟩ := enabled
      obtain ⟨fields, here, same⟩ := exists_of_shape shape
      rcases range with rfl | rfl
      · obtain ⟨next, done, nextSound, _, handles⟩ := sound.deleteDeleter here
        refine ⟨false, next, done, nextSound, ?_⟩
        rw [shapes_update handles, after, shape, ← same]
        rfl
      · refine ⟨false, store, (destroy_done here).2.2, sound, ?_⟩
        rw [after, shape]
        exact (Function.update_eq_self_iff.mpr shape.symm).symm
  | leave this =>
      obtain ⟨owns, shape⟩ := enabled
      obtain ⟨fields, here, _⟩ := exists_of_shape shape
      refine ⟨false, _, rfl, sound.leave here, ?_⟩
      exact shapes_put _ _ _

end Store

namespace System

omit [DecidableEq ν] in
def Mentions (frame : List (Action ν)) (name : ν) : Prop := ∃ action ∈ frame, name ∈ action.uses

/-- The invariant of a run. -/
structure Running [Fintype ν] (system : System ν) : Prop where
  sound : system.store.Sound
  ready : ∀ frame ∈ system.frames, Ready system.store.shapes frame
  apart : ∀ (first second : Nat) (one two : List (Action ν)), first ≠ second → system.frames[first]? = some one →
    system.frames[second]? = some two → ∀ name, Mentions one name → ¬ Mentions two name
  /-- a destructor that has begun is one that some call will end -/
  attended : ∀ this stage owns, system.store.shapes this = some (stage, owns) → stage ≠ .alive →
    ∃ frame ∈ system.frames, .leave this ∈ frame

/-- The last handle of an object points to the start of it. -/
def Fits (system : System ν) : Event ν → Prop
  | .call _ => True
  | .act index =>
      match system.frames[index]? with
      | some (.decrement this :: _) => ¬ system.store.ReleasesBase this
      | _ => True

instance (system : System ν) (event : Event ν) : Decidable (system.Fits event) := by
  unfold Fits
  split
  · infer_instance
  · split <;> infer_instance

section

variable {shapes : Shapes ν} {zero : Bool} {action : Action ν} {this : ν} {stage : Stage} {owns : Bool}

/-- Only the beginning of a destructor takes a handle out of use. -/
theorem stage_of_after (enabled : Enabled shapes action) (left : stage ≠ .alive)
    (reached : after shapes zero action this = some (stage, owns)) :
    action ≠ .leave this ∧ (action = .close this ∨ ∃ stage owns, shapes this = some (stage, owns) ∧ stage ≠ .alive) := by
  have same : shapes this = some (stage, owns) → ∃ stage owns, shapes this = some (stage, owns) ∧ stage ≠ .alive :=
    fun here => ⟨stage, owns, here, left⟩
  cases action with
  | wrap name offset | clear name =>
      simp only [after, Function.update_apply] at reached
      split at reached
      · cases reached
        exact absurd rfl left
      · exact ⟨by rintro ⟨⟩, .inr (same reached)⟩
  | copy name other offset =>
      obtain ⟨_, others, shape⟩ := enabled
      simp only [after, Function.update_apply] at reached
      split at reached
      · cases shape.symm.trans reached
        exact absurd rfl left
      · exact ⟨by rintro ⟨⟩, .inr (same reached)⟩
  | take name other | takeInto name other =>
      obtain ⟨others, shape⟩ : ∃ others, shapes other = some (.alive, others) := by
        first | exact enabled.2 | exact enabled.2.2
      simp only [after, Function.update_apply] at reached
      split at reached
      · cases shape.symm.trans reached
        exact absurd rfl left
      split at reached
      · cases reached
        exact absurd rfl left
      · exact ⟨by rintro ⟨⟩, .inr (same reached)⟩
  | swap name sp =>
      obtain ⟨⟨_, first⟩, _, second⟩ := enabled
      simp only [after, Function.update_apply] at reached
      split at reached
      · cases first.symm.trans reached
        exact absurd rfl left
      split at reached
      · cases second.symm.trans reached
        exact absurd rfl left
      · exact ⟨by rintro ⟨⟩, .inr (same reached)⟩
  | close name =>
      by_cases here : this = name
      · rw [here]
        exact ⟨by rintro ⟨⟩, .inl rfl⟩
      · rw [after, Function.update_of_ne here] at reached
        exact ⟨by rintro ⟨⟩, .inr (same reached)⟩
  | decrement name =>
      obtain ⟨_, shape⟩ := enabled
      by_cases here : this = name
      · rw [here]
        exact ⟨by rintro ⟨⟩, .inr ⟨_, _, shape, by rintro ⟨⟩⟩⟩
      · rw [after, Function.update_of_ne here] at reached
        exact ⟨by rintro ⟨⟩, .inr (same reached)⟩
  | deleteCount name | deleteObject name | deleteDeleter name =>
      obtain ⟨_, _, shape, range⟩ := enabled
      by_cases here : this = name
      · rw [here]
        refine ⟨by rintro ⟨⟩, .inr ⟨_, _, shape, ?_⟩⟩
        rcases range with rfl | rfl <;> rintro ⟨⟩
      · rw [after, Function.update_of_ne here] at reached
        exact ⟨by rintro ⟨⟩, .inr (same reached)⟩
  | leave name =>
      by_cases here : this = name
      · rw [here, after, Function.update_self] at reached
        cases reached
      · rw [after, Function.update_of_ne here] at reached
        refine ⟨?_, .inr (same reached)⟩
        rintro ⟨⟩
        exact here rfl

end

variable [Fintype ν] {system : System ν}

theorem initial_running : (initial : System ν).Running where
  sound := Store.empty_sound
  ready _ := nofun
  apart _ _ _ _ _ := nofun
  attended _ _ _ := nofun

omit [Fintype ν] in
theorem uses_program (call : Call ν) : ∀ action ∈ call.program, action.uses ⊆ call.names := by
  cases call with
  | copyAssign this other tmp =>
      rw [Call.program]
      split <;> simp [Call.destructor, Call.names, Action.uses]
  | _ => simp [Call.program, Call.destructor, Call.names, Action.uses]

omit [DecidableEq ν] [Fintype ν] in
theorem getElem?_concat {frames : List (List (Action ν))} {frame new : List (Action ν)} {index : Nat}
    (here : (frames ++ [new])[index]? = some frame) :
    frames[index]? = some frame ∨ index = frames.length ∧ frame = new := by
  rcases Nat.lt_or_ge index frames.length with inside | outside
  · rw [List.getElem?_append_left inside] at here
    exact .inl here
  · rw [List.getElem?_append_right outside, List.getElem?_singleton] at here
    split at here
    next zero =>
      cases here
      exact .inr ⟨by omega, rfl⟩
    next => cases here

/-- A call begins. -/
theorem Running.call (running : system.Running) {call : Call ν} (allowed : call.Allowed system.store)
    (free : system.Free call) : { system with frames := system.frames ++ [call.program] }.Running := by
  have unused : ∀ frame ∈ system.frames, ∀ name, Mentions call.program name → ¬ Mentions frame name := by
    rintro frame member name ⟨action, inside, used⟩ ⟨other, listed, uses⟩
    exact free name (uses_program call action inside used) frame member other listed uses
  refine ⟨running.sound, ?_, ?_, ?_⟩
  · intro frame member
    rcases List.mem_append.mp member with older | new
    · exact running.ready frame older
    · rw [List.mem_singleton.mp new]
      exact ready_program allowed
  · intro first second one two different atFirst atSecond name
    rcases getElem?_concat atFirst with older | ⟨here, rfl⟩
    · rcases getElem?_concat atSecond with other | ⟨_, rfl⟩
      · exact running.apart first second one two different older other name
      · intro mentions again
        exact unused one (List.mem_of_getElem? older) name again mentions
    · rcases getElem?_concat atSecond with other | ⟨there, rfl⟩
      · exact unused two (List.mem_of_getElem? other) name
      · exact absurd (here.trans there.symm) different
  · intro this stage owns shape left
    obtain ⟨frame, member, ends⟩ := running.attended this stage owns shape left
    exact ⟨frame, List.mem_append_left _ member, ends⟩

/-- A call in progress makes its next step. -/
theorem Running.act (running : system.Running) {index : Nat} {action : Action ν} {rest : List (Action ν)}
    (here : system.frames[index]? = some (action :: rest))
    (fits : ∀ this, action = .decrement this → ¬ system.store.ReleasesBase this) :
    ∃ store, system.store.perform action = .ok store ∧
      { store, frames := system.frames.set index rest : System ν }.Running := by
  obtain ⟨inside, _⟩ := List.getElem?_eq_some_iff.mp here
  obtain ⟨enabled, ends, later⟩ := running.ready _ (List.mem_of_getElem? here)
  obtain ⟨zero, store, done, sound, shapes⟩ := running.sound.perform enabled fits
  have cases_ : ∀ (other : Nat) (frame : List (Action ν)), (system.frames.set index rest)[other]? = some frame →
      other = index ∧ frame = rest ∨ other ≠ index ∧ system.frames[other]? = some frame := by
    intro other frame found
    by_cases same : other = index
    · rw [same, List.getElem?_set_self inside] at found
      cases found
      exact .inl ⟨same, rfl⟩
    · rw [List.getElem?_set_ne (Ne.symm same)] at found
      exact .inr ⟨same, found⟩
  have fewer : ∀ name, Mentions rest name → Mentions (action :: rest) name := by
    rintro name ⟨other, member, uses⟩
    exact ⟨other, List.mem_cons_of_mem _ member, uses⟩
  refine ⟨store, done, sound, ?_, ?_, ?_⟩
  · intro frame member
    show Ready store.shapes frame
    rw [shapes]
    obtain ⟨other, found⟩ := List.mem_iff_getElem?.mp member
    rcases cases_ other frame found with ⟨_, rfl⟩ | ⟨different, old⟩
    · exact later zero
    · apply (running.ready frame (List.mem_of_getElem? old)).congr
      intro step listed name uses
      have outside : name ∉ action.uses := fun used =>
        running.apart other index frame _ different old here name ⟨step, listed, uses⟩
          ⟨action, List.mem_cons_self, used⟩
      exact (after_of_not_mem outside).symm
  · intro first second one two different atFirst atSecond name mentions again
    rcases cases_ first one atFirst with ⟨isIndex, rfl⟩ | ⟨isOther, oldFirst⟩
    · rcases cases_ second two atSecond with ⟨same, _⟩ | ⟨_, oldSecond⟩
      · exact different (isIndex.trans same.symm)
      · exact running.apart index second _ two (isIndex ▸ different) here oldSecond name (fewer name mentions) again
    · rcases cases_ second two atSecond with ⟨isIndex, rfl⟩ | ⟨_, oldSecond⟩
      · exact running.apart first index one _ isOther oldFirst here name mentions (fewer name again)
      · exact running.apart first second one two different oldFirst oldSecond name mentions again
  · intro this stage owns shape left
    rw [shapes] at shape
    obtain ⟨stays, begun⟩ := stage_of_after enabled left shape
    have kept : ∀ frame ∈ system.frames, .leave this ∈ frame →
        ∃ frame ∈ system.frames.set index rest, .leave this ∈ frame := by
      intro frame member leaves
      obtain ⟨other, found⟩ := List.mem_iff_getElem?.mp member
      by_cases same : other = index
      · subst same
        cases here.symm.trans found
        rcases List.mem_cons.mp leaves with isAction | inRest
        · exact absurd isAction.symm stays
        · exact ⟨rest, List.mem_of_getElem? (List.getElem?_set_self inside), inRest⟩
      · have still : (system.frames.set index rest)[other]? = some frame := by
          rw [List.getElem?_set_ne (Ne.symm same)]
          exact found
        exact ⟨frame, List.mem_of_getElem? still, leaves⟩
    rcases begun with closes | ⟨stage, owns, shape, left⟩
    · exact ⟨rest, List.mem_of_getElem? (List.getElem?_set_self inside), ends this closes⟩
    · obtain ⟨frame, member, leaves⟩ := running.attended this stage owns shape left
      exact kept frame member leaves

theorem step_running (running : system.Running) {event : Event ν} (fits : system.Fits event) :
    ∃ next, system.step event = .ok next ∧ next.Running := by
  cases event with
  | call call =>
      rw [step]
      split
      next allowed => exact ⟨_, rfl, running.call allowed.1 allowed.2⟩
      next => exact ⟨system, rfl, running⟩
  | act index =>
      rw [step]
      split
      next action rest here =>
        have fits : ∀ this, action = .decrement this → ¬ system.store.ReleasesBase this := by
          rintro this rfl
          simpa only [Fits, here] using fits
        obtain ⟨store, done, next⟩ := running.act here fits
        refine ⟨_, ?_, next⟩
        rw [done, Outcome.ok_bind]
      next => exact ⟨system, rfl, running⟩

/-! What the invariant says about the objects. -/

/-- The counter of an object counts its handles and the destructors that have not decremented
it; the object lives until the handle whose decrement reached zero destroys it, and has no
handle afterwards. -/
structure Counts (system : System ν) : Prop where
  counter : ∀ name value, system.store.counters name = some value →
    value = ((system.store.count .alive name + system.store.count .ending name : Nat) : Int)
  uncounted : ∀ name, system.store.counters name = none →
    system.store.count .alive name + system.store.count .ending name = 0
  alive : ∀ name, system.store.objects name = .alive →
    0 < system.store.count .alive name + system.store.count .ending name ∨
      ∃ this handle, system.store.handles this = some handle ∧ handle.fields.ref_count_ = some name ∧
        (handle.stage = .zero ∨ handle.stage = .uncounted)
  destroyed : ∀ name, system.store.objects name = .destroyed → ∀ this handle,
    system.store.handles this = some handle → handle.fields.ref_count_ = some name →
      handle.stage = .deleting ∨ handle.stage = .done
  settled : (∀ frame ∈ system.frames, frame = []) → ∀ name < system.store.fresh,
    system.store.objects name = .destroyed ↔ system.store.count .alive name = 0

theorem Running.counts (running : system.Running) : system.Counts := by
  have sound := running.sound
  refine ⟨?_, ?_, ?_, ?_, ?_⟩
  · intro name value counter
    rw [← Store.total_eq]
    cases sound.phase name with
    | unborn _ none => cases none.symm.trans counter
    | shared _ _ some => exact (Option.some.inj (some.symm.trans counter)).symm
    | last _ here progress others =>
        rw [Store.total_eq_zero_of_last here progress others]
        rename_i stage
        cases stage with
        | zero => exact (Option.some.inj (progress.1.symm.trans counter)).symm
        | uncounted | deleting => cases progress.1.symm.trans counter
        | alive | ending | done => cases progress
    | gone _ none => cases none.symm.trans counter
  · intro name none
    rw [← Store.total_eq]
    cases sound.phase name with
    | unborn _ _ _ nobody => exact Store.total_eq_zero nobody
    | shared _ _ some => cases none.symm.trans some
    | last _ here progress others => exact Store.total_eq_zero_of_last here progress others
    | gone _ _ _ nobody => exact Store.total_eq_zero nobody
  · intro name alive
    rw [← Store.total_eq]
    cases sound.phase name with
    | unborn _ _ unborn => cases unborn.symm.trans alive
    | shared _ positive => exact .inl positive
    | last _ here progress others =>
        rename_i stage
        cases stage with
        | zero => exact .inr ⟨_, _, here, rfl, .inl rfl⟩
        | uncounted => exact .inr ⟨_, _, here, rfl, .inr rfl⟩
        | deleting => cases progress.2.1.symm.trans alive
        | alive | ending | done => cases progress
    | gone _ _ destroyed => cases destroyed.symm.trans alive
  · intro name destroyed this handle here owns
    have left : ¬ Refers name (system.store.handles this) → handle.stage = .deleting ∨ handle.stage = .done := by
      intro absent
      by_contra stage
      push Not at stage
      exact absent ⟨handle, here, owns, stage.2⟩
    cases sound.phase name with
    | unborn _ _ unborn => cases unborn.symm.trans destroyed
    | shared _ _ _ alive => cases alive.symm.trans destroyed
    | last _ last progress others =>
        rename_i other stage
        by_cases same : this = other
        · subst same
          cases here.symm.trans last
          cases stage with
          | zero | uncounted => cases progress.2.1.symm.trans destroyed
          | deleting => exact .inl rfl
          | alive | ending | done => cases progress
        · exact left (others this same)
    | gone _ _ _ nobody => exact left (nobody this)
  · intro idle name born
    have allAlive : ∀ this handle, system.store.handles this = some handle → handle.stage = .alive := by
      intro this handle here
      by_contra left
      have shape : system.store.shapes this = some (handle.stage, handle.fields.ptr_.isSome) := by
        rw [Store.shapes, here]
        rfl
      obtain ⟨frame, member, leaves⟩ := running.attended this _ _ shape left
      rw [idle frame member] at leaves
      cases leaves
    have noEnding : system.store.count .ending name = 0 := by
      apply Finset.sum_eq_zero
      intro this _
      cases here : system.store.handles this with
      | none => rfl
      | some handle => simp [holds, allAlive this handle here]
    have total := Store.total_eq system.store name
    cases sound.phase name with
    | unborn later => omega
    | shared _ positive _ alive =>
        rw [alive]
        constructor
        · rintro ⟨⟩
        · omega
    | last _ here progress => exact absurd (allAlive _ _ here) progress.not_done.1
    | gone _ _ destroyed nobody =>
        have zero := Store.total_eq_zero nobody
        rw [destroyed]
        exact iff_of_true rfl (by omega)

/-- **Reference counting.** In every interleaving in which no object is released through a base
that is not at its start, no step uses or deletes anything that is gone, and the counters count. -/
theorem interleave_counts (schedule : List (Event ν)) (fits : Meets step Fits initial schedule) :
    ∃ system, run step (initial : System ν) schedule = .ok system ∧ system.Counts := by
  obtain ⟨system, ran, running⟩ := @run_invariant _ _ _ step _ (fun _ system => Running system)
    (fun _ _ _ running fits => step_running running fits) [] _ initial_running _ fits
  exact ⟨system, ran, running.counts⟩

/-- Two calls on two handles of one object, interleaved. -/
def copies : List (Event (Fin 3)) :=
  [.call (.constructFrom 0 0), .act 0, .call (.constructCopy 1 0 0), .act 1, .call (.destruct 0), .call (.reset 1 2),
    .act 3, .act 2, .act 3, .act 3, .act 2, .act 3, .act 2, .act 2, .act 3, .act 3, .act 2, .act 3, .act 2, .act 3]

theorem interleave_counts_copies : ∃ system, run step (initial : System (Fin 3)) copies = .ok system ∧ system.Counts :=
  interleave_counts copies (by decide +kernel)

/-- A copy to the second of two bases outlives the handle that was made first. -/
theorem release_of_second_base : ¬ ∃ system, run step (initial : System (Fin 2))
    [.call (.constructFrom 0 0), .act 0, .call (.constructCopy 1 0 8), .act 1, .call (.destruct 0), .act 2, .act 2,
      .act 2, .act 2, .act 2, .act 2, .call (.destruct 1), .act 3, .act 3, .act 3, .act 3] = .ok system ∧
      system.Counts := by
  have faults : run step (initial : System (Fin 2))
      [.call (.constructFrom 0 0), .act 0, .call (.constructCopy 1 0 8), .act 1, .call (.destruct 0), .act 2, .act 2,
        .act 2, .act 2, .act 2, .act 2, .call (.destruct 1), .act 3, .act 3, .act 3, .act 3] =
      .error .destroyedNode := rfl
  rintro ⟨system, ran, _⟩
  cases faults.symm.trans ran

end System

end Dsac.SharedPtr

import Dsac.Library.Run
import Dsac.Memory.SharedPtr.Actions

namespace Dsac.SharedPtr

open Dsac.Library

/-! Any interleaving of calls. What a call needs of its handles is followed through the steps
that are left of it, on the stage of each handle and on whether it is null. -/

variable {ν : Type}

abbrev Shapes (ν : Type) := ν → Option (Stage × Bool)

def Handle.shape (handle : Handle) : Stage × Bool := (handle.stage, handle.fields.ptr_.isSome)

def Store.shapes (store : Store ν) (name : ν) : Option (Stage × Bool) := (store.handles name).map Handle.shape

/-- What a step needs of its handles. -/
def Enabled (shapes : Shapes ν) : Action ν → Prop
  | .wrap this _ | .clear this => shapes this = none
  | .copy this other _ | .take this other => shapes this = none ∧ ∃ owns, shapes other = some (.alive, owns)
  | .takeInto this other =>
      this ≠ other ∧ shapes this = some (.alive, false) ∧ ∃ owns, shapes other = some (.alive, owns)
  | .swap this sp => (∃ owns, shapes this = some (.alive, owns)) ∧ ∃ owns, shapes sp = some (.alive, owns)
  | .close this => ∃ owns, shapes this = some (.alive, owns)
  | .decrement this => ∃ owns, shapes this = some (.ending, owns)
  | .deleteCount this => ∃ stage owns, shapes this = some (stage, owns) ∧ (stage = .zero ∨ stage = .done)
  | .deleteObject this => ∃ stage owns, shapes this = some (stage, owns) ∧ (stage = .uncounted ∨ stage = .done)
  | .deleteDeleter this => ∃ stage owns, shapes this = some (stage, owns) ∧ (stage = .deleting ∨ stage = .done)
  | .leave this => ∃ owns, shapes this = some (.done, owns)

/-- The next stage of a destructor that may be done. -/
def Stage.next (stage : Stage) : Stage → Stage
  | .done => .done
  | _ => stage

variable [DecidableEq ν]

/-- The handles after a step; `zero` says whether a decrement reaches zero. -/
def after (shapes : Shapes ν) (zero : Bool) : Action ν → Shapes ν
  | .wrap this _ => Function.update shapes this (some (.alive, true))
  | .clear this => Function.update shapes this (some (.alive, false))
  | .copy this other _ => Function.update shapes this (shapes other)
  | .take this other | .takeInto this other =>
      Function.update (Function.update shapes other (some (.alive, false))) this (shapes other)
  | .swap this sp => Function.update (Function.update shapes this (shapes sp)) sp (shapes this)
  | .close this => Function.update shapes this ((shapes this).map fun shape => (.ending, shape.2))
  | .decrement this =>
      Function.update shapes this ((shapes this).map fun shape => (if zero then .zero else .done, shape.2))
  | .deleteCount this =>
      Function.update shapes this ((shapes this).map fun shape => (Stage.uncounted.next shape.1, shape.2))
  | .deleteObject this =>
      Function.update shapes this ((shapes this).map fun shape => (Stage.deleting.next shape.1, shape.2))
  | .deleteDeleter this => Function.update shapes this ((shapes this).map fun shape => (.done, shape.2))
  | .leave this => Function.update shapes this none

/-- The steps that are left can all be made, and end the destructors that they begin. -/
def Ready : Shapes ν → List (Action ν) → Prop
  | _, [] => True
  | shapes, action :: rest =>
      Enabled shapes action ∧ (∀ this, action = .close this → .leave this ∈ rest) ∧
        ∀ zero, Ready (after shapes zero action) rest

section

variable {shapes others : Shapes ν} {zero : Bool} {action : Action ν} {actions : List (Action ν)} {this name : ν}

/-- A step leaves the handles that it does not use. -/
theorem after_of_not_mem (outside : name ∉ action.uses) : after shapes zero action name = shapes name := by
  cases action <;> simp only [Action.uses, List.mem_cons, List.not_mem_nil, or_false, not_or] at outside <;>
    simp [after, outside]

theorem after_congr {names : List ν} (same : ∀ name ∈ names, shapes name = others name)
    (uses : action.uses ⊆ names) : ∀ name ∈ names, after shapes zero action name = after others zero action name := by
  intro name member
  cases action <;> simp only [Action.uses, List.cons_subset] at uses <;>
    simp [after, Function.update_apply, same, uses, member]

omit [DecidableEq ν] in
theorem enabled_congr (same : ∀ name ∈ action.uses, shapes name = others name) (enabled : Enabled shapes action) :
    Enabled others action := by
  cases action <;> simp only [Action.uses, List.mem_cons, List.not_mem_nil, or_false, forall_eq_or_imp,
    forall_eq] at same <;> simpa only [Enabled, same] using enabled

theorem Ready.congr (ready : Ready shapes actions)
    (same : ∀ action ∈ actions, ∀ name ∈ action.uses, shapes name = others name) : Ready others actions := by
  induction actions generalizing shapes others with
  | nil => trivial
  | cons action rest ih =>
      obtain ⟨enabled, ends, later⟩ := ready
      refine ⟨enabled_congr (same action List.mem_cons_self) enabled, ends, ?_⟩
      intro zero
      apply ih (later zero)
      intro other member name uses
      have agree : ∀ name ∈ (action :: rest).flatMap Action.uses, shapes name = others name := by
        intro name listed
        obtain ⟨one, inside, uses⟩ := List.mem_flatMap.mp listed
        exact same one inside name uses
      apply after_congr agree
      · intro used inAction
        exact List.mem_flatMap.mpr ⟨action, List.mem_cons_self, inAction⟩
      · exact List.mem_flatMap.mpr ⟨other, List.mem_cons_of_mem _ member, uses⟩

/-- A destructor, and what follows it. -/
theorem ready_destructor (owns : Bool) (alive : shapes this = some (.alive, owns))
    (rest : Ready (Function.update shapes this none) actions) : Ready shapes (Call.destructor this ++ actions) := by
  refine ⟨⟨owns, alive⟩, fun other same => by cases same; simp, fun _ => ?_⟩
  refine ⟨⟨owns, by simp [after, alive]⟩, nofun, fun zero => ?_⟩
  refine ⟨⟨if zero then .zero else .done, owns, by simp [after, alive], by cases zero <;> simp⟩, nofun, fun _ => ?_⟩
  refine ⟨⟨if zero then .uncounted else .done, owns, by cases zero <;> simp [after, alive, Stage.next],
    by cases zero <;> simp⟩, nofun, fun _ => ?_⟩
  refine ⟨⟨if zero then .deleting else .done, owns, by cases zero <;> simp [after, alive, Stage.next],
    by cases zero <;> simp⟩, nofun, fun _ => ?_⟩
  refine ⟨⟨owns, by simp [after, alive]⟩, nofun, fun _ => ?_⟩
  simpa [after] using rest

/-- The swap with a local handle, and the end of that handle. -/
theorem ready_release (owns others : Bool) {tmp : ν} (room : shapes tmp = some (.alive, others))
    (alive : shapes this = some (.alive, owns)) (apart : this ≠ tmp)
    (rest : Ready (Function.update (Function.update shapes this (some (.alive, others))) tmp none) actions) :
    Ready shapes (.swap tmp this :: (Call.destructor tmp ++ actions)) := by
  refine ⟨⟨⟨others, room⟩, owns, alive⟩, nofun, fun zero => ?_⟩
  apply ready_destructor owns
  · simp [after, apart.symm, alive]
  · have same : Function.update (after shapes zero (.swap tmp this)) tmp none =
        Function.update (Function.update shapes this (some (.alive, others))) tmp none := by
      rw [after, room, Function.update_comm apart.symm, Function.update_idem]
    rwa [same]

end

section

variable {store next : Store ν} {this other : ν} {owns : Bool} {stage : Stage}

omit [DecidableEq ν] in
theorem exists_of_shape (shape : store.shapes this = some (stage, owns)) :
    ∃ fields : Fields, store.handles this = some ⟨stage, fields⟩ ∧ fields.ptr_.isSome = owns := by
  obtain ⟨⟨at_, fields⟩, here, same⟩ := Option.map_eq_some_iff.mp shape
  cases same
  exact ⟨fields, here, rfl⟩

omit [DecidableEq ν] in
theorem shapes_eq_none_iff : store.shapes this = none ↔ store.handles this = none := Option.map_eq_none_iff

omit [DecidableEq ν] in
theorem exists_alive (alive : store.Alive this) : ∃ owns, store.shapes this = some (.alive, owns) := by
  unfold Store.Alive at alive
  split at alive
  next handle here =>
    refine ⟨handle.fields.ptr_.isSome, ?_⟩
    rw [Store.shapes, here, ← alive]
    rfl
  next => cases alive

theorem shapes_update {cell : Option Handle} (handles : next.handles = Function.update store.handles this cell) :
    next.shapes = Function.update store.shapes this (cell.map Handle.shape) := by
  funext name
  rw [Store.shapes, handles]
  by_cases here : name = this
  · subst here
    rw [Function.update_self, Function.update_self]
  · rw [Function.update_of_ne here, Function.update_of_ne here]
    rfl

theorem shapes_put (store : Store ν) (this : ν) (cell : Option Handle) :
    (store.put this cell).shapes = Function.update store.shapes this (cell.map Handle.shape) :=
  shapes_update rfl

omit [DecidableEq ν] in
theorem ne_of_alive (alive : store.shapes this = some (stage, owns)) (absent : store.shapes other = none) :
    this ≠ other := by
  rintro rfl
  cases absent.symm.trans alive

/-- A call that is allowed can be made. -/
theorem ready_program {call : Call ν} (allowed : call.Allowed store) : Ready store.shapes call.program := by
  cases call with
  | construct this => exact ⟨shapes_eq_none_iff.mpr allowed, nofun, fun _ => trivial⟩
  | constructFrom this offset => exact ⟨shapes_eq_none_iff.mpr allowed, nofun, fun _ => trivial⟩
  | constructCopy this other offset =>
      exact ⟨⟨shapes_eq_none_iff.mpr allowed.1, exists_alive allowed.2⟩, nofun, fun _ => trivial⟩
  | constructMove this other =>
      exact ⟨⟨shapes_eq_none_iff.mpr allowed.1, exists_alive allowed.2⟩, nofun, fun _ => trivial⟩
  | destruct this =>
      obtain ⟨owns, alive⟩ := exists_alive allowed
      exact @ready_destructor _ _ _ [] _ owns alive trivial
  | swap this sp => exact ⟨⟨exists_alive allowed.1, exists_alive allowed.2⟩, nofun, fun _ => trivial⟩
  | copyAssign this other tmp =>
      obtain ⟨owns, thisAlive⟩ := exists_alive allowed.1
      obtain ⟨others, otherAlive⟩ := exists_alive allowed.2.1
      have room := shapes_eq_none_iff.mpr allowed.2.2
      have apart := ne_of_alive thisAlive room
      rw [Call.program]
      split
      · refine ⟨⟨room, others, otherAlive⟩, nofun, fun _ => ?_⟩
        apply @ready_release _ _ _ [] _ owns others
        · simp [after, otherAlive]
        · simp [after, apart, thisAlive]
        · exact apart
        · trivial
      · trivial
  | moveAssign this other tmp =>
      obtain ⟨distinct, here, there, free⟩ := allowed
      obtain ⟨owns, thisAlive⟩ := exists_alive here
      obtain ⟨others, otherAlive⟩ := exists_alive there
      have room := shapes_eq_none_iff.mpr free
      have apart := ne_of_alive thisAlive room
      have apart' := ne_of_alive otherAlive room
      refine ⟨room, nofun, fun _ => ?_⟩
      apply ready_release owns false
      · simp [after]
      · simp [after, apart, thisAlive]
      · exact apart
      · refine ⟨⟨distinct, by simp [after, apart], others, ?_⟩, nofun, fun _ => trivial⟩
        simp [after, apart', distinct.symm, otherAlive]
  | reset this tmp =>
      obtain ⟨owns, thisAlive⟩ := exists_alive allowed.1
      have room := shapes_eq_none_iff.mpr allowed.2
      have apart := ne_of_alive thisAlive room
      refine ⟨room, nofun, fun _ => ?_⟩
      apply @ready_release _ _ _ [] _ owns false
      · simp [after]
      · simp [after, apart, thisAlive]
      · exact apart
      · trivial
  | resetTo this tmp offset =>
      obtain ⟨owns, thisAlive⟩ := exists_alive allowed.1
      have room := shapes_eq_none_iff.mpr allowed.2
      have apart := ne_of_alive thisAlive room
      refine ⟨room, nofun, fun _ => ?_⟩
      apply @ready_release _ _ _ [] _ owns true
      · simp [after]
      · simp [after, apart, thisAlive]
      · exact apart
      · trivial

end

end Dsac.SharedPtr

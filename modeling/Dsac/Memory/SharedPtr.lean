import Dsac.Fault
import Mathlib

namespace Dsac.SharedPtr

/-! `dsac::shared_ptr`. One number names an object, the counter and the deleter made for it. -/

/-- A pointer to an object, or to a base of it that lies at an offset. -/
structure Pointer where
  object : Nat
  offset : Nat
deriving DecidableEq, Repr

/-- The conversion of a pointer to a pointer to a base. -/
def Pointer.toBase (pointer : Pointer) (offset : Nat) : Pointer :=
  { pointer with offset := pointer.offset + offset }

structure Fields where
  ptr_ : Option Pointer := none
  ref_count_ : Option Nat := none
  deleter_ : Option Nat := none
deriving DecidableEq, Repr

/-- The pointers of a copy to a base. -/
def Fields.toBase (fields : Fields) (offset : Nat) : Fields :=
  { fields with ptr_ := fields.ptr_.map fun pointer : Pointer => pointer.toBase offset }

/-- Where a handle stands in its life. -/
inductive Stage where
  | alive
  /-- the destructor runs, and has not decremented the counter -/
  | ending
  /-- the decrement has reached zero: `delete ref_count_` is next -/
  | zero
  /-- `(*deleter_)(ptr_)` is next -/
  | uncounted
  /-- `delete deleter_` is next -/
  | deleting
  /-- the destructor has nothing left to do -/
  | done
deriving DecidableEq, Repr

structure Handle where
  stage : Stage
  fields : Fields
deriving DecidableEq, Repr

inductive Life where
  | unborn
  | alive
  | destroyed
deriving DecidableEq, Repr

structure Store (ν : Type) where
  handles : ν → Option Handle
  counters : Nat → Option Int
  objects : Nat → Life
  deleters : Nat → Bool
  /-- the number of the next object -/
  fresh : Nat

variable {ν : Type} [DecidableEq ν]

namespace Store

def empty : Store ν where
  handles _ := none
  counters _ := none
  objects _ := .unborn
  deleters _ := false
  fresh := 0

def get (store : Store ν) (name : ν) : Outcome Handle :=
  match store.handles name with
  | some handle => .ok handle
  | none => .error .destroyedNode

def put (store : Store ν) (name : ν) (handle : Option Handle) : Store ν :=
  { store with handles := Function.update store.handles name handle }

def setCounter (store : Store ν) (name : Nat) (value : Option Int) : Store ν :=
  { store with counters := Function.update store.counters name value }

/-- `*ref_count_`. -/
def counter (store : Store ν) (ref_count_ : Option Nat) : Outcome (Nat × Int) :=
  match ref_count_ with
  | none => .error .nullPointer
  | some name =>
      match store.counters name with
      | some value => .ok (name, value)
      | none => .error .destroyedNode

/-- The constructor from a raw pointer to a new object, or to a base of it. -/
def wrap (store : Store ν) (this : ν) (offset : Nat) : Store ν :=
  let name := store.fresh
  { store.put this (some ⟨.alive, ⟨some ⟨name, offset⟩, some name, some name⟩⟩) with
    counters := Function.update store.counters name (some 1)
    objects := Function.update store.objects name .alive
    deleters := Function.update store.deleters name true
    fresh := name + 1 }

/-- The default constructor. -/
def clear (store : Store ν) (this : ν) : Store ν := store.put this (some ⟨.alive, {}⟩)

/-- The copy constructors, to a base at an offset. The increment is the one step of them that
other threads see. -/
def copy (store : Store ν) (this other : ν) (offset : Nat) : Outcome (Store ν) := do
  let source ← store.get other
  let fields := source.fields.toBase offset
  match fields.ptr_ with
  | none => .ok (store.put this (some ⟨.alive, fields⟩))
  | some _ =>
      let (name, value) ← store.counter fields.ref_count_
      .ok ((store.setCounter name (some (value + 1))).put this (some ⟨.alive, fields⟩))

/-- The three exchanges with null of the move constructor and the move assignment. -/
def take (store : Store ν) (this other : ν) : Outcome (Store ν) := do
  let source ← store.get other
  .ok ((store.put other (some { source with fields := {} })).put this (some ⟨.alive, source.fields⟩))

/-- The exchanges of the move assignment, into a handle that exists. -/
def takeInto (store : Store ν) (this other : ν) : Outcome (Store ν) := do
  let _ ← store.get this
  store.take this other

def swap (store : Store ν) (this sp : ν) : Outcome (Store ν) := do
  let first ← store.get this
  let second ← store.get sp
  .ok ((store.put this (some { first with fields := second.fields })).put sp
    (some { second with fields := first.fields }))

/-- The destructor begins. -/
def close (store : Store ν) (this : ν) : Outcome (Store ν) := do
  let handle ← store.get this
  .ok (store.put this (some { handle with stage := .ending }))

/-- `if (nullptr != ptr_) if (--(*ref_count_) == 0)`. -/
def decrement (store : Store ν) (this : ν) : Outcome (Store ν) := do
  let handle ← store.get this
  match handle.fields.ptr_ with
  | none => .ok (store.put this (some { handle with stage := .done }))
  | some _ =>
      let (name, value) ← store.counter handle.fields.ref_count_
      .ok ((store.setCounter name (some (value - 1))).put this
        (some { handle with stage := if value - 1 = 0 then .zero else .done }))

/-- `delete ref_count_`, after a decrement that reached zero. -/
def deleteCount (store : Store ν) (this : ν) : Outcome (Store ν) := do
  let handle ← store.get this
  if handle.stage = .done then .ok store
  else
    let (name, _) ← store.counter handle.fields.ref_count_
    .ok ((store.setCounter name none).put this (some { handle with stage := .uncounted }))

/-- `(*deleter_)(ptr_)`, which deletes the object that the deleter was made for. -/
def deleteObject (store : Store ν) (this : ν) : Outcome (Store ν) := do
  let handle ← store.get this
  if handle.stage = .done then .ok store
  else
    match handle.fields.deleter_ with
    | none => .error .nullPointer
    | some name =>
        if store.deleters name = true ∧ handle.fields.ptr_ = some ⟨name, 0⟩ ∧ store.objects name = .alive then
          .ok { store.put this (some { handle with stage := .deleting }) with
            objects := Function.update store.objects name .destroyed }
        else
          .error .destroyedNode

/-- `delete deleter_`. -/
def deleteDeleter (store : Store ν) (this : ν) : Outcome (Store ν) := do
  let handle ← store.get this
  if handle.stage = .done then .ok store
  else
    match handle.fields.deleter_ with
    | none => .error .nullPointer
    | some name =>
        if store.deleters name = true then
          .ok { store.put this (some { handle with stage := .done }) with
            deleters := Function.update store.deleters name false }
        else
          .error .destroyedNode

end Store

/-- The steps that the members of `shared_ptr` are made of. -/
inductive Action (ν : Type) where
  | wrap (this : ν) (offset : Nat)
  | clear (this : ν)
  | copy (this other : ν) (offset : Nat)
  | take (this other : ν)
  | takeInto (this other : ν)
  | swap (this sp : ν)
  | close (this : ν)
  | decrement (this : ν)
  | deleteCount (this : ν)
  | deleteObject (this : ν)
  | deleteDeleter (this : ν)
  /-- the end of the destructor -/
  | leave (this : ν)
deriving DecidableEq, Repr

def Store.perform (store : Store ν) : Action ν → Outcome (Store ν)
  | .wrap this offset => .ok (store.wrap this offset)
  | .clear this => .ok (store.clear this)
  | .copy this other offset => store.copy this other offset
  | .take this other => store.take this other
  | .takeInto this other => store.takeInto this other
  | .swap this sp => store.swap this sp
  | .close this => store.close this
  | .decrement this => store.decrement this
  | .deleteCount this => store.deleteCount this
  | .deleteObject this => store.deleteObject this
  | .deleteDeleter this => store.deleteDeleter this
  | .leave this => .ok (store.put this none)

/-- The members of `shared_ptr`; `tmp` is the local handle of a member that has one. -/
inductive Call (ν : Type) where
  | construct (this : ν)
  | constructFrom (this : ν) (offset : Nat)
  | constructCopy (this other : ν) (offset : Nat)
  | constructMove (this other : ν)
  | destruct (this : ν)
  | copyAssign (this other tmp : ν)
  | moveAssign (this other tmp : ν)
  | reset (this tmp : ν)
  | resetTo (this tmp : ν) (offset : Nat)
  | swap (this sp : ν)
deriving DecidableEq, Repr

namespace Call

def destructor (this : ν) : List (Action ν) :=
  [.close this, .decrement this, .deleteCount this, .deleteObject this, .deleteDeleter this, .leave this]

def program : Call ν → List (Action ν)
  | .construct this => [.clear this]
  | .constructFrom this offset => [.wrap this offset]
  | .constructCopy this other offset => [.copy this other offset]
  | .constructMove this other => [.take this other]
  | .destruct this => destructor this
  | .copyAssign this other tmp =>
      if other ≠ this then [.copy tmp other 0, .swap tmp this] ++ destructor tmp else []
  | .moveAssign this other tmp => [.clear tmp, .swap tmp this] ++ destructor tmp ++ [.takeInto this other]
  | .reset this tmp => [.clear tmp, .swap tmp this] ++ destructor tmp
  | .resetTo this tmp offset => [.wrap tmp offset, .swap tmp this] ++ destructor tmp
  | .swap this sp => [.swap this sp]

/-- The handles that a call uses. -/
def names : Call ν → List ν
  | .construct this | .constructFrom this _ | .destruct this => [this]
  | .constructCopy this other _ | .constructMove this other | .swap this other => [this, other]
  | .reset this tmp | .resetTo this tmp _ => [this, tmp]
  | .copyAssign this other tmp | .moveAssign this other tmp => [this, other, tmp]

end Call

def Store.Alive (store : Store ν) (name : ν) : Prop :=
  match store.handles name with
  | some handle => handle.stage = .alive
  | none => False

instance (store : Store ν) (name : ν) : Decidable (store.Alive name) := by
  unfold Store.Alive
  split <;> infer_instance

/-- What a call needs: handles that exist, room for those that it makes, and for a move
assignment two handles that are distinct. -/
def Call.Allowed (store : Store ν) : Call ν → Prop
  | .construct this | .constructFrom this _ => store.handles this = none
  | .constructCopy this other _ | .constructMove this other => store.handles this = none ∧ store.Alive other
  | .destruct this => store.Alive this
  | .copyAssign this other tmp => store.Alive this ∧ store.Alive other ∧ store.handles tmp = none
  | .moveAssign this other tmp =>
      this ≠ other ∧ store.Alive this ∧ store.Alive other ∧ store.handles tmp = none
  | .reset this tmp | .resetTo this tmp _ => store.Alive this ∧ store.handles tmp = none
  | .swap this sp => store.Alive this ∧ store.Alive sp

instance (store : Store ν) (call : Call ν) : Decidable (call.Allowed store) := by
  cases call <;> unfold Call.Allowed <;> infer_instance

/-- The handles that a step reads or writes. -/
def Action.uses : Action ν → List ν
  | .wrap this _ | .clear this | .close this | .decrement this | .deleteCount this | .deleteObject this
  | .deleteDeleter this | .leave this => [this]
  | .copy this other _ | .take this other | .takeInto this other | .swap this other => [this, other]

/-- The calls in progress, each with the steps that are left of it. A destructor of an object
that destroys handles makes calls of its own while the call that destroys the object waits. -/
structure System (ν : Type) where
  store : Store ν
  frames : List (List (Action ν))

inductive Event (ν : Type) where
  | call (call : Call ν)
  /-- the next step of a call in progress -/
  | act (index : Nat)
deriving DecidableEq, Repr

namespace System

def initial : System ν where
  store := .empty
  frames := []

/-- No call in progress is going to use the handles of the call. -/
def Free (system : System ν) (call : Call ν) : Prop :=
  ∀ name ∈ call.names, ∀ frame ∈ system.frames, ∀ action ∈ frame, name ∉ action.uses

instance (system : System ν) (call : Call ν) : Decidable (system.Free call) := by
  unfold Free
  infer_instance

/-- A call that is not allowed, or that would share a handle, changes nothing. -/
def step (system : System ν) : Event ν → Outcome (System ν)
  | .call call =>
      if call.Allowed system.store ∧ system.Free call then
        .ok { system with frames := system.frames ++ [call.program] }
      else .ok system
  | .act index =>
      match system.frames[index]? with
      | some (action :: rest) => do
          let store ← system.store.perform action
          .ok { store, frames := system.frames.set index rest }
      | _ => .ok system

end System

end Dsac.SharedPtr

import Dsac.Fault
import Dsac.Library.Heap

namespace Dsac

open Dsac.Library

/-! Reads and writes through raw pointers. -/

variable {ν : Type u}

/-- `*address` for an address that is not null. -/
def load (heap : Heap ν) (address : Addr) : Outcome ν :=
  match heap.get address with
  | some node => .ok node
  | none => .error .destroyedNode

/-- `*pointer`, where `none` is the null pointer. -/
def deref (heap : Heap ν) : Option Addr → Outcome ν
  | none => .error .nullPointer
  | some address => load heap address

/-- `*address = node`. -/
def store (heap : Heap ν) (address : Addr) (node : ν) : Outcome (Heap ν) :=
  match heap.get address with
  | some _ => .ok (heap.set address node)
  | none => .error .destroyedNode

/-- `pointer->field = value`, a write to one field of a node. -/
def modify (heap : Heap ν) (pointer : Option Addr) (change : ν → ν) : Outcome (Heap ν) :=
  match pointer with
  | none => .error .nullPointer
  | some address =>
      match heap.get address with
      | some node => .ok (heap.set address (change node))
      | none => .error .destroyedNode

/-- `delete address`. -/
def destroy (heap : Heap ν) (address : Addr) : Outcome (Heap ν) :=
  match heap.get address with
  | some _ => .ok (heap.free address)
  | none => .error .destroyedNode

@[simp] theorem load_of_get {heap : Heap ν} {address : Addr} {node : ν}
    (live : heap.get address = some node) : load heap address = .ok node := by
  rw [load, live]

@[simp] theorem deref_some (heap : Heap ν) (address : Addr) :
    deref heap (some address) = load heap address := rfl

theorem store_of_get {heap : Heap ν} {address : Addr} {old node : ν}
    (live : heap.get address = some old) : store heap address node = .ok (heap.set address node) := by
  rw [store, live]

@[simp] theorem modify_of_get {heap : Heap ν} {address : Addr} {node : ν} (change : ν → ν)
    (live : heap.get address = some node) :
    modify heap (some address) change = .ok (heap.set address (change node)) := by
  simp only [modify, live]

theorem destroy_of_get {heap : Heap ν} {address : Addr} {old : ν}
    (live : heap.get address = some old) : destroy heap address = .ok (heap.free address) := by
  rw [destroy, live]

end Dsac

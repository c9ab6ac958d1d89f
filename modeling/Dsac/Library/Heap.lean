import Mathlib

namespace Dsac.Library

/-! A heap of nodes. Addresses are allocation identities: an address is never
handed out twice, so a read through a stale pointer finds no node. -/

abbrev Addr := Nat

structure Heap (ν : Type u) where
  cells : List (Option ν) := []
deriving DecidableEq, Repr

namespace Heap

variable {ν : Type u} {heap : Heap ν} {address other : Addr} {node : ν}

/-- The live node at an address. -/
def get (heap : Heap ν) (address : Addr) : Option ν := heap.cells[address]?.join

/-- The address of the next allocation. -/
def fresh (heap : Heap ν) : Addr := heap.cells.length

def alloc (heap : Heap ν) (node : ν) : Heap ν := ⟨heap.cells ++ [some node]⟩

def set (heap : Heap ν) (address : Addr) (node : ν) : Heap ν := ⟨heap.cells.set address (some node)⟩

def free (heap : Heap ν) (address : Addr) : Heap ν := ⟨heap.cells.set address none⟩

theorem lt_fresh_of_get (live : heap.get address = some node) : address < heap.fresh := by
  by_contra outside
  rw [get, List.getElem?_eq_none (Nat.le_of_not_gt outside)] at live
  cases live

@[simp] theorem get_fresh : heap.get heap.fresh = none := by
  rw [get, fresh, List.getElem?_eq_none (Nat.le_refl _)]
  rfl

@[simp] theorem get_alloc_fresh : (heap.alloc node).get heap.fresh = some node := by
  simp [get, alloc, fresh]

theorem get_alloc_of_ne (different : address ≠ heap.fresh) :
    (heap.alloc node).get address = heap.get address := by
  rw [get, get, alloc]
  rcases Nat.lt_or_ge address heap.cells.length with inside | outside
  · rw [List.getElem?_append_left inside]
  · have beyond : heap.cells.length < address := Nat.lt_of_le_of_ne outside (Ne.symm different)
    rw [List.getElem?_eq_none outside, List.getElem?_eq_none (by simpa using beyond)]

@[simp] theorem fresh_alloc : (heap.alloc node).fresh = heap.fresh + 1 := by simp [alloc, fresh]

@[simp] theorem fresh_set : (heap.set address node).fresh = heap.fresh := by simp [set, fresh]

@[simp] theorem fresh_free : (heap.free address).fresh = heap.fresh := by simp [free, fresh]

theorem get_set_self (inside : address < heap.fresh) :
    (heap.set address node).get address = some node := by
  simp [get, set, List.getElem?_set_self inside]

theorem get_set_of_ne (different : other ≠ address) :
    (heap.set address node).get other = heap.get other := by
  rw [get, get, set, List.getElem?_set_ne (Ne.symm different)]

theorem get_free_self : (heap.free address).get address = none := by
  rw [get, free]
  rcases Nat.lt_or_ge address heap.cells.length with inside | outside
  · rw [List.getElem?_set_self inside]
    rfl
  · rw [List.getElem?_eq_none (by simpa using outside)]
    rfl

theorem get_free_of_ne (different : other ≠ address) :
    (heap.free address).get other = heap.get other := by
  rw [get, get, free, List.getElem?_set_ne (Ne.symm different)]

theorem get_ne_fresh (live : heap.get address = some node) : address ≠ heap.fresh :=
  Nat.ne_of_lt (lt_fresh_of_get live)

end Heap

end Dsac.Library

import Dsac.Cache.Index

namespace Dsac.Cache

open Dsac.Library Dsac.Intrusive

/-! `dsac::lru`. -/

structure Lru (Key Value : Type) where
  heap : Items Key Value
  capacity_ : Nat
  cache_ : Addr
  index_ : List Addr := []
deriving DecidableEq, Repr

/-- A call of the public interface. -/
inductive LruCall (Key Value : Type) where
  | put (key : Key) (value : Value)
  | get (key : Key)
deriving DecidableEq, Repr

variable {Key Value : Type} [BEq Key]

namespace Lru

def construct (capacity : Nat) : Outcome (Lru Key Value) := do
  let (heap, cache_) ← Intrusive.construct {}
  return { heap, capacity_ := capacity, cache_ }

def size (cache : Lru Key Value) : Nat := cache.index_.length

def promote (cache : Lru Key Value) (hit : Addr) : Outcome (Lru Key Value) := do
  let heap ← detach cache.heap hit
  return { cache with heap := ← pushFront heap cache.cache_ hit }

/-- The eviction of the last item; the end of the index is not erased. -/
def evict (cache : Lru Key Value) : Outcome (Lru Key Value) := do
  match ← popBack cache.heap cache.cache_ with
  | (_, none) => .error .nullPointer
  | (heap, some backItem) =>
      match find heap cache.index_ (← loadItem heap backItem).key with
      | none => .error .nullPointer
      | some iterator =>
          let (heap, index_) ← eraseAt heap cache.index_ iterator
          return { cache with heap, index_ }

/-- The branch of `put` that evicts when the cache is full. -/
def evictWhenFull (cache : Lru Key Value) : Outcome (Lru Key Value) :=
  if cache.size = cache.capacity_ then cache.evict else .ok cache

def put (cache : Lru Key Value) (key : Key) (value : Value) : Outcome (Lru Key Value) := do
  match find cache.heap cache.index_ key with
  | none =>
      let cache ← cache.evictWhenFull
      let (heap, index_, hit) := insert cache.heap cache.index_ { key, value } none none
      return { cache with heap := ← pushFront heap cache.cache_ hit, index_ }
  | some hit => cache.promote hit

/-- The result is the cache, with the value that the returned pointer points to. -/
def get (cache : Lru Key Value) (key : Key) : Outcome (Lru Key Value × Option Value) := do
  match find cache.heap cache.index_ key with
  | none => return (cache, none)
  | some hit =>
      let cache ← cache.promote hit
      return (cache, some (← loadItem cache.heap hit).value)

/-- The result of a `put` is none. -/
def call (cache : Lru Key Value) : LruCall Key Value → Outcome (Lru Key Value × Option Value)
  | .put key value => do return (← cache.put key value, none)
  | .get key => cache.get key

end Lru

end Dsac.Cache

import Dsac.Cache.Index
import Dsac.Library.Run

namespace Dsac.Cache

open Dsac.Library Dsac.Intrusive

/-! `dsac::lru_k`. -/

/-- The number of values of `std::size_t`. -/
def sizeRange : Nat := 2 ^ 64

/-- `left - right` for `std::size_t`. -/
def sizeSub (left right : Nat) : Nat := (left + (sizeRange - right % sizeRange)) % sizeRange

structure LruK (Key Value : Type) where
  heap : Items Key Value
  capacity_ : Nat
  k_ : Nat
  history_cache_ : Addr
  history_index_ : List Addr := []
  buffer_cache_ : Addr
  buffer_index_ : List Addr := []
deriving DecidableEq, Repr

variable {Key Value : Type} [BEq Key]

namespace LruK

def construct (capacity k : Nat) : Outcome (LruK Key Value) := do
  let (heap, history) ← Intrusive.construct {}
  let (heap, buffer) ← Intrusive.construct heap
  return { heap, capacity_ := capacity, k_ := k, history_cache_ := history, buffer_cache_ := buffer }

def size (cache : LruK Key Value) : Nat := cache.history_index_.length + cache.buffer_index_.length

def promote (cache : LruK Key Value) : Option Addr → Outcome (LruK Key Value)
  | none => .error .assertion
  | some tmpItem => do
      let heap ← detach cache.heap tmpItem
      return { cache with heap := ← pushFront heap cache.buffer_cache_ tmpItem }

/-- The result is the cache, with the returned iterator. -/
def moveToBufferCacheWithPromote (cache : LruK Key Value) :
    Option Addr → Outcome (LruK Key Value × Addr)
  | none => .error .assertion
  | some tmpItem => do
      let heap ← detach cache.heap tmpItem
      let node ← load heap tmpItem
      let (heap, buffer_index_, bufferHit) :=
        insert heap cache.buffer_index_ (← loadItem heap tmpItem) node.prev_ node.next_
      let heap ← pushFront heap cache.buffer_cache_ bufferHit
      let (heap, history_index_) ← eraseAt heap cache.history_index_ tmpItem
      return ({ cache with heap, buffer_index_, history_index_ }, bufferHit)

/-- The eviction of the last item of one of the two caches: `pop_back`, `detach` and `erase`. -/
def popItem (heap : Items Key Value) (storage_ : Addr) (index : List Addr) :
    Outcome (Items Key Value × List Addr) := do
  match ← popBack heap storage_ with
  | (_, none) => .error .nullPointer
  | (heap, some popped) =>
      let heap ← detach heap popped
      erase heap index (← loadItem heap popped).key

def popAtHistoryCacheWhileOverflow (cache : LruK Key Value) : Outcome (LruK Key Value) := do
  if sizeSub (sizeSub cache.capacity_ cache.history_index_.length) cache.buffer_index_.length = 0 then
    let (heap, history_index_) ← popItem cache.heap cache.history_cache_ cache.history_index_
    return { cache with heap, history_index_ }
  else return cache

def popAtBufferCacheWhileOverflow (cache : LruK Key Value) : Outcome (LruK Key Value) := do
  if sizeSub cache.k_ cache.buffer_index_.length = 0 then
    let (heap, buffer_index_) ← popItem cache.heap cache.buffer_cache_ cache.buffer_index_
    return { cache with heap, buffer_index_ }
  else return cache

def put (cache : LruK Key Value) (key : Key) (value : Value) : Outcome (LruK Key Value) := do
  match find cache.heap cache.history_index_ key with
  | none =>
      match find cache.heap cache.buffer_index_ key with
      | none =>
          let cache ← cache.popAtHistoryCacheWhileOverflow
          let (heap, history_index_, historyHit) :=
            insert cache.heap cache.history_index_ { key, value } none none
          let heap ← pushFront heap cache.history_cache_ historyHit
          return { cache with heap, history_index_ }
      | some bufferHit => cache.promote (some bufferHit)
  | some historyHit =>
      let cache ← cache.popAtBufferCacheWhileOverflow
      return (← cache.moveToBufferCacheWithPromote (some historyHit)).1

/-- The result is the cache, with the value that the returned pointer points to. -/
def get (cache : LruK Key Value) (key : Key) : Outcome (LruK Key Value × Option Value) := do
  match find cache.heap cache.history_index_ key with
  | none =>
      match find cache.heap cache.buffer_index_ key with
      | none => return (cache, none)
      | some bufferHit =>
          let cache ← cache.promote (some bufferHit)
          return (cache, some (← loadItem cache.heap bufferHit).value)
  | some historyHit =>
      let (cache, bufferHit) ← cache.moveToBufferCacheWithPromote (some historyHit)
      return (cache, some (← loadItem cache.heap bufferHit).value)

end LruK

/-- A call of the public interface. -/
inductive LruKCall (Key Value : Type) where
  | put (key : Key) (value : Value)
  | get (key : Key)
deriving DecidableEq, Repr

def LruK.call (cache : LruK Key Value) : LruKCall Key Value → Outcome (LruK Key Value)
  | .put key value => cache.put key value
  | .get key => do return (← cache.get key).1

/-- A sequence of calls on a new cache. -/
def LruK.calls (capacity k : Nat) (calls : List (LruKCall Key Value)) : Outcome (LruK Key Value) := do
  run LruK.call (← LruK.construct capacity k) calls

end Dsac.Cache

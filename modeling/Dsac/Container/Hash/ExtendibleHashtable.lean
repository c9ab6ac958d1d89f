import Dsac.Memory
import Dsac.Library.OrderedMap

namespace Dsac.Hash

open Dsac.Library

/-! `dsac::extendible_hashtable`. Several entries of the directory may share a
bucket, so buckets live in a heap and the directory holds their addresses. The
table forwards its calls to its directory and is not modelled apart from it. -/

structure ExtendibleHashtableBucket (K V : Type) [LinearOrder K] where
  localDepth : Nat
  bucketSize : Nat
  chain : OrderedMap K V := {}
deriving DecidableEq

structure ExtendibleHashtableDirectory (K V : Type) [LinearOrder K] where
  globalDepth : Nat
  heap : Heap (ExtendibleHashtableBucket K V) := {}
  buckets : List Addr := []
deriving DecidableEq

/-- `1 << global_depth_` is an `int`; from this depth on the mask overflows. -/
def maskWidth : Nat := 31

variable {K V : Type} [LinearOrder K]

namespace ExtendibleHashtableBucket

def make (localDepth bucketSize : Nat) : ExtendibleHashtableBucket K V := { localDepth, bucketSize }

def hasCapacity (bucket : ExtendibleHashtableBucket K V) : Bool := bucket.chain.size < bucket.bucketSize

protected def insert (bucket : ExtendibleHashtableBucket K V) (key : K) (value : V) :
    Outcome (ExtendibleHashtableBucket K V) :=
  if bucket.hasCapacity then .ok { bucket with chain := bucket.chain.insertOrAssign key value }
  else .error .assertion

end ExtendibleHashtableBucket

namespace ExtendibleHashtableDirectory

/-- `buckets_.push_back(bucket::make(local_depth, bucket_size))`. -/
def pushBack (directory : ExtendibleHashtableDirectory K V) (localDepth bucketSize : Nat) :
    ExtendibleHashtableDirectory K V :=
  { directory with
    heap := directory.heap.alloc (.make localDepth bucketSize)
    buckets := directory.buckets ++ [directory.heap.fresh] }

def make (globalDepth bucketSize : Nat) : ExtendibleHashtableDirectory K V :=
  (List.range (1 <<< globalDepth)).foldl (fun directory _ => directory.pushBack globalDepth bucketSize)
    { globalDepth }

/-- `buckets_[index]`. -/
def entry (directory : ExtendibleHashtableDirectory K V) (index : Nat) : Outcome Addr :=
  match directory.buckets[index]? with
  | some bucket => .ok bucket
  | none => .error .outOfRange

def getBucketWithIndexByKey (hash : K → UInt64) (directory : ExtendibleHashtableDirectory K V) (key : K) :
    Outcome (Addr × Nat) :=
  if directory.globalDepth < maskWidth then do
    let index := (hash key).toNat &&& ((1 <<< directory.globalDepth) - 1)
    return (← directory.entry index, index)
  else .error .overflow

def getBucketByKey (hash : K → UInt64) (directory : ExtendibleHashtableDirectory K V) (key : K) :
    Outcome Addr := do
  return (← directory.getBucketWithIndexByKey hash key).1

/-- Step 1 of a split: the directory is doubled if a bucket of this depth needs it. -/
def expand (directory : ExtendibleHashtableDirectory K V) (originalBucketDepth : Nat) :
    ExtendibleHashtableDirectory K V :=
  if originalBucketDepth = directory.globalDepth then
    { directory with
      globalDepth := directory.globalDepth + 1
      buckets := directory.buckets ++ directory.buckets }
  else directory

/-- Steps 2 to 4 of a split. The two new buckets are empty and have the depth that the
assertion at the end of Step 4 asks for. -/
def split (directory : ExtendibleHashtableDirectory K V) (originalBucket : Addr) (index : Nat) :
    Outcome (ExtendibleHashtableDirectory K V) := do
  let original ← load directory.heap originalBucket
  let localDepth := original.localDepth + 1
  let heap ← store directory.heap originalBucket { original with localDepth }
  let imageIndex := index ^^^ (1 <<< (localDepth - 1))
  let splitImage ← directory.entry imageIndex
  if originalBucket ≠ splitImage then .error .assertion
  else
    let image := heap.fresh
    let heap := heap.alloc (.make localDepth original.bucketSize)
    let again := heap.fresh
    let heap := heap.alloc (.make localDepth original.bucketSize)
    return { directory with heap, buckets := (directory.buckets.set imageIndex image).set index again }

/-- `insert`; the fuel bounds the depth of the recursion. The bucket that is split
is full, so the nested insertions leave the chain that Step 5 iterates over alone. -/
protected def insert (hash : K → UInt64) :
    Nat → ExtendibleHashtableDirectory K V → K → V → Outcome (ExtendibleHashtableDirectory K V)
  | 0, _, _, _ => .error .fuel
  | fuel + 1, directory, key, value => do
      let (originalBucket, index) ← directory.getBucketWithIndexByKey hash key
      let original ← load directory.heap originalBucket
      if !original.hasCapacity then
        if ¬ original.localDepth ≤ directory.globalDepth then .error .assertion
        else
          let directory := directory.expand original.localDepth
          if ¬ original.localDepth < directory.globalDepth then .error .assertion
          else
            let directory ← directory.split originalBucket index
            let directory ← original.chain.entries.foldlM
              (fun directory entry => ExtendibleHashtableDirectory.insert hash fuel directory entry.1 entry.2)
              directory
            ExtendibleHashtableDirectory.insert hash fuel directory key value
      else
        let bucket ← directory.getBucketByKey hash key
        let heap ← store directory.heap bucket (← (← load directory.heap bucket).insert key value)
        return { directory with heap }

def contains (hash : K → UInt64) (directory : ExtendibleHashtableDirectory K V) (key : K) : Outcome Bool := do
  return (← load directory.heap (← directory.getBucketByKey hash key)).chain.contains key

/-- One call of `insert` on the table. -/
def insertCall (hash : K → UInt64) (fuel : Nat) (directory : ExtendibleHashtableDirectory K V)
    (call : K × V) : Outcome (ExtendibleHashtableDirectory K V) :=
  directory.insert hash fuel call.1 call.2

end ExtendibleHashtableDirectory

end Dsac.Hash

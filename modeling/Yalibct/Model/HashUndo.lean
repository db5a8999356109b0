import Yalibct.Model.HashTable

/-! # Rehashing with an allocator that may refuse

Here a request for a node that the free list cannot answer is granted or refused. A transfer can then
fail on the way, with part of the entries moved, and is undone.
-/

namespace Yalibct.Hash.Failing

open Machine

/-- The node that answers a request, if it is granted. -/
abbrev Grants := ℕ → Option ℕ

/-- `allocate_entry` -/
def allocateEntry (grants : Grants) (requests : ℕ) (s : State) : Option ℕ × ℕ × State :=
  if s.table.freeEntryList ≠ 0 then
    let new := s.table.freeEntryList
    (some new, requests, { s with table := { s.table with freeEntryList := (s.nodes new).next } })
  else (grants requests, requests + 1, s)

variable (k : Hashing)

/-- The part of `transfer_entries` that moves the head of a bucket; false if there is no node for it. -/
def transferHead (grants : Grants) (data requests : ℕ) (s : State) : Except Fault (Bool × ℕ × State) := do
  let slot ← safeHasher k s.table data
  let newBucket := s.table.head slot
  if newBucket.data ≠ 0 then
    match allocateEntry grants requests s with
    | (none, requests, s) => .ok (false, requests, s)
    | (some newEntry, requests, s) =>
      let s := s.setNode newEntry ⟨data, newBucket.next⟩
      .ok (true, requests, s.setHead slot { newBucket with next := newEntry })
  else
    let s := s.setHead slot { newBucket with data := data }
    .ok (true, requests, { s with table := { s.table with nBucketsUsed := s.table.nBucketsUsed + 1 } })

/-- What a transfer leaves: the buckets of the source and how many of them are in use, and the state
with the destination as its table. -/
structure Transferred where
  done : Bool
  bucket : List HashEntry
  nBucketsUsed : ℕ
  requests : ℕ
  state : State

/-- Buckets that stay as they are come first. -/
def Transferred.after (t : Transferred) (bucket : HashEntry) : Transferred :=
  { t with bucket := bucket :: t.bucket }

/-- `transfer_entries (dst, src, safe)` -/
def transferEntries (grants : Grants) (fuel : ℕ) (safe : Bool) :
    List HashEntry → ℕ → ℕ → State → Except Fault Transferred
  | [], used, requests, s => .ok ⟨true, [], used, requests, s⟩
  | bucket :: rest, used, requests, s =>
    if bucket.data ≠ 0 then do
      let s ← transferOverflow k fuel bucket.next s
      let bucket := { bucket with next := 0 }
      if safe then .ok ((← transferEntries grants fuel safe rest used requests s).after bucket)
      else
        let (moved, requests, s) ← transferHead k grants bucket.data requests s
        if moved then
          let t ← transferEntries grants fuel safe rest (ptrSub used 1) requests s
          .ok (t.after { bucket with data := 0 })
        else .ok ⟨false, bucket :: rest, used, requests, s⟩
    else do .ok ((← transferEntries grants fuel safe rest used requests s).after bucket)

/-- The undo of `hash_rehash`, from what the failed transfer left. -/
def undo (grants : Grants) (fuel : ℕ) (table : HashTable) (t : Transferred) : Except Fault State := do
  let newTable := t.state.table
  let table := { table with
    bucket := t.bucket
    nBucketsUsed := t.nBucketsUsed
    freeEntryList := newTable.freeEntryList }
  let t ← transferEntries k grants fuel true newTable.bucket newTable.nBucketsUsed t.requests
    { t.state with table := table }
  if t.done = false then .error .aborted
  else
    let t ← transferEntries k grants fuel false t.bucket t.nBucketsUsed t.requests t.state
    if t.done = false then .error .aborted else .ok t.state

/-- The new table of `hash_rehash`. -/
def newTable (table : HashTable) (bucket : List HashEntry) : HashTable where
  bucket := bucket
  nBucketsUsed := 0
  nEntries := 0
  tuning := table.tuning
  freeEntryList := table.freeEntryList
  entryStack := table.entryStack

/-- `hash_rehash` -/
def hashRehash (grants : Grants) (c : Calloc) (fuel : ℕ) (s : State) (candidate : ℕ) :
    Except Fault (Bool × State) := do
  let newSize ← computeBucketSize fuel candidate s.table.tuning
  if newSize = 0 then .ok (false, s.refuse)
  else if newSize = s.table.nBuckets then .ok (true, s)
  else
    match callocBuckets c s.arrays newSize with
    | (none, arrays) => .ok (false, { s with arrays := arrays })
    | (some bucket, arrays) =>
      let table := s.table
      let t ← transferEntries k grants fuel false table.bucket table.nBucketsUsed 0
        { s with arrays := arrays, table := newTable table bucket }
      if t.done then
        .ok (true, { t.state with table := { table with
          bucket := t.state.table.bucket
          nBucketsUsed := t.state.table.nBucketsUsed
          freeEntryList := t.state.table.freeEntryList } })
      else .ok (false, ← undo k grants fuel table t)

end Yalibct.Hash.Failing

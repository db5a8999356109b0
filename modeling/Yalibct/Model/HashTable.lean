import Mathlib.Logic.Function.Basic
import Yalibct.Machine.Binary32
import Yalibct.Machine.Malloc
import Yalibct.Model.Obstack

/-! # Hash tables

A bucket is a head in the array and a chain of overflow nodes. Nodes come from a list of freed
nodes or from an obstack that is a field of the table. Entries are pointers, and a null pointer
marks an empty bucket. The array grows and shrinks by moving every entry to a new one.

A loop runs for a number of rounds, and the call is unfinished when that does not suffice.
-/

namespace Yalibct.Hash

open Machine

/-- `struct hash_entry` -/
structure HashEntry where
  data : ℕ
  next : ℕ
deriving DecidableEq

def HashEntry.size : ℕ := 16

structure HashTuning where
  shrinkThreshold : Binary32
  shrinkFactor : Binary32
  growthThreshold : Binary32
  growthFactor : Binary32
  isNBuckets : Bool
deriving DecidableEq

/-- The functions given to `hash_initialize`. -/
structure Hashing where
  hasher : ℕ → ℕ → ℕ
  comparator : ℕ → ℕ → Bool

/-- `struct hash_table`; the array knows its own length. -/
structure HashTable where
  bucket : List HashEntry
  nBucketsUsed : ℕ
  nEntries : ℕ
  tuning : HashTuning
  freeEntryList : ℕ
  entryStack : Obstack

def HashTable.nBuckets (table : HashTable) : ℕ := table.bucket.length

/-- A table with the memory it uses. Allocations of arrays are requests of their own. -/
structure State where
  heap : Heap
  nodes : ℕ → HashEntry
  arrays : Requests
  table : HashTable

/-- Which requests for arrays are granted: the number of the request and the length. -/
abbrev Calloc := ℕ → ℕ → Bool

/-! ## Tuning -/

open Binary32 in
def defaultTuning : HashTuning where
  shrinkThreshold := round 0
  shrinkFactor := round 1
  growthThreshold := round (8 / 10)
  growthFactor := round (1414 / 1000)
  isNBuckets := false

def epsilon : Binary32 := .round (1 / 10)

/-- The condition of `check_tuning`. -/
def HashTuning.valid (tuning : HashTuning) : Bool :=
  let one := Binary32.ofNat 1
  epsilon.lt tuning.growthThreshold &&
    tuning.growthThreshold.lt (one.sub epsilon) &&
    (one.add epsilon).lt tuning.growthFactor &&
    (Binary32.ofNat 0).le tuning.shrinkThreshold &&
    (tuning.shrinkThreshold.add epsilon).lt tuning.shrinkFactor &&
    tuning.shrinkFactor.le one &&
    (tuning.shrinkThreshold.add epsilon).lt tuning.growthThreshold

/-- `check_tuning`: invalid tuning is replaced by the default. -/
def checkTuning (table : HashTable) : Bool × HashTable :=
  if table.tuning = defaultTuning ∨ table.tuning.valid then (true, table)
  else (false, { table with tuning := defaultTuning })

/-! ## Sizes -/

def sizeMax : ℕ := 2 ^ 64 - 1

def isPrimeLoop (candidate : ℕ) : ℕ → ℕ → ℕ → Except Fault Bool
  | 0, _, _ => .error .unfinished
  | fuel + 1, divisor, square =>
    if square < candidate ∧ candidate % divisor ≠ 0 then
      isPrimeLoop candidate fuel (divisor + 2) (sizeT (square + 4 * (divisor + 1)))
    else .ok (candidate % divisor ≠ 0)

def isPrime (fuel candidate : ℕ) : Except Fault Bool := isPrimeLoop candidate fuel 3 9

def nextPrimeLoop (rounds : ℕ) : ℕ → ℕ → Except Fault ℕ
  | 0, _ => .error .unfinished
  | fuel + 1, candidate =>
    if candidate = sizeMax then .ok candidate
    else
      match isPrime rounds candidate with
      | .error fault => .error fault
      | .ok true => .ok candidate
      | .ok false => nextPrimeLoop rounds fuel (candidate + 2)

def nextPrime (fuel candidate : ℕ) : Except Fault ℕ :=
  let candidate := if candidate < 10 then 10 else candidate
  -- `candidate |= 1`
  let candidate := if candidate % 2 = 0 then candidate + 1 else candidate
  nextPrimeLoop fuel fuel candidate

/-- The value a size has when it is converted from a float. -/
def toSize (x : Binary32) : Except Fault ℕ :=
  match x.toNat with
  | some n => if n ≤ sizeMax then .ok n else .error .undefined
  | none => .error .undefined

/-- `compute_bucket_size`; zero when no such array is possible. -/
def computeBucketSize (fuel candidate : ℕ) (tuning : HashTuning) : Except Fault ℕ := do
  let prime (candidate : ℕ) : Except Fault ℕ := do
    let candidate ← nextPrime fuel candidate
    -- `xalloc_oversized`, of pointers
    if ptrdiffMax < candidate * 8 then .ok 0 else .ok candidate
  if tuning.isNBuckets then prime candidate
  else
    let newCandidate := (Binary32.ofNat candidate).div tuning.growthThreshold
    if (Binary32.ofNat sizeMax).le newCandidate then .ok 0
    else prime (← toSize newCandidate)

/-! ## Buckets and nodes -/

variable (k : Hashing)

/-- An entry matches by its address or by the comparator. -/
def Hashing.matches (entry data : ℕ) : Bool := entry == data || k.comparator entry data

/-- `safe_hasher`, as an index. -/
def safeHasher (table : HashTable) (key : ℕ) : Except Fault ℕ :=
  let n := k.hasher key table.nBuckets
  if n < table.nBuckets then .ok n else .error .aborted

/-- The head at an index that `safe_hasher` has returned. -/
def HashTable.head (table : HashTable) (slot : ℕ) : HashEntry := table.bucket.getD slot ⟨0, 0⟩

def HashTable.setHead (table : HashTable) (slot : ℕ) (head : HashEntry) : HashTable :=
  { table with bucket := table.bucket.set slot head }

def State.setHead (s : State) (slot : ℕ) (head : HashEntry) : State :=
  { s with table := s.table.setHead slot head }

def State.setNode (s : State) (node : ℕ) (entry : HashEntry) : State :=
  { s with nodes := Function.update s.nodes node entry }

/-- `free_entry` -/
def freeEntry (s : State) (entry : ℕ) : State :=
  let s := s.setNode entry ⟨0, s.table.freeEntryList⟩
  { s with table := { s.table with freeEntryList := entry } }

/-- `allocate_entry`. The obstack does not return when it has no memory. -/
def allocateEntry (a : Allocator) (s : State) : Except Fault (ℕ × State) :=
  if s.table.freeEntryList ≠ 0 then
    let new := s.table.freeEntryList
    .ok (new, { s with table := { s.table with freeEntryList := (s.nodes new).next } })
  else do
    let (new, heap, stack) ← obstackAlloc a s.heap s.table.entryStack HashEntry.size
    .ok (new, { s with heap := heap, table := { s.table with entryStack := stack } })

/-- The loop of `hash_find_entry` over the overflow. The cursor is a node, or the head if there is
none; the result is the cursor whose next node matches, and that node. -/
def scanOverflow (nodes : ℕ → HashEntry) (entry : ℕ) :
    ℕ → Option ℕ → ℕ → Except Fault (Option (Option ℕ × ℕ))
  | 0, _, _ => .error .unfinished
  | fuel + 1, cursor, next =>
    if next = 0 then .ok none
    else if k.matches entry (nodes next).data then .ok (some (cursor, next))
    else scanOverflow nodes entry fuel (some next) (nodes next).next

/-- Set the `next` field of a node, or of a head. -/
def State.setNext (s : State) (slot : ℕ) (cursor : Option ℕ) (next : ℕ) : State :=
  match cursor with
  | none => s.setHead slot { s.table.head slot with next := next }
  | some node => s.setNode node { s.nodes node with next := next }

/-- `hash_find_entry`: the matching data or zero, and the index of the bucket. -/
def hashFindEntry (fuel : ℕ) (s : State) (entry : ℕ) (delete : Bool) : Except Fault (ℕ × ℕ × State) := do
  let slot ← safeHasher k s.table entry
  let bucket := s.table.head slot
  if bucket.data = 0 then .ok (0, slot, s)
  else if k.matches entry bucket.data then
    let s :=
      if delete then
        if bucket.next ≠ 0 then freeEntry (s.setHead slot (s.nodes bucket.next)) bucket.next
        else s.setHead slot { bucket with data := 0 }
      else s
    .ok (bucket.data, slot, s)
  else
    match ← scanOverflow k s.nodes entry fuel none bucket.next with
    | none => .ok (0, slot, s)
    | some (cursor, next) =>
      let data := (s.nodes next).data
      let s := if delete then freeEntry (s.setNext slot cursor (s.nodes next).next) next else s
      .ok (data, slot, s)

/-! ## Rehashing -/

/-- The loop of `transfer_entries` over the overflow of one bucket. -/
def transferOverflow : ℕ → ℕ → State → Except Fault State
  | 0, _, _ => .error .unfinished
  | fuel + 1, cursor, s =>
    if cursor = 0 then .ok s
    else do
      let data := (s.nodes cursor).data
      let slot ← safeHasher k s.table data
      let newBucket := s.table.head slot
      let next := (s.nodes cursor).next
      if newBucket.data ≠ 0 then
        -- Relink the node.
        let s := s.setNode cursor ⟨data, newBucket.next⟩
        transferOverflow fuel next (s.setHead slot { newBucket with next := cursor })
      else
        -- Free the node, its data goes into the head.
        let s := s.setHead slot { newBucket with data := data }
        let s := { s with table := { s.table with nBucketsUsed := s.table.nBucketsUsed + 1 } }
        transferOverflow fuel next (freeEntry s cursor)

/-- The head of a bucket is moved last. -/
def transferHead (a : Allocator) (data : ℕ) (s : State) : Except Fault State := do
  let slot ← safeHasher k s.table data
  let newBucket := s.table.head slot
  if newBucket.data ≠ 0 then
    let (newEntry, s) ← allocateEntry a s
    let s := s.setNode newEntry ⟨data, newBucket.next⟩
    .ok (s.setHead slot { newBucket with next := newEntry })
  else
    let s := s.setHead slot { newBucket with data := data }
    .ok { s with table := { s.table with nBucketsUsed := s.table.nBucketsUsed + 1 } }

/-- `transfer_entries (dst, src, false)`; the table of the state is the destination. The heads of
the source are cleared on the way, but its array is then freed. -/
def transferEntries (a : Allocator) (fuel : ℕ) : List HashEntry → State → Except Fault State
  | [], s => .ok s
  | bucket :: rest, s =>
    if bucket.data ≠ 0 then do
      let s ← transferOverflow k fuel bucket.next s
      let s ← transferHead k a bucket.data s
      transferEntries a fuel rest s
    else transferEntries a fuel rest s

/-- A request for an array of buckets. -/
def callocBuckets (c : Calloc) (r : Requests) (n : ℕ) : Option (List HashEntry) × Requests :=
  if c r.calls n then (some (List.replicate n ⟨0, 0⟩), ⟨r.calls + 1, r.refused⟩)
  else (none, ⟨r.calls + 1, true⟩)

/-- Record that there is no array of the size a table should have. -/
def State.refuse (s : State) : State := { s with arrays := { s.arrays with refused := true } }

/-- `hash_rehash`. No transfer fails, since the obstack does not return without memory. -/
def hashRehash (a : Allocator) (c : Calloc) (fuel : ℕ) (s : State) (candidate : ℕ) :
    Except Fault (Bool × State) := do
  let newSize ← computeBucketSize fuel candidate s.table.tuning
  if newSize = 0 then .ok (false, s.refuse)
  else if newSize = s.table.nBuckets then .ok (true, s)
  else
    match callocBuckets c s.arrays newSize with
    | (none, arrays) => .ok (false, { s with arrays := arrays })
    | (some bucket, arrays) =>
      let table := s.table
      let newTable : HashTable := {
        bucket := bucket
        nBucketsUsed := 0
        nEntries := 0
        tuning := table.tuning
        freeEntryList := table.freeEntryList
        entryStack := table.entryStack }
      let s ← transferEntries k a fuel table.bucket { s with arrays := arrays, table := newTable }
      -- `n_entries` and `entry_stack` are taken to hold their value already.
      .ok (true, { s with table := { table with
        bucket := s.table.bucket
        nBucketsUsed := s.table.nBucketsUsed
        freeEntryList := s.table.freeEntryList } })

/-! ## The calls -/

/-- The buckets in use exceed the growth threshold. -/
def crowded (table : HashTable) : Bool :=
  (table.tuning.growthThreshold.mul (.ofNat table.nBuckets)).lt (.ofNat table.nBucketsUsed)

def growCandidate (table : HashTable) : Binary32 :=
  let grown := (Binary32.ofNat table.nBuckets).mul table.tuning.growthFactor
  if table.tuning.isNBuckets then grown else grown.mul table.tuning.growthThreshold

/-- The part of `hash_insert_if_absent` that makes room: the index of the entry's bucket, or
nothing when the table cannot grow. -/
def growForInsert (a : Allocator) (c : Calloc) (fuel : ℕ) (s : State) (entry slot : ℕ) :
    Except Fault (Option ℕ × State) :=
  if crowded s.table then
    let s := { s with table := (checkTuning s.table).2 }
    if crowded s.table then
      let candidate := growCandidate s.table
      if (Binary32.ofNat sizeMax).le candidate then .ok (none, s.refuse)
      else do
        let (grown, s) ← hashRehash k a c fuel s (← toSize candidate)
        if grown then
          let (data, slot, s) ← hashFindEntry k fuel s entry false
          if data ≠ 0 then .error .aborted else .ok (some slot, s)
        else .ok (none, s)
    else .ok (some slot, s)
  else .ok (some slot, s)

/-- The part of `hash_insert_if_absent` that adds the entry to a bucket. -/
def addEntry (a : Allocator) (s : State) (entry slot : ℕ) : Except Fault State :=
  if (s.table.head slot).data ≠ 0 then do
    let (newEntry, s) ← allocateEntry a s
    let s := s.setNode newEntry ⟨entry, (s.table.head slot).next⟩
    let s := s.setHead slot { s.table.head slot with next := newEntry }
    .ok { s with table := { s.table with nEntries := s.table.nEntries + 1 } }
  else
    let s := s.setHead slot { s.table.head slot with data := entry }
    .ok { s with table := { s.table with
      nEntries := s.table.nEntries + 1
      nBucketsUsed := s.table.nBucketsUsed + 1 } }

/-- `hash_insert_if_absent`: -1, 0 with the matching entry, or 1. -/
def hashInsertIfAbsent (a : Allocator) (c : Calloc) (fuel : ℕ) (s : State) (entry : ℕ) :
    Except Fault (ℤ × ℕ × State) :=
  if entry = 0 then .error .aborted
  else do
    let (data, slot, s) ← hashFindEntry k fuel s entry false
    if data ≠ 0 then .ok (0, data, s)
    else
      match ← growForInsert k a c fuel s entry slot with
      | (none, s) => .ok (-1, 0, s)
      | (some slot, s) => do
        let s ← addEntry a s entry slot
        .ok (1, 0, s)

/-- `hash_insert` -/
def hashInsert (a : Allocator) (c : Calloc) (fuel : ℕ) (s : State) (entry : ℕ) :
    Except Fault (ℕ × State) := do
  let (err, matched, s) ← hashInsertIfAbsent k a c fuel s entry
  .ok (if err = -1 then 0 else if err = 0 then matched else entry, s)

/-- The buckets in use are fewer than the shrink threshold. -/
def sparse (table : HashTable) : Bool :=
  (Binary32.ofNat table.nBucketsUsed).lt (table.tuning.shrinkThreshold.mul (.ofNat table.nBuckets))

def shrinkCandidate (table : HashTable) : Binary32 :=
  let shrunk := (Binary32.ofNat table.nBuckets).mul table.tuning.shrinkFactor
  if table.tuning.isNBuckets then shrunk else shrunk.mul table.tuning.growthThreshold

/-- The part of `hash_remove` that makes the table smaller; that it fails does no harm. -/
def shrinkAfterRemove (a : Allocator) (c : Calloc) (fuel : ℕ) (s : State) : Except Fault State :=
  if sparse s.table then
    let s := { s with table := (checkTuning s.table).2 }
    if sparse s.table then do
      let (_, s) ← hashRehash k a c fuel s (← toSize (shrinkCandidate s.table))
      .ok s
    else .ok s
  else .ok s

/-- `hash_remove` -/
def hashRemove (a : Allocator) (c : Calloc) (fuel : ℕ) (s : State) (entry : ℕ) :
    Except Fault (ℕ × State) := do
  let (data, slot, s) ← hashFindEntry k fuel s entry true
  if data = 0 then .ok (0, s)
  else
    let s := { s with table := { s.table with nEntries := ptrSub s.table.nEntries 1 } }
    if (s.table.head slot).data = 0 then do
      let s := { s with table := { s.table with nBucketsUsed := ptrSub s.table.nBucketsUsed 1 } }
      let s ← shrinkAfterRemove k a c fuel s
      .ok (data, s)
    else .ok (data, s)

/-- The loop of `hash_lookup`. -/
def lookupChain (nodes : ℕ → HashEntry) (entry : ℕ) : ℕ → HashEntry → Except Fault ℕ
  | 0, _ => .error .unfinished
  | fuel + 1, cursor =>
    if k.matches entry cursor.data then .ok cursor.data
    else if cursor.next = 0 then .ok 0
    else lookupChain nodes entry fuel (nodes cursor.next)

/-- `hash_lookup` -/
def hashLookup (fuel : ℕ) (s : State) (entry : ℕ) : Except Fault ℕ := do
  let slot ← safeHasher k s.table entry
  let bucket := s.table.head slot
  if bucket.data = 0 then .ok 0 else lookupChain k s.nodes entry fuel bucket

/-- `raw_hasher`: the pointer, rotated by three bits. -/
def rawHasher (data n : ℕ) : ℕ := (data / 8 + data % 8 * 2 ^ 61) % n

def rawComparator (x y : ℕ) : Bool := x == y

/-- `hash_initialize`, with the functions it settles on; nothing when it fails. -/
def hashInitialize (a : Allocator) (c : Calloc) (fuel : ℕ) (heap : Heap) (arrays : Requests)
    (candidate : ℕ) (tuning : Option HashTuning) (hasher : Option (ℕ → ℕ → ℕ))
    (comparator : Option (ℕ → ℕ → Bool)) : Except Fault (Option (Hashing × State)) := do
  let k : Hashing := ⟨hasher.getD rawHasher, comparator.getD rawComparator⟩
  let tuning := tuning.getD defaultTuning
  if ¬ (tuning = defaultTuning ∨ tuning.valid) then .ok none
  else
    let n ← computeBucketSize fuel candidate tuning
    if n = 0 then .ok none
    else
      match callocBuckets c arrays n with
      | (none, _) => .ok none
      | (some bucket, arrays) => do
        let (heap, stack) ← obstackInit a heap
        .ok (some (k, {
          heap := heap
          nodes := fun _ => ⟨0, 0⟩
          arrays := arrays
          table := {
            bucket := bucket
            nBucketsUsed := 0
            nEntries := 0
            tuning := tuning
            freeEntryList := 0
            entryStack := stack } }))

/-! ## Runs -/

inductive Call where
  | insert (entry : ℕ)
  | lookup (entry : ℕ)
  | remove (entry : ℕ)
deriving DecidableEq

/-- A call and the pointer it returns. -/
def call (a : Allocator) (c : Calloc) (fuel : ℕ) (s : State) : Call → Except Fault (ℕ × State)
  | .insert entry => hashInsert k a c fuel s entry
  | .lookup entry => do .ok (← hashLookup k fuel s entry, s)
  | .remove entry => hashRemove k a c fuel s entry

/-- The runs of a table: each event is a call with what it returned. -/
def table (a : Allocator) (c : Calloc) : System where
  State := State
  Event := Call × ℕ
  Step s e t := ∃ fuel, call k a c fuel s e.1 = .ok (e.2, t)

end Yalibct.Hash

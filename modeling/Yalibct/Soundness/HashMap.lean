import Yalibct.Machine.Dictionary
import Yalibct.Soundness.HashRehash
import Yalibct.Soundness.HashSize

/-! # Runs of a hash table are runs of a dictionary

As long as every rehash finds the nodes it needs on the free list, each call returns what the
dictionary returns, and every node stays in one place. A rehash that takes a node from its copy of
the obstack makes the table hand out that node again.
-/

namespace Yalibct.Hash

open Machine

variable {k : Hashing} {a : Allocator} {c : Calloc} {s t : State} {S : Multiset ℕ}
variable {m e fuel candidate : ℕ} {rows : List Row} {free : List ℕ}

/-! ## What a table holds -/

/-- The table is in order, has so many nodes, and these are its entries. -/
structure Holds (k : Hashing) (s : State) (S : Multiset ℕ) (m : ℕ) : Prop where
  tidy : ∃ rows free, Tidy k s.nodes s.table rows free [] ∧
    Owned s.heap s.table.entryStack (rows.flatMap Row.chain ++ free) ∧
    ((contents s.nodes rows : List ℕ) : Multiset ℕ) = S ∧ (rows.flatMap Row.chain ++ free).length = m
  tuned : s.table.tuning.valid = true
  nonempty : 0 < s.table.nBuckets
  possible : s.table.nBuckets * 8 ≤ ptrdiffMax

theorem Short.stops {fault : Fault} (short : Short fuel fault) (m : ℕ) : Stops k fuel (m + sizeMax) fault := by
  obtain ⟨rfl, bound⟩ := short
  exact Nat.le_trans bound (Nat.le_add_left _ _)

/-- Rounds that suffice for every node suffice for the nodes in chains. -/
theorem chained_lt (count : (rows.flatMap Row.chain ++ free).length = m) : chained rows < m + sizeMax := by
  have large : 0 < sizeMax := by decide
  rw [List.length_append] at count
  rw [chained]
  omega

/-- Counters do not matter. -/
theorem Holds.counters (holds : Holds k s S m) (entries used : ℕ) :
    Holds k { s with table := { s.table with nEntries := entries, nBucketsUsed := used } } S m := by
  obtain ⟨⟨rows, free, tidy, rest⟩, tuned, nonempty, possible⟩ := holds
  exact ⟨⟨rows, free, ⟨⟨tidy.bucket, tidy.linked, tidy.freed, tidy.distinct⟩, tidy.placed⟩, rest⟩,
    tuned, nonempty, possible⟩

/-- An array of empty buckets. -/
def emptyRows (n : ℕ) : List Row := List.replicate n ⟨⟨0, 0⟩, []⟩

theorem chain_emptyRows (n : ℕ) : (emptyRows n).flatMap Row.chain = [] := by
  simp [emptyRows, List.flatMap_eq_nil_iff]

theorem contents_emptyRows (nodes : ℕ → HashEntry) (n : ℕ) : contents nodes (emptyRows n) = [] := by
  simp [emptyRows, contents, Row.data, List.flatMap_eq_nil_iff]

/-- It is in order, whatever nodes are spare or free. -/
theorem Tidy.fresh {nodes : ℕ → HashEntry} {table : HashTable} {spare : List ℕ} (n : ℕ)
    (bucket : table.bucket = List.replicate n ⟨0, 0⟩) (freed : Chain (link nodes) table.freeEntryList free)
    (distinct : (spare ++ free).Nodup) : Tidy k nodes table (emptyRows n) free spare where
  bucket := by rw [bucket, emptyRows, List.map_replicate]
  linked r listed := by
    rw [(List.mem_replicate.mp listed).2]
    exact ⟨rfl, fun _ => rfl, nofun⟩
  freed := freed
  distinct := by rwa [chain_emptyRows, List.append_nil]
  placed i r here d member := by
    rw [(List.mem_replicate.mp (List.mem_of_getElem? here)).2] at member
    cases member

/-! ## Rehashing -/

/-- With this many buckets, every head that becomes overflow finds a free node. -/
def Recycles (k : Hashing) (s : State) (n : ℕ) : Prop :=
  ∀ rows free, Shape s.nodes s.table rows free [] →
    recycles (fun d => k.hasher d n) (rows.map (Row.data s.nodes)) [] free.length = true

/-- A refusal stays on record. -/
def Records (s t : State) : Prop := s.arrays.refused = true → t.arrays.refused = true

theorem Records.trans {u : State} (first : Records s t) (second : Records t u) : Records s u :=
  fun refused => second (first refused)

private theorem callocBuckets_cases (c : Calloc) (r : Requests) (n : ℕ) :
    callocBuckets c r n = (some (List.replicate n ⟨0, 0⟩), ⟨r.calls + 1, r.refused⟩) ∨
    callocBuckets c r n = (none, ⟨r.calls + 1, true⟩) := by
  rw [callocBuckets]
  split_ifs
  · exact .inl rfl
  · exact .inr rfl

/-- `hash_rehash` keeps the entries, and fails only without memory. -/
theorem hashRehash_spec (holds : Holds k s S m) (bound : candidate ≤ sizeMax)
    (recycled : ∀ n, computeBucketSize fuel candidate s.table.tuning = .ok n → n ≠ 0 →
      n ≠ s.table.nBuckets → Recycles k s n) :
    Outcome (Stops k fuel (m + sizeMax))
      (fun result => Holds k result.2 S m ∧ Records s result.2 ∧
        (result.1 = false → result.2.arrays.refused = true))
      (hashRehash k a c fuel s candidate) := by
  obtain ⟨⟨rows, free, tidy, owned, rfl, count⟩, tuned, nonempty, possible⟩ := holds
  have unchanged : ∀ arrays, Holds k { s with arrays := arrays } (contents s.nodes rows) m := fun _ =>
    ⟨⟨rows, free, tidy, owned, rfl, count⟩, tuned, nonempty, possible⟩
  have sized := computeBucketSize_spec fuel (HashTuning.usable tuned) bound
  simp only [hashRehash]
  cases size : computeBucketSize fuel candidate s.table.tuning with
  | error fault =>
    rw [size] at sized
    exact Short.stops sized m
  | ok n =>
    rw [size] at sized
    have recycledN := recycled n size
    change Outcome _ _ (if n = 0 then _ else _)
    by_cases zero : n = 0
    · rw [if_pos zero]
      exact ⟨unchanged _, fun _ => rfl, fun _ => rfl⟩
    rw [if_neg zero]
    by_cases same : n = s.table.nBuckets
    · rw [if_pos same]
      exact ⟨unchanged _, id, nofun⟩
    rw [if_neg same]
    rcases callocBuckets_cases c s.arrays n with granted | refused
    · rw [granted]
      have recyclable := recycledN zero same rows free tidy.toShape
      have distinct : (rows.flatMap Row.chain ++ free).Nodup := tidy.distinct
      have empty : Tidy k s.nodes { s.table with
          bucket := List.replicate n ⟨0, 0⟩, nBucketsUsed := 0, nEntries := 0 }
          (emptyRows n) free (rows.flatMap Row.chain) := .fresh n rfl tidy.freed distinct
      have start : Filled k (rows.flatMap Row.chain ++ free)
          { s with
            arrays := ⟨s.arrays.calls + 1, s.arrays.refused⟩
            table := { s.table with
              bucket := List.replicate n ⟨0, 0⟩, nBucketsUsed := 0, nEntries := 0 } }
          (rows.flatMap Row.chain) [] [] free.length := by
        refine ⟨emptyRows n, free, empty, ?_, ?_, fun i r here => ?_, rfl⟩
        · rw [contents_emptyRows]
        · rw [chain_emptyRows, List.append_nil]
        · rw [(List.mem_replicate.mp (List.mem_of_getElem? here)).2]
          exact ⟨fun nonzero => absurd rfl nonzero, nofun⟩
      have length : (List.replicate n (HashEntry.mk 0 0)).length = n := List.length_replicate
      have transferred := transferEntries_spec fuel a
        (by
          change 0 < (List.replicate n (HashEntry.mk 0 0)).length
          rw [length]
          exact Nat.pos_of_ne_zero zero)
        start tidy.linked
        (by
          change recycles (fun d => k.hasher d (List.replicate n (HashEntry.mk 0 0)).length) _ _ _ = true
          rw [length]
          exact recyclable)
      rw [← tidy.bucket] at transferred
      apply (transferred.mono (fun _ stops => stops.mono (chained_lt count).le) fun _ done => done).bind
      rintro t ⟨used, room, ⟨rows', free', tidy', listed, places, -, -⟩, still⟩
      have sizeNow : t.table.bucket.length = n := still.size.trans length
      refine ⟨⟨⟨rows', free', ⟨⟨tidy'.bucket, tidy'.linked, tidy'.freed, tidy'.distinct⟩, tidy'.placed⟩,
        ?_, ?_, ?_⟩, tuned, ?_, ?_⟩, ?_, nofun⟩
      · have heap : t.heap = s.heap := still.heap
        simp only [heap]
        exact owned.subset fun q member => places.subset (by simpa using member)
      · rw [Multiset.coe_eq_coe]
        simpa using listed
      · have same := places.length_eq
        simp only [List.nil_append] at same
        exact same.trans count
      · change 0 < t.table.bucket.length
        rw [sizeNow]
        exact Nat.pos_of_ne_zero zero
      · change t.table.bucket.length * 8 ≤ ptrdiffMax
        rw [sizeNow]
        exact sized
      · intro refused
        have arrays : t.arrays = ⟨s.arrays.calls + 1, s.arrays.refused⟩ := still.arrays
        simp only [arrays]
        exact refused
    · rw [refused]
      exact ⟨unchanged _, fun _ => rfl, fun _ => rfl⟩

/-! ## The calls -/

/-- A call that rehashes the table, from the given state to the given number of buckets. -/
inductive Rehashes (k : Hashing) (s : State) : Call → State → ℕ → Prop
  | grow {e fuel slot candidate n : ℕ} (absent : hashFindEntry k fuel s e false = .ok (0, slot, s))
      (full : crowded s.table = true) (grown : toSize (growCandidate s.table) = .ok candidate)
      (size : computeBucketSize fuel candidate s.table.tuning = .ok n) (possible : n ≠ 0)
      (other : n ≠ s.table.nBuckets) : Rehashes k s (.insert e) s n
  | shrink {e fuel d slot candidate n : ℕ} {t : State}
      (found : hashFindEntry k fuel s e true = .ok (d, slot, t)) (present : d ≠ 0)
      (emptied : (t.table.head slot).data = 0) {u : State}
      (counted : u = { t with table := { t.table with
        nEntries := ptrSub t.table.nEntries 1, nBucketsUsed := ptrSub t.table.nBucketsUsed 1 } })
      (low : sparse u.table = true) (shrunk : toSize (shrinkCandidate u.table) = .ok candidate)
      (size : computeBucketSize fuel candidate u.table.tuning = .ok n) (possible : n ≠ 0)
      (other : n ≠ u.table.nBuckets) : Rehashes k s (.remove e) u n

/-- If the call rehashes the table, then with the nodes on the free list alone. -/
def Safe (k : Hashing) (s : State) (call : Call) : Prop :=
  ∀ t n, Rehashes k s call t n → Recycles k t n

/-- An insertion that finds room, or a larger table, knows the bucket of its entry. -/
theorem growForInsert_spec {slot : ℕ} (holds : Holds k s S m) (respects : k.Respects)
    (absent : ∀ d ∈ S, k.matches e d = false) (hashed : slot = k.hasher e s.table.nBuckets)
    (inRange : slot < s.table.nBuckets) (found : hashFindEntry k fuel s e false = .ok (0, slot, s))
    (safe : Safe k s (.insert e)) :
    Outcome (Stops k fuel (m + sizeMax))
      (fun result => Holds k result.2 S m ∧ Records s result.2 ∧
        match result.1 with
        | none => result.2.arrays.refused = true
        | some slot => slot = k.hasher e result.2.table.nBuckets ∧ slot < result.2.table.nBuckets)
      (growForInsert k a c fuel s e slot) := by
  rw [growForInsert, checkTuning_of_valid holds.tuned]
  by_cases full : crowded s.table = true
  · simp only [if_pos full]
    by_cases huge : (Binary32.ofNat sizeMax).le (growCandidate s.table) = true
    · rw [if_pos huge]
      obtain ⟨⟨rows, free, rest⟩, tuned, nonempty, possible⟩ := holds
      exact ⟨⟨⟨rows, free, rest⟩, tuned, nonempty, possible⟩, fun _ => rfl, rfl⟩
    rw [if_neg huge]
    obtain ⟨candidate, value, bound⟩ := toSize_of_lt
      (growCandidate_nonneg (HashTuning.usable holds.tuned) holds.nonempty) (Bool.eq_false_iff.mpr huge)
    rw [value]
    refine (hashRehash_spec (a := a) (c := c) holds bound fun n size possible other => ?_).bind ?_
    · exact safe s n (.grow found full value size possible other)
    · rintro ⟨grown, t⟩ ⟨holds', records, failed⟩
      cases grown with
      | false => exact ⟨holds', records, failed rfl⟩
      | true =>
        obtain ⟨⟨rows', free', tidy', owned', rfl, count'⟩, tuned', nonempty', possible'⟩ := holds'
        refine ((hashFindEntry_spec fuel e tidy' respects nonempty').mono
          (fun _ stops => stops.mono (chained_lt count').le) fun _ done => done).bind ?_
        rintro ⟨d, slot', u⟩ ⟨hashed', inRange', rfl, ⟨rfl, -⟩ | ⟨-, member, matched⟩⟩
        · exact ⟨⟨⟨rows', free', tidy', owned', rfl, count'⟩, tuned', nonempty', possible'⟩, records,
            hashed', inRange'⟩
        · -- The search before the rehash would have found it.
          have unmatched := absent d (Multiset.mem_coe.mpr member)
          rw [matched] at unmatched
          cases unmatched
  · simp only [if_neg full]
    exact ⟨holds, fun refused => refused, hashed, inRange⟩

/-- A new node takes an entry into the overflow of its bucket. -/
theorem Holds.push {p slot : ℕ} {r : Row} (tidy : Tidy k t.nodes t.table rows free [p])
    (owned : Owned t.heap t.table.entryStack ([p] ++ rows.flatMap Row.chain ++ free))
    (tuned : t.table.tuning.valid = true) (nonempty : 0 < t.table.nBuckets)
    (possible : t.table.nBuckets * 8 ≤ ptrdiffMax) (here : rows[slot]? = some r)
    (used : r.head.data ≠ 0) (nonzero : p ≠ 0) (entry : e ≠ 0)
    (hashed : k.hasher e t.table.nBuckets = slot) :
    ∃ m', Holds k ((t.setNode p ⟨e, (t.table.head slot).next⟩).setHead slot
      { t.table.head slot with next := p }) (e ::ₘ (contents t.nodes rows : Multiset ℕ)) m' := by
  obtain ⟨pushed, gained⟩ := tidy.push here used nonzero entry hashed
  have chains : ([] ++ (rows.set slot ⟨{ r.head with next := p }, p :: r.chain⟩).flatMap Row.chain).Perm
      ([p] ++ rows.flatMap Row.chain) :=
    flatMap_set_perm here (fun _ _ _ _ => rfl) (List.Perm.refl _)
  have size := nBuckets_setHead t.table slot { r.head with next := p }
  rw [tidy.head here]
  refine ⟨_, ⟨_, free, pushed, owned.subset fun q member => ?_, ?_, rfl⟩, tuned, ?_, ?_⟩
  · exact (chains.append_right free).subset member
  · rw [Multiset.cons_coe, Multiset.coe_eq_coe]
    exact gained
  · exact lt_of_lt_of_eq nonempty size.symm
  · exact le_of_eq_of_le (congrArg (· * 8) size) possible

/-- An entry is added to the bucket that its hash selects. -/
theorem addEntry_spec {slot : ℕ} (holds : Holds k s S m) (entry : e ≠ 0)
    (hashed : slot = k.hasher e s.table.nBuckets) (inRange : slot < s.table.nBuckets) :
    Outcome (Stops k fuel (m + sizeMax))
      (fun t => (∃ m', Holds k t (e ::ₘ S) m') ∧ t.arrays = s.arrays) (addEntry a s e slot) := by
  obtain ⟨⟨rows, free, tidy, owned, rfl, -⟩, tuned, nonempty, possible⟩ := holds
  obtain ⟨r, here⟩ := tidy.row inRange
  rw [addEntry, tidy.head here]
  by_cases used : r.head.data ≠ 0
  · rw [if_pos used]
    rcases allocateEntry_spec a tidy owned with
      refused | ⟨p, t, free', run, nonzero, nodes, arrays, tuning, tidy', owned'⟩
    · rw [refused]
      exact trivial
    have size : t.table.nBuckets = s.table.nBuckets :=
      congrArg List.length (tidy'.bucket.trans tidy.bucket.symm)
    rw [← nodes] at tidy' ⊢
    rw [← size] at nonempty possible hashed
    obtain ⟨m', holds'⟩ := Holds.push tidy' owned' (tuning ▸ tuned) nonempty possible here used nonzero
      entry hashed.symm
    rw [run]
    exact Outcome.of_ok rfl ⟨⟨m', holds'.counters _ _⟩, arrays⟩
  · rw [if_neg used]
    have unused : r.head.data = 0 := Decidable.not_not.mp used
    obtain ⟨filled, gained⟩ := tidy.fill here unused entry hashed.symm
    have chains : ([] ++ (rows.set slot ⟨{ r.head with data := e }, r.chain⟩).flatMap Row.chain).Perm
        ([] ++ rows.flatMap Row.chain) :=
      flatMap_set_perm here (fun _ _ _ _ => rfl) (List.Perm.refl _)
    have size := nBuckets_setHead s.table slot { r.head with data := e }
    obtain ⟨m', holds'⟩ : ∃ m', Holds k { s with table := s.table.setHead slot { r.head with data := e } }
        (e ::ₘ (contents s.nodes rows : Multiset ℕ)) m' := by
      refine ⟨_, ⟨_, free, filled, owned.subset fun q member => ?_, ?_, rfl⟩, tuned, ?_, ?_⟩
      · exact (chains.append_right free).subset member
      · rw [Multiset.cons_coe, Multiset.coe_eq_coe]
        exact gained
      · exact lt_of_lt_of_eq nonempty size.symm
      · exact le_of_eq_of_le (congrArg (· * 8) size) possible
    exact ⟨⟨m', holds'.counters _ _⟩, rfl⟩

/-! ## Each call follows the dictionary -/

/-- A null pointer stands for no entry. -/
def answer (d : ℕ) : Option ℕ := if d = 0 then none else some d

def Call.op : Call → Dictionary.Op ℕ
  | .insert e => .insert e
  | .lookup e => .lookup e
  | .remove e => .remove e

/-- The comparator and the test of addresses before it. -/
def Hashing.Same (k : Hashing) (e d : ℕ) : Prop := k.matches e d = true

/-- The call returned what a dictionary returns, or null with a refusal on record. -/
def Follows (k : Hashing) (S : Multiset ℕ) (s : State) (call : Call) (result : ℕ × State) : Prop :=
  Records s result.2 ∧ ∃ S' m, Holds k result.2 S' m ∧
    (Dictionary.Step k.Same S (call.op, answer result.1) S' ∨ result.2.arrays.refused = true)

private theorem answer_of_ne_zero {d : ℕ} (nonzero : d ≠ 0) : answer d = some d := if_neg nonzero

theorem lookup_spec (holds : Holds k s S m) (respects : k.Respects) :
    Outcome (Stops k fuel (m + sizeMax)) (Follows k S s (.lookup e)) (call k a c fuel s (.lookup e)) := by
  have kept := holds
  obtain ⟨⟨rows, free, tidy, owned, rfl, count⟩, tuned, nonempty, possible⟩ := holds
  refine ((hashLookup_spec tidy respects nonempty).mono (fun _ stops => stops.mono (chained_lt count))
    fun _ found => found).bind ?_
  rintro d (⟨rfl, absent⟩ | ⟨nonzero, stored, found⟩)
  · refine ⟨id, _, m, kept, .inl (.missing fun d stored found => ?_)⟩
    have unmatched := absent d stored
    rw [found] at unmatched
    cases unmatched
  · refine ⟨id, _, m, kept, .inl ?_⟩
    rw [answer_of_ne_zero nonzero]
    exact .lookup stored found

/-- What `hash_insert_if_absent` says of its outcome. -/
theorem hashInsertIfAbsent_spec (holds : Holds k s S m) (respects : k.Respects) (entry : e ≠ 0)
    (safe : Safe k s (.insert e)) :
    Outcome (Stops k fuel (m + sizeMax))
      (fun result => Records s result.2.2 ∧ ∃ S' m', Holds k result.2.2 S' m' ∧
        (result.1 = 0 ∧ S' = S ∧ result.2.1 ∈ S ∧ k.Same e result.2.1 ∧ result.2.1 ≠ 0 ∨
        result.1 = 1 ∧ S' = e ::ₘ S ∧ (∀ d ∈ S, ¬ k.Same e d) ∨
        result.1 = -1 ∧ result.2.2.arrays.refused = true))
      (hashInsertIfAbsent k a c fuel s e) := by
  have kept := holds
  obtain ⟨⟨rows, free, tidy, owned, rfl, count⟩, tuned, nonempty, possible⟩ := holds
  have searched := (hashFindEntry_spec fuel e tidy respects nonempty).mono
    (fun _ stops => stops.mono (chained_lt count).le) fun _ found => found
  rw [hashInsertIfAbsent, if_neg entry]
  cases run : hashFindEntry k fuel s e false with
  | error fault =>
    rw [run] at searched
    exact searched
  | ok result =>
    rw [run] at searched
    obtain ⟨d, slot, t⟩ := result
    obtain ⟨hashed, inRange, rfl, ⟨rfl, absent⟩ | ⟨nonzero, stored, found⟩⟩ := searched
    · change Outcome _ _ (growForInsert k a c fuel t e slot >>= _)
      apply (growForInsert_spec kept respects absent hashed inRange run safe).bind
      rintro ⟨slot' | slot', u⟩ ⟨holds', records, grown⟩
      · exact ⟨records, _, m, holds', .inr (.inr ⟨rfl, grown⟩)⟩
      · apply (addEntry_spec (a := a) holds' entry grown.1 grown.2).bind
        rintro v ⟨⟨m', holds''⟩, arrays⟩
        refine ⟨fun refused => ?_, _, m', holds'', .inr (.inl ⟨rfl, rfl, fun d stored found => ?_⟩)⟩
        · rw [arrays]
          exact records refused
        · have unmatched := absent d stored
          rw [found] at unmatched
          cases unmatched
    · change Outcome _ _ (if d ≠ 0 then _ else _)
      rw [if_pos nonzero]
      exact ⟨id, _, m, kept, .inl ⟨rfl, rfl, stored, found, nonzero⟩⟩

theorem insert_spec (holds : Holds k s S m) (respects : k.Respects) (entry : e ≠ 0)
    (safe : Safe k s (.insert e)) :
    Outcome (Stops k fuel (m + sizeMax)) (Follows k S s (.insert e)) (call k a c fuel s (.insert e)) := by
  apply (hashInsertIfAbsent_spec (a := a) (c := c) holds respects entry safe).bind
  rintro ⟨err, matched, t⟩ ⟨records, S', m', holds', ⟨rfl, rfl, stored, found, nonzero⟩ |
    ⟨rfl, rfl, absent⟩ | ⟨rfl, refused⟩⟩
  · refine ⟨records, S', m', holds', .inl ?_⟩
    change Dictionary.Step _ _ (_, answer matched) _
    rw [answer_of_ne_zero nonzero]
    exact .present stored found
  · refine ⟨records, _, m', holds', .inl ?_⟩
    change Dictionary.Step _ _ (_, answer e) _
    rw [answer_of_ne_zero entry]
    exact .insert absent
  · exact ⟨records, S', m', holds', .inr refused⟩

/-- Shrinking keeps the entries. -/
theorem shrinkAfterRemove_spec (holds : Holds k s S m)
    (safe : ∀ candidate n, sparse s.table = true → toSize (shrinkCandidate s.table) = .ok candidate →
      computeBucketSize fuel candidate s.table.tuning = .ok n → n ≠ 0 → n ≠ s.table.nBuckets →
      Recycles k s n) :
    Outcome (Stops k fuel (m + sizeMax)) (fun t => Holds k t S m ∧ Records s t)
      (shrinkAfterRemove k a c fuel s) := by
  rw [shrinkAfterRemove, checkTuning_of_valid holds.tuned]
  by_cases low : sparse s.table = true
  · simp only [if_pos low]
    obtain ⟨candidate, value, bound⟩ :=
      shrinkCandidate_toSize (HashTuning.usable holds.tuned) holds.possible
    rw [value]
    refine (hashRehash_spec (a := a) (c := c) holds bound fun n size possible other =>
      safe candidate n low value size possible other).bind ?_
    rintro ⟨shrunk, t⟩ ⟨holds', records, -⟩
    exact ⟨holds', records⟩
  · simp only [if_neg low]
    exact ⟨holds, id⟩

theorem remove_spec (holds : Holds k s S m) (respects : k.Respects) (safe : Safe k s (.remove e)) :
    Outcome (Stops k fuel (m + sizeMax)) (Follows k S s (.remove e)) (call k a c fuel s (.remove e)) := by
  have kept := holds
  obtain ⟨⟨rows, free, tidy, owned, rfl, count⟩, tuned, nonempty, possible⟩ := holds
  have searched := (hashFindEntry_delete fuel e tidy respects nonempty).mono
    (fun _ stops => stops.mono (chained_lt count).le) fun _ found => found
  rw [call, hashRemove]
  cases run : hashFindEntry k fuel s e true with
  | error fault =>
    rw [run] at searched
    exact searched
  | ok result =>
    rw [run] at searched
    obtain ⟨d, slot, t⟩ := result
    obtain ⟨rfl, rfl, absent⟩ | ⟨nonzero, found, still, rows', free', tidy', listed, places⟩ := searched
    · refine ⟨id, _, m, kept, .inl (.nothing fun d stored found => ?_)⟩
      have unmatched := absent d stored
      rw [found] at unmatched
      cases unmatched
    · change Outcome _ _ (if d = 0 then _ else _)
      rw [if_neg nonzero]
      have stored : d ∈ (contents s.nodes rows : Multiset ℕ) :=
        Multiset.mem_coe.mpr (listed.subset (List.mem_cons_self ..))
      have left : ((contents t.nodes rows' : List ℕ) : Multiset ℕ) =
          (contents s.nodes rows : Multiset ℕ).erase d := by
        rw [← Multiset.coe_eq_coe.mpr listed, ← Multiset.cons_coe, Multiset.erase_cons_head]
      have holds' : Holds k t ((contents s.nodes rows : Multiset ℕ).erase d) m := by
        refine ⟨⟨rows', free', tidy', ?_, left, places.length_eq.trans count⟩, ?_, ?_, ?_⟩
        · rw [still.heap, still.stack]
          exact owned.subset fun q member => places.subset member
        · rw [still.tuning]
          exact tuned
        · rw [still.size]
          exact nonempty
        · rw [still.size]
          exact possible
      have follows : Dictionary.Step k.Same (contents s.nodes rows : Multiset ℕ)
          (.remove e, answer d) ((contents s.nodes rows : Multiset ℕ).erase d) := by
        rw [answer_of_ne_zero nonzero]
        exact .remove stored found
      have records : Records s t := fun refused => still.arrays ▸ refused
      let counted : State := { t with table := { t.table with
        nEntries := ptrSub t.table.nEntries 1, nBucketsUsed := ptrSub t.table.nBucketsUsed 1 } }
      change Outcome _ _ (if (t.table.head slot).data = 0
        then shrinkAfterRemove k a c fuel counted >>= fun u => .ok (d, u) else .ok (d, _))
      by_cases emptied : (t.table.head slot).data = 0
      · rw [if_pos emptied]
        refine (shrinkAfterRemove_spec (holds'.counters _ _) fun candidate n low value size possible other =>
          safe counted n (.shrink run nonzero emptied rfl low value size possible other)).bind ?_
        rintro u ⟨holds'', records'⟩
        exact ⟨records.trans records', _, m, holds'', .inl follows⟩
      · rw [if_neg emptied]
        exact ⟨records, _, m, holds'.counters _ _, .inl follows⟩

/-- A call that is given an entry to insert. -/
def Call.Proper : Call → Prop
  | .insert e => e ≠ 0
  | .lookup _ => True
  | .remove _ => True

theorem call_spec {op : Call} (fuel : ℕ) (holds : Holds k s S m) (respects : k.Respects)
    (proper : op.Proper) (safe : Safe k s op) :
    Outcome (Stops k fuel (m + sizeMax)) (Follows k S s op) (call k a c fuel s op) := by
  cases op with
  | insert e => exact insert_spec holds respects proper safe
  | lookup e => exact lookup_spec holds respects
  | remove e => exact remove_spec holds respects safe

/-- A call that returned was proper. -/
theorem Call.proper_of_ok {op : Call} {result : ℕ × State} (done : call k a c fuel s op = .ok result) :
    op.Proper := by
  cases op with
  | insert e =>
    intro null
    rw [call, hashInsert, hashInsertIfAbsent, if_pos null] at done
    cases done
  | lookup e => trivial
  | remove e => trivial

/-! ## Runs -/

/-- A new table holds nothing, and has the functions it was given or the default ones. -/
theorem hashInitialize_spec {heap : Heap} (wf : heap.WellFormed) {arrays : Requests}
    {tuning : Option HashTuning} {hasher : Option (ℕ → ℕ → ℕ)} {comparator : Option (ℕ → ℕ → Bool)}
    (bound : candidate ≤ sizeMax)
    (start : hashInitialize a c fuel heap arrays candidate tuning hasher comparator = .ok (some (k, s))) :
    k = ⟨hasher.getD rawHasher, comparator.getD rawComparator⟩ ∧ Holds k s 0 0 := by
  simp only [hashInitialize] at start
  generalize tuning.getD defaultTuning = tuning at start
  by_cases usable : tuning = defaultTuning ∨ tuning.valid = true
  swap
  · rw [if_pos usable] at start
    cases start
  rw [if_neg (not_not_intro usable)] at start
  have valid : tuning.valid = true := by
    rcases usable with rfl | valid
    · exact valid_defaultTuning
    · exact valid
  obtain ⟨n, size, start⟩ := bind_eq_ok.mp start
  have possible := (computeBucketSize_spec fuel (HashTuning.usable valid) bound).post_of_ok size
  by_cases zero : n = 0
  · rw [if_pos zero] at start
    cases start
  rw [if_neg zero] at start
  rcases callocBuckets_cases c arrays n with granted | refused
  · rw [granted] at start
    obtain ⟨⟨heap', stack⟩, begun, start⟩ := bind_eq_ok.mp start
    rcases Obstack.begin_spec a wf (.inl rfl) (Obstack.defaultChunkFits a heap) with
      refused | ⟨heap'', h, b, run, valid', mask, -⟩
    · rw [show obstackInit a heap = .error .refused from refused] at begun
      cases begun
    rw [show obstackInit a heap = .ok (heap'', h) from run] at begun
    cases begun
    cases start
    have length : (List.replicate n (HashEntry.mk 0 0)).length = n := List.length_replicate
    refine ⟨rfl, ⟨emptyRows n, [], .fresh n rfl rfl List.nodup_nil,
      ⟨[], b, [], valid', mask, nofun, fun p member => ?_⟩, ?_, ?_⟩, valid, ?_, ?_⟩
    · rw [chain_emptyRows] at member
      cases member
    · rw [contents_emptyRows]
      rfl
    · rw [chain_emptyRows]
      rfl
    · exact lt_of_lt_of_eq (Nat.pos_of_ne_zero zero) length.symm
    · exact le_of_eq_of_le (congrArg (· * 8) length) possible
  · rw [refused] at start
    cases start

/-- The events as the dictionary has them. -/
def observed (es : List (Call × ℕ)) : List (Dictionary.Op ℕ × Option ℕ) :=
  es.map fun e => (e.1.op, answer e.2)

/-- The dictionary has a run with these events that ends with these entries. -/
def Imitated (k : Hashing) (es : List (Call × ℕ)) (S : Multiset ℕ) : Prop :=
  Run (dictionary k.Same) (0 : Multiset ℕ) (observed es) S

/-- The run so far is one of the dictionary, or a refusal is on record. -/
def Mirrors (k : Hashing) (past : List (Call × ℕ)) (s : State) : Prop :=
  ∃ S m, Holds k s S m ∧ (s.arrays.refused = false → Imitated k past S)

theorem Mirrors.step {past : List (Call × ℕ)} {e : Call × ℕ} (mirrors : Mirrors k past s)
    (respects : k.Respects) (safe : Safe k s e.1)
    (done : call k a c fuel s e.1 = .ok (e.2, t)) : Mirrors k (past ++ [e]) t := by
  obtain ⟨S, m, holds, run⟩ := mirrors
  obtain ⟨records, S', m', holds', follows⟩ :=
    (call_spec (a := a) (c := c) _ holds respects (Call.proper_of_ok done) safe).post_of_ok done
  refine ⟨S', m', holds', fun granted => ?_⟩
  have before : s.arrays.refused = false := by
    by_contra refused
    rw [records (Bool.eq_true_of_not_eq_false refused)] at granted
    cases granted
  rcases follows with step | refused
  · rw [Imitated, observed, List.map_append]
    exact (run before).trans (.step step (.done _))
  · rw [refused] at granted
    cases granted

/-- Among the nodes of the overflow and of the free list none is used twice. -/
def NodesApart (s : State) : Prop :=
  ∃ rows free, Shape s.nodes s.table rows free [] ∧ (rows.flatMap Row.chain ++ free).Nodup

/-- Every run without a refusal, all of whose rehashes recycle nodes, is a run of the dictionary;
no node is used twice, and the next call returns unless memory runs out or the hasher does not
keep to its range. -/
theorem runs_as_dictionary {heap : Heap} (wf : heap.WellFormed) {arrays : Requests}
    {tuning : Option HashTuning} {hasher : Option (ℕ → ℕ → ℕ)} {comparator : Option (ℕ → ℕ → Bool)}
    (bound : candidate ≤ sizeMax) (respects : k.Respects)
    (start : hashInitialize a c fuel heap arrays candidate tuning hasher comparator = .ok (some (k, s)))
    {es : List (Call × ℕ)} (run : Run ((table k a c).restrict fun s e => Safe k s e.1) s es t)
    (granted : t.arrays.refused = false) :
    (∃ S : Multiset ℕ, Imitated k es S ∧
      (Equivalence (fun e d => k.comparator e d = true) →
        ∀ e x y, x ∈ S → y ∈ S → k.comparator e x = true → k.comparator e y = true → x = y)) ∧
    NodesApart t ∧
    ∀ op : Call, op.Proper → Safe k t op → ∃ fuel,
      (∃ d u, call k a c fuel t op = .ok (d, u)) ∨ call k a c fuel t op = .error .refused ∨
      call k a c fuel t op = .error .aborted ∧ ∃ e n, 0 < n ∧ n ≤ k.hasher e n := by
  have initial : Mirrors k [] s := ⟨0, 0, (hashInitialize_spec wf bound start).2, fun _ => .done _⟩
  have mirrors : Mirrors k ([] ++ es) t :=
    Run.history (m := (table k a c).restrict fun s e => Safe k s e.1) (fun past u => Mirrors k past u)
      (fun mirrors taken => mirrors.step respects taken.1 taken.2.choose_spec) run initial
  obtain ⟨S, m, holds, follows⟩ := mirrors
  refine ⟨⟨S, follows granted, fun equivalence e x y left right first second => ?_⟩, ?_, ?_⟩
  · have same : ∀ e d, k.Same e d ↔ k.comparator e d = true := fun e d => by
      rw [Hashing.Same, Hashing.matches, Bool.or_eq_true, beq_iff_eq]
      exact ⟨fun alike => alike.elim (fun equal => equal ▸ equivalence.refl e) id, .inr⟩
    have alike : Equivalence k.Same :=
      ⟨fun x => (same x x).mpr (equivalence.refl x),
        fun first => (same _ _).mpr (equivalence.symm ((same _ _).mp first)),
        fun first second => (same _ _).mpr (equivalence.trans ((same _ _).mp first) ((same _ _).mp second))⟩
    exact Dictionary.unique_of_run alike (follows granted) left right ((same _ _).mpr first)
      ((same _ _).mpr second)
  · obtain ⟨⟨rows, free, tidy, -⟩, -⟩ := holds
    exact ⟨rows, free, tidy.toShape, tidy.distinct⟩
  · intro op proper safe
    refine ⟨m + sizeMax + 1, ?_⟩
    have outcome := call_spec (a := a) (c := c) (m + sizeMax + 1) holds respects proper safe
    cases result : call k a c (m + sizeMax + 1) t op with
    | ok returned => exact .inl ⟨returned.1, returned.2, rfl⟩
    | error fault =>
      rw [result] at outcome
      cases fault with
      | refused => exact .inr (.inl rfl)
      | aborted => exact .inr (.inr ⟨rfl, outcome⟩)
      | unfinished => exact absurd outcome (Nat.not_le_of_gt (Nat.lt_succ_self _))
      | outOfBounds | invalidFree | undefined => exact outcome.elim

/-! ## Two runs -/

/-- Make the calls one after the other, as long as each passes a check. -/
def replay (k : Hashing) (a : Allocator) (c : Calloc) (check : State → Call → Bool) (fuel : ℕ) :
    State → List Call → Except Fault (List ℕ × State)
  | s, [] => .ok ([], s)
  | s, op :: ops =>
    if check s op then do
      let (d, s) ← call k a c fuel s op
      let (ds, s) ← replay k a c check fuel s ops
      .ok (d :: ds, s)
    else .error .unfinished

private theorem replay_run {check : State → Call → Bool} (guard : State → Call × ℕ → Prop)
    (checked : ∀ s op d, check s op = true → guard s (op, d)) {ops : List Call} {ds : List ℕ}
    (done : replay k a c check fuel s ops = .ok (ds, t)) :
    Run ((table k a c).restrict guard) s (ops.zip ds) t := by
  induction ops generalizing s ds with
  | nil =>
    cases done
    exact .done _
  | cons op ops ih =>
    rw [replay] at done
    by_cases passed : check s op = true
    · rw [if_pos passed] at done
      obtain ⟨⟨d, u⟩, called, done⟩ := bind_eq_ok.mp done
      obtain ⟨⟨rest, v⟩, replayed, done⟩ := bind_eq_ok.mp done
      cases done
      exact .step ⟨checked s op d passed, fuel, called⟩ (ih replayed)
    · rw [if_neg passed] at done
      cases done

/-- Numbers as entries, in tables with the default tuning. -/
def numbers : Hashing := ⟨fun x n => x % n, fun x y => x == y⟩

def newTable : Except Fault (Option (Hashing × State)) :=
  hashInitialize .upward (fun _ _ => true) 100 .empty .none 0 none (some numbers.hasher)
    (some numbers.comparator)

private theorem numbers_respects : numbers.Respects := by
  intro e d n _ same
  rw [beq_iff_eq.mp same]

/-- The results of the calls, whether a request for memory was refused, and the number of buckets in the end. -/
def results (check : State → Call → Bool) (ops : List Call) : Option (List ℕ × Bool × ℕ) := do
  let (_, s) ← (← newTable.toOption)
  let (ds, t) ← (replay numbers .upward (fun _ _ => true) check 100 s ops).toOption
  some (ds, t.arrays.refused, t.table.nBuckets)

private theorem newTable_of_results {check : State → Call → Bool} {ops : List Call} {ds : List ℕ} {refused : Bool}
    {size : ℕ}
    (ran : results check ops = some (ds, refused, size)) : ∃ s t, newTable = .ok (some (numbers, s)) ∧
      replay numbers .upward (fun _ _ => true) check 100 s ops = .ok (ds, t) ∧
      t.arrays.refused = refused ∧ t.table.nBuckets = size := by
  rw [results] at ran
  cases made : newTable with
  | error fault =>
    rw [made] at ran
    cases ran
  | ok table =>
    rw [made] at ran
    cases table with
    | none => cases ran
    | some table =>
      obtain ⟨k, s⟩ := table
      obtain ⟨rfl, -⟩ := hashInitialize_spec Heap.wellFormed_empty (Nat.zero_le _) made
      change ((replay numbers .upward (fun _ _ => true) check 100 s ops).toOption >>= fun done =>
        some (done.1, done.2.arrays.refused, done.2.table.nBuckets)) = _ at ran
      cases replayed : replay numbers .upward (fun _ _ => true) check 100 s ops with
      | error fault =>
        rw [replayed] at ran
        cases ran
      | ok done =>
        rw [replayed] at ran
        cases ran
        exact ⟨s, done.2, rfl, replayed, rfl, rfl⟩

/-- The entries of some buckets, if no chain of theirs is long. -/
def rowsData (s : State) : List HashEntry → Option (List (List ℕ))
  | [] => some []
  | head :: heads => do
    let ps ← follow (link s.nodes) 100 head.next
    let rows ← rowsData s heads
    some (Row.data s.nodes ⟨head, ps⟩ :: rows)

private theorem rowsData_eq {rows : List Row} {data : List (List ℕ)} (linked : ∀ r ∈ rows, r.Linked s.nodes)
    (read : rowsData s (rows.map Row.head) = some data) : rows.map (Row.data s.nodes) = data := by
  induction rows generalizing data with
  | nil =>
    cases read
    rfl
  | cons r rows ih =>
    obtain ⟨ps, followed, rest⟩ := Option.bind_eq_some_iff.mp read
    obtain ⟨later, others, same⟩ := Option.bind_eq_some_iff.mp rest
    cases same
    cases (linked r (List.mem_cons_self ..)).chain.eq_of_follow followed
    rw [List.map_cons, ih (fun r' member => linked r' (List.mem_cons_of_mem _ member)) others]

/-- With this many buckets, the entries that are there recycle nodes. -/
def checkRecycles (k : Hashing) (s : State) (n : ℕ) : Bool :=
  match rowsData s s.table.bucket, follow (link s.nodes) 100 s.table.freeEntryList with
  | some rows, some free => recycles (fun d => k.hasher d n) rows [] free.length
  | _, _ => false

private theorem recycles_of_check {n : ℕ} (checked : checkRecycles k s n = true) : Recycles k s n := by
  intro rows free shape
  rw [checkRecycles, shape.bucket] at checked
  split at checked
  · next data free' read followed =>
    rw [rowsData_eq shape.linked read, shape.freed.eq_of_follow followed]
    exact checked
  · cases checked

/-- An insertion into a crowded table recycles nodes; nothing is removed. -/
def checkGrowth (k : Hashing) (s : State) : Call → Bool
  | .insert _ =>
    if crowded s.table then
      match toSize (growCandidate s.table) >>= fun candidate => computeBucketSize 100 candidate s.table.tuning with
      | .ok n => checkRecycles k s n
      | .error _ => false
    else true
  | .lookup _ => true
  | .remove _ => false

private theorem safe_of_check {op : Call} (checked : checkGrowth k s op = true) : Safe k s op := by
  intro t n rehashes
  cases rehashes with
  | grow absent full grown size possible other =>
    rw [checkGrowth, if_pos full, grown] at checked
    change (match computeBucketSize 100 _ s.table.tuning with
      | .ok n => checkRecycles k s n
      | .error _ => false) = true at checked
    split at checked
    · next n' size' =>
      rw [computeBucketSize_unique size size']
      exact recycles_of_check checked
    · cases checked
  | shrink => cases checked

/-- The insertion of `10` moves the numbers to an array of 17 buckets, where `18` overflows the bucket of `1` on the
node that `12` has left. -/
theorem numbers_run_as_dictionary : ∃ s t, newTable = .ok (some (numbers, s)) ∧ t.table.nBuckets = 17 ∧
    (∃ S : Multiset ℕ, Imitated numbers [(.insert 18, 18), (.insert 1, 1), (.insert 12, 12), (.insert 2, 2),
        (.insert 3, 3), (.insert 4, 4), (.insert 5, 5), (.insert 6, 6), (.insert 8, 8), (.insert 9, 9),
        (.insert 10, 10), (.insert 19, 19), (.lookup 18, 18)] S ∧
      (Equivalence (fun e d => numbers.comparator e d = true) →
        ∀ e x y, x ∈ S → y ∈ S → numbers.comparator e x = true → numbers.comparator e y = true → x = y)) ∧
    NodesApart t ∧
    ∀ op : Call, op.Proper → Safe numbers t op → ∃ fuel,
      (∃ d u, call numbers .upward (fun _ _ => true) fuel t op = .ok (d, u)) ∨
      call numbers .upward (fun _ _ => true) fuel t op = .error .refused ∨
      call numbers .upward (fun _ _ => true) fuel t op = .error .aborted ∧
        ∃ e n, 0 < n ∧ n ≤ numbers.hasher e n := by
  have ran : results (checkGrowth numbers) [.insert 18, .insert 1, .insert 12, .insert 2, .insert 3, .insert 4,
      .insert 5, .insert 6, .insert 8, .insert 9, .insert 10, .insert 19, .lookup 18] =
      some ([18, 1, 12, 2, 3, 4, 5, 6, 8, 9, 10, 19, 18], false, 17) := by
    decide +kernel
  obtain ⟨s, t, made, replayed, granted, size⟩ := newTable_of_results ran
  have run := replay_run (fun s e => Safe numbers s e.1)
    (fun _ _ _ checked => safe_of_check checked) replayed
  exact ⟨s, t, made, size, runs_as_dictionary Heap.wellFormed_empty (Nat.zero_le _) numbers_respects made run
    granted⟩

/-- `18` is inserted and never removed. The rehash for `10` puts it on a node that the obstack of
the table still counts as unused; `19` gets the same node, and `18` is not found. -/
theorem rehash_loses_entry : ∃ s t es, newTable = .ok (some (numbers, s)) ∧ numbers.Respects ∧
    Run (table numbers .upward fun _ _ => true) s es t ∧ t.arrays.refused = false ∧
    ¬ ∃ S : Multiset ℕ, Imitated numbers es S := by
  have ran : results (fun _ _ => true) [.insert 18, .insert 1, .insert 2, .insert 3, .insert 4,
      .insert 5, .insert 6, .insert 8, .insert 9, .insert 10, .insert 19, .lookup 18] =
      some ([18, 1, 2, 3, 4, 5, 6, 8, 9, 10, 19, 0], false, 17) := by
    decide +kernel
  obtain ⟨s, t, made, replayed, granted, -⟩ := newTable_of_results ran
  have run := replay_run (fun _ _ => True) (fun _ _ _ _ => trivial) replayed
  refine ⟨s, t, _, made, numbers_respects, run.of_restrict, granted, ?_⟩
  rintro ⟨S, imitated⟩
  let inserted : List (Dictionary.Op ℕ × Option ℕ) := observed [(.insert 1, 1), (.insert 2, 2),
    (.insert 3, 3), (.insert 4, 4), (.insert 5, 5), (.insert 6, 6), (.insert 8, 8), (.insert 9, 9),
    (.insert 10, 10), (.insert 19, 19)]
  have parts : Run (dictionary numbers.Same) (0 : Multiset ℕ)
      ([(.insert 18, some 18)] ++ (inserted ++ [(.lookup 18, none)])) S := imitated
  obtain ⟨(first : Multiset ℕ), start, rest⟩ := parts.split
  obtain ⟨(last : Multiset ℕ), middle, finish⟩ := rest.split
  have stored : 18 ∈ first := by
    cases start.step_of_single with
    | insert absent => exact Multiset.mem_cons_self ..
    | present stored found => exact stored
  have kept : ∀ e ∈ inserted, ∀ x, e.1 ≠ .remove x := by
    simp [inserted, observed, Call.op]
  have still := Dictionary.stored_of_run middle kept stored
  cases finish.step_of_single with
  | missing absent => exact absent 18 still rfl

end Yalibct.Hash

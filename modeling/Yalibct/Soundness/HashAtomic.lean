import Yalibct.Soundness.HashMap
import Yalibct.Soundness.HashUndo

/-! # A failed rehash is atomic

The undo of a rehash asks for no node: whatever it needs is on the free list. So a rehash that fails
leaves a table that looks as before.
-/

namespace Yalibct.Hash.Failing

open Machine

variable {k : Hashing} {s t : State} {rows : List Row} {free : List ℕ} {requests fuel d e : ℕ} {grants : Grants}

/-! ## The allocator plays no part -/

/-- No request is granted. -/
def refusing : Grants := fun _ => none

private theorem transferHead_of_refusing {requests' : ℕ}
    (run : transferHead k refusing d requests s = .ok (true, requests', t)) :
    requests' = requests ∧ ∀ grants, transferHead k grants d requests s = .ok (true, requests, t) := by
  obtain ⟨slot, hashed, moved⟩ := bind_eq_ok.mp run
  simp only at moved
  split_ifs at moved with taken
  · rcases Decidable.em (s.table.freeEntryList = 0) with none | some
    · rw [allocateEntry, if_neg (fun nonzero => nonzero none)] at moved
      cases moved
    · rw [allocateEntry, if_pos some] at moved
      cases moved
      refine ⟨rfl, fun grants => bind_eq_ok.mpr ⟨slot, hashed, ?_⟩⟩
      simp only [if_pos taken, allocateEntry, if_pos some]
  · cases moved
    refine ⟨rfl, fun grants => bind_eq_ok.mpr ⟨slot, hashed, ?_⟩⟩
    simp only [if_neg taken]

/-- A transfer that is done without a granted request made none. -/
theorem transferEntries_of_refusing {safe : Bool} {source : List HashEntry} {used : ℕ} {t : Transferred}
    (run : transferEntries k refusing fuel safe source used requests s = .ok t) (done : t.done = true) :
    t.requests = requests ∧ ∀ grants, transferEntries k grants fuel safe source used requests s = .ok t := by
  induction source generalizing used requests s t with
  | nil =>
    cases run
    exact ⟨rfl, fun _ => rfl⟩
  | cons bucket rest ih =>
    rw [transferEntries] at run
    by_cases taken : bucket.data ≠ 0
    · rw [if_pos taken] at run
      obtain ⟨u, overflow, run⟩ := bind_eq_ok.mp run
      simp only at run
      cases safe with
      | true =>
        rw [if_pos rfl] at run
        obtain ⟨later, moved, ended⟩ := bind_eq_ok.mp run
        cases ended
        obtain ⟨none, every⟩ := ih moved done
        refine ⟨none, fun grants => ?_⟩
        rw [transferEntries, if_pos taken, overflow]
        change (transferEntries k grants fuel true rest used requests u >>= _) = _
        rw [every grants]
        rfl
      | false =>
        rw [if_neg Bool.false_ne_true] at run
        obtain ⟨⟨moved, requests', v⟩, head, run⟩ := bind_eq_ok.mp run
        cases moved with
        | false =>
          cases run
          cases done
        | true =>
          simp only [if_true] at run
          obtain ⟨later, moved, ended⟩ := bind_eq_ok.mp run
          cases ended
          obtain ⟨rfl, anyHead⟩ := transferHead_of_refusing head
          obtain ⟨none, every⟩ := ih moved done
          refine ⟨none, fun grants => ?_⟩
          rw [transferEntries, if_pos taken, overflow]
          change (transferHead k grants bucket.data requests' u >>= _) = _
          rw [anyHead grants]
          change (transferEntries k grants fuel false rest (ptrSub used 1) requests' v >>= _) = _
          rw [every grants]
          rfl
    · rw [if_neg taken] at run
      obtain ⟨later, moved, ended⟩ := bind_eq_ok.mp run
      cases ended
      obtain ⟨none, every⟩ := ih moved done
      refine ⟨none, fun grants => ?_⟩
      rw [transferEntries, if_neg taken, every grants]
      rfl

/-! ## Lookups -/

private theorem lookupChain_total {nodes : ℕ → HashEntry} {cursor : HashEntry} {ps : List ℕ}
    (chain : Chain (link nodes) cursor.next ps) (rounds : ps.length < fuel) :
    ∃ d, lookupChain k nodes e fuel cursor = .ok d := by
  induction fuel generalizing cursor ps with
  | zero => cases rounds
  | succ fuel ih =>
    rw [lookupChain]
    split_ifs with found last
    · exact ⟨_, rfl⟩
    · exact ⟨_, rfl⟩
    · obtain ⟨qs, rfl, rest⟩ := chain.of_ne_zero last
      exact ih rest (Nat.lt_of_succ_lt_succ rounds)

/-- A lookup finds an entry that matches in the bucket of the probe, if there is one. -/
theorem hashLookup_exact {spare : List ℕ} (tidy : Tidy k s.nodes s.table rows free spare)
    (rounds : (contents s.nodes rows).length < fuel) :
    (s.table.nBuckets ≤ k.hasher e s.table.nBuckets ∧ hashLookup k fuel s e = .error .aborted) ∨
    ∃ d, hashLookup k fuel s e = .ok d ∧ k.hasher e s.table.nBuckets < s.table.nBuckets ∧
      Found k e d ((contents s.nodes rows).filter fun x =>
        k.hasher x s.table.nBuckets = k.hasher e s.table.nBuckets) := by
  by_cases inRange : k.hasher e s.table.nBuckets < s.table.nBuckets
  swap
  · refine .inl ⟨Nat.le_of_not_lt inRange, ?_⟩
    simp only [hashLookup, safeHasher, if_neg inRange]
    rfl
  have found : safeHasher k s.table e = .ok (k.hasher e s.table.nBuckets) := if_pos inRange
  obtain ⟨r, here⟩ := tidy.row inRange
  have linked := tidy.linked r (List.mem_of_getElem? here)
  have inRow : ∀ x, x ∈ r.data s.nodes ↔ x ∈ (contents s.nodes rows).filter fun x =>
      k.hasher x s.table.nBuckets = k.hasher e s.table.nBuckets := by
    intro x
    rw [List.mem_filter, decide_eq_true_eq]
    exact ⟨fun member => ⟨mem_contents here member, tidy.placed _ r here x member⟩, fun stored =>
      tidy.row_of_mem here stored.1 stored.2⟩
  have path : hashLookup k fuel s e =
      if r.head.data = 0 then .ok 0 else lookupChain k s.nodes e fuel r.head := by
    rw [hashLookup, found, ← tidy.head here]
    rfl
  rw [path]
  by_cases empty : r.head.data = 0
  · refine .inr ⟨0, if_pos empty, inRange, .inl ⟨rfl, fun x member => ?_⟩⟩
    have stored := (inRow x).mpr member
    rw [Row.data, if_pos empty] at stored
    cases stored
  have data : r.data s.nodes = r.head.data :: r.chain.map fun p => (s.nodes p).data := if_neg empty
  have short : r.chain.length < fuel := by
    have sub : (r.data s.nodes).length ≤ (contents s.nodes rows).length :=
      (List.sublist_flatten_of_mem (List.mem_map_of_mem (List.mem_of_getElem? here))).length_le
    rw [data, List.length_cons, List.length_map] at sub
    omega
  obtain ⟨d, run⟩ := lookupChain_total (k := k) (e := e) linked.chain short
  rw [if_neg empty]
  refine .inr ⟨d, run, inRange, ?_⟩
  rcases (lookupChain_spec linked.chain).post_of_ok run with ⟨rfl, first, others⟩ | ⟨matched, place⟩
  · refine .inl ⟨rfl, fun x member => ?_⟩
    have stored := (inRow x).mpr member
    rw [data] at stored
    cases List.mem_cons.mp stored with
    | inl head => exact head ▸ first
    | inr node =>
      obtain ⟨p, listed, rfl⟩ := List.mem_map.mp node
      exact others p listed
  · have stored : d ∈ r.data s.nodes := by
      rw [data]
      rcases place with rfl | ⟨q, listed, rfl⟩
      · exact List.mem_cons_self ..
      · exact List.mem_cons_of_mem _ (List.mem_map_of_mem listed)
    refine .inr ⟨?_, (inRow d).mp stored, matched⟩
    rcases (Row.mem_data_of_mem linked).mp stored with ⟨-, nonzero⟩ | ⟨q, listed, rfl⟩
    · exact nonzero
    · exact linked.nonzero q listed

/-- Two tables of one size with the same entries answer alike, where the answer is determined. -/
theorem hashLookup_congr {rows' : List Row} {free' spare spare' : List ℕ}
    (tidy : Tidy k s.nodes s.table rows free spare) (tidy' : Tidy k t.nodes t.table rows' free' spare')
    (listed : (contents t.nodes rows').Perm (contents s.nodes rows))
    (size : t.table.nBuckets = s.table.nBuckets) (rounds : (contents s.nodes rows).length < fuel)
    (unique : ∀ x ∈ contents s.nodes rows, ∀ y ∈ contents s.nodes rows,
      k.matches e x = true → k.matches e y = true → x = y) :
    hashLookup k fuel t e = hashLookup k fuel s e := by
  have before := @hashLookup_exact k s rows free fuel e spare tidy rounds
  have after := @hashLookup_exact k t rows' free' fuel e spare' tidy' (listed.length_eq ▸ rounds)
  rw [size] at after
  rcases before with ⟨out, failed⟩ | ⟨d, run, inRange, found⟩
  · rcases after with ⟨-, failed'⟩ | ⟨-, -, inRange, -⟩
    · exact failed'.trans failed.symm
    · exact absurd inRange (Nat.not_lt_of_le out)
  rcases after with ⟨out, -⟩ | ⟨d', run', -, found'⟩
  · exact absurd inRange (Nat.not_lt_of_le out)
  have same : ∀ x, x ∈ (contents t.nodes rows').filter (fun x =>
      k.hasher x s.table.nBuckets = k.hasher e s.table.nBuckets) ↔ x ∈ (contents s.nodes rows).filter
      fun x => k.hasher x s.table.nBuckets = k.hasher e s.table.nBuckets := fun x =>
    (listed.filter _).mem_iff
  have equal : d' = d := by
    rcases found with ⟨rfl, absent⟩ | ⟨-, stored, matched⟩ <;>
      rcases found' with ⟨rfl, absent'⟩ | ⟨-, stored', matched'⟩
    · rfl
    · rw [absent d' ((same d').mp stored')] at matched'
      cases matched'
    · rw [absent' d ((same d).mpr stored)] at matched
      cases matched
    · exact unique d' (List.mem_filter.mp ((same d').mp stored')).1 d (List.mem_filter.mp stored).1 matched'
        matched
  rw [run, run', equal]

/-! ## The undo -/

/-- The table looks as before: same entries, same counts, same answers. -/
structure Unchanged (k : Hashing) (fuel : ℕ) (s t : State) (rows : List Row) : Prop where
  entries : ∃ rows' free', Tidy k t.nodes t.table rows' free' [] ∧
    (contents t.nodes rows').Perm (contents s.nodes rows)
  nBuckets : t.table.nBuckets = s.table.nBuckets
  nBucketsUsed : t.table.nBucketsUsed = s.table.nBucketsUsed
  nEntries : t.table.nEntries = s.table.nEntries
  lookup : ∀ e, (∀ x ∈ contents s.nodes rows, ∀ y ∈ contents s.nodes rows,
    k.matches e x = true → k.matches e y = true → x = y) → hashLookup k fuel t e = hashLookup k fuel s e

/-- The first transfer of a rehash, to an array of new buckets. -/
def firstTransfer (k : Hashing) (grants : Grants) (fuel : ℕ) (s : State) (newSize : ℕ) :
    Except Fault Transferred :=
  transferEntries k grants fuel false s.table.bucket s.table.nBucketsUsed 0
    { s with
      arrays := ⟨s.arrays.calls + 1, s.arrays.refused⟩
      table := newTable s.table (List.replicate newSize ⟨0, 0⟩) }

private theorem heads_bucket {spare : List ℕ} (tidy : Tidy k s.nodes s.table rows free spare) :
    s.table.bucket.countP (fun b => b.data ≠ 0) = heads rows := by
  rw [tidy.bucket, List.countP_map, heads]
  rfl

/-- The state that the undo starts from. -/
def exchanged (table : HashTable) (t : Transferred) : State :=
  { t.state with table := { table with
    bucket := t.bucket
    nBucketsUsed := t.nBucketsUsed
    freeEntryList := t.state.table.freeEntryList } }

private theorem firstTransfer_interrupted {newSize : ℕ} {t : Transferred}
    (tidy : Tidy k s.nodes s.table rows free [])
    (counted : s.table.nBucketsUsed = s.table.bucket.countP fun b => b.data ≠ 0)
    (fresh : Fresh grants 0 (rows.flatMap Row.chain ++ free))
    (run : firstTransfer k grants fuel s newSize = .ok t) :
    ∃ back all entries used room,
      Under k all (exchanged s.table t) back entries used room ∧
      t.state.table.bucket = back.map Row.head ∧ t.state.table.nBucketsUsed = heads back ∧
      (contents t.state.nodes back ++ entries).Perm (contents s.nodes rows) ∧
      (rows.flatMap Row.chain ++ free).length ≤ all.length ∧
      (exchanged s.table t).table.nBuckets = s.table.nBuckets := by
  rw [heads_bucket tidy] at counted
  have distinct := tidy.distinct
  rw [List.nil_append] at distinct
  let start : State := { s with
    arrays := ⟨s.arrays.calls + 1, s.arrays.refused⟩
    table := newTable s.table (List.replicate newSize ⟨0, 0⟩) }
  have new : Tidy k start.nodes start.table (emptyRows newSize) free (rows.flatMap Row.chain) :=
    Tidy.fresh newSize rfl tidy.freed distinct
  have none : heads (emptyRows newSize) = 0 := by
    rw [heads, emptyRows, List.countP_replicate]
    rfl
  have under := Under.of_tidy new tidy.linked none.symm
  have first := transferEntries_spec fuel false 0 under
    (by rwa [chain_emptyRows, List.append_nil] : Fresh grants 0 _)
  rw [Nat.zero_add, ← counted, ← tidy.bucket] at first
  obtain ⟨left, all', entries', used', room', moved⟩ := first.post_of_ok run
  obtain ⟨back, free', tidy', listed, places, tracked, -⟩ := moved.under.filled
  have size : (exchanged s.table t).table.nBuckets = s.table.nBuckets := by
    change t.bucket.length = _
    rw [moved.bucket, List.length_map, tidy.nBuckets, moved.parts.length_eq, List.length_map]
  have distinct' := tidy'.distinct
  have returned : Tidy k (exchanged s.table t).nodes (exchanged s.table t).table left free'
      (back.flatMap Row.chain) := by
    refine ⟨⟨moved.bucket, moved.under.linked, tidy'.freed, ?_⟩, fun i x here d member => ?_⟩
    · exact (List.perm_append_comm.append_right free').nodup_iff.mp distinct'
    · rw [size]
      obtain ⟨bound, rfl⟩ := List.getElem?_eq_some_iff.mp here
      have bound' : i < rows.length := by
        have lengths := moved.parts.length_eq
        rw [List.length_map] at lengths
        omega
      have inRow := moved.parts.get bound (by rwa [List.length_map]) d member
      exact tidy.placed i rows[i] (List.getElem?_eq_getElem bound') d (by simpa using inRow)
  have counts : t.state.table.nBucketsUsed = heads back := by
    rw [moved.under.count, ← length_usedRows]
    refine ((List.perm_ext_iff_of_nodup moved.under.nodup (nodup_usedRows back)).mpr fun i => ?_).length_eq
    rw [moved.under.slots, slots_of_tidy tidy']
    simp only [listed.mem_iff]
  refine ⟨back, _, _, _, _, Under.of_tidy returned tidy'.linked ?_, tidy'.bucket, counts, ?_, ?_, size⟩
  · exact moved.counted.trans (Nat.zero_add _)
  · have total := moved.listed
    rw [contents_emptyRows, List.append_nil] at total
    exact (List.perm_append_comm.trans (listed.append_left _)).trans total
  · have grown := moved.grown
    rw [chain_emptyRows, List.append_nil] at grown
    refine Nat.le_trans grown (Nat.le_of_eq ?_)
    exact ((List.perm_append_comm.append_right free').trans places).length_eq.symm

/-- Moving entries back where they were cannot fail. -/
theorem ok_of_placed {α : Type} {bound n : ℕ} {entries : List ℕ} {post : α → Prop} {x : Except Fault α}
    (outcome : Outcome (Halts k fuel bound n entries) post x) (rounds : bound < fuel)
    (placed : ∀ d ∈ entries, k.hasher d n < n) : ∃ y, x = .ok y ∧ post y := by
  cases x with
  | ok y => exact ⟨y, rfl, outcome⟩
  | error fault =>
    cases fault with
    | unfinished => exact absurd rounds (Nat.not_lt_of_le outcome)
    | aborted =>
      obtain ⟨d, member, out⟩ := outcome
      exact absurd (placed d member) (Nat.not_lt_of_le out)
    | refused | outOfBounds | invalidFree | undefined => exact outcome.elim

private theorem placed_lt {spare : List ℕ} (tidy : Tidy k s.nodes s.table rows free spare) :
    ∀ d ∈ contents s.nodes rows, k.hasher d s.table.nBuckets < s.table.nBuckets := by
  intro d member
  obtain ⟨r, listed, inRow⟩ := List.mem_flatMap.mp member
  obtain ⟨i, bound, rfl⟩ := List.getElem_of_mem listed
  rw [tidy.placed i _ (List.getElem?_eq_getElem bound) d inRow, tidy.nBuckets]
  exact bound

/-- The undo never makes a request, and restores the table. -/
theorem undo_spec {newSize : ℕ} {t : Transferred} (tidy : Tidy k s.nodes s.table rows free [])
    (counted : s.table.nBucketsUsed = s.table.bucket.countP fun b => b.data ≠ 0)
    (fresh : Fresh grants 0 (rows.flatMap Row.chain ++ free))
    (rounds : (contents s.nodes rows).length < fuel)
    (run : firstTransfer k grants fuel s newSize = .ok t) :
    ∃ u, (∀ grants', undo k grants' fuel s.table t = .ok u) ∧ Unchanged k fuel s u rows := by
  obtain ⟨back, all, entries, used, room, under, source, count, listed, grown, size⟩ :=
    firstTransfer_interrupted tidy counted fresh run
  rw [heads_bucket tidy] at counted
  have original := @Under.of_tidy k s [] rows free tidy nofun counted
  have none : ∀ requests nodes, Fresh refusing requests nodes := fun _ _ _ _ _ granted => by cases granted
  have placed : ∀ {n : ℕ} {ds : List ℕ}, n = s.table.nBuckets → (∀ d ∈ ds, d ∈ contents s.nodes rows) →
      ∀ d ∈ ds, k.hasher d n < n := by
    rintro n ds rfl stored d member
    exact placed_lt tidy d (stored d member)
  have short : chained back < fuel := by
    have total := listed.length_eq
    have parts := length_contents under.linked
    rw [List.length_append] at total
    change (contents t.state.nodes back).length = _ at parts
    omega
  -- The overflow of the new table is moved back.
  obtain ⟨first, run₁, left₁, all₁, entries₁, used₁, room₁, moved₁⟩ :=
    ok_of_placed (transferEntries_spec fuel true 0 under (none t.requests all)) short
      (placed size fun d member => listed.mem_iff.mp (List.mem_append_left _ member))
  obtain ⟨done₁, bare₁⟩ := moved₁.safely rfl
  obtain ⟨-, every₁⟩ := transferEntries_of_refusing run₁ done₁
  have listed₁ := moved₁.listed.trans listed
  have size₁ : first.state.table.nBuckets = s.table.nBuckets := moved₁.quiet.size.trans size
  have chains₁ : left₁.flatMap Row.chain = [] := List.flatMap_eq_nil_iff.mpr bare₁
  have short₁ : chained left₁ < fuel := by
    rw [chained, chains₁]
    exact Nat.zero_lt_of_lt rounds
  -- Then the heads are.
  obtain ⟨second, run₂, left₂, all₂, entries₂, used₂, room₂, moved₂⟩ :=
    ok_of_placed (transferEntries_spec fuel false 0 moved₁.under (none first.requests all₁)) short₁
      (placed size₁ fun d member => listed₁.mem_iff.mp (List.mem_append_left _ member))
  have listed₂ := moved₂.listed.trans listed₁
  have size₂ : second.state.table.nBuckets = s.table.nBuckets := moved₂.quiet.size.trans size₁
  have chains₂ : left₂.flatMap Row.chain = [] :=
    List.eq_nil_iff_forall_not_mem.mpr fun p member => by
      have old := moved₂.nodes p member
      rw [chains₁] at old
      cases old
  have done₂ : second.done = true := by
    by_contra undone
    obtain ⟨rfl, d, member, taken⟩ := moved₂.stuck (Bool.eq_false_iff.mpr undone)
    refine original.suffices moved₂.under chains₂ listed₂ ?_ size₂.symm member ?_
    · exact Nat.le_trans grown (Nat.le_trans moved₁.grown moved₂.grown)
    · rw [size₂, ← size₁]
      exact taken
  obtain ⟨-, every₂⟩ := transferEntries_of_refusing run₂ done₂
  have emptied := moved₂.emptied rfl done₂
  rw [emptied, List.nil_append] at listed₂
  obtain ⟨rows', free', tidy', stored, -⟩ := moved₂.under.filled
  rw [chains₂] at tidy'
  have same := stored.trans listed₂
  refine ⟨second.state, fun grants' => ?_, ?_, size₂, ?_, ?_, fun e unique => ?_⟩
  · have again₁ : transferEntries k grants' fuel true t.state.table.bucket t.state.table.nBucketsUsed t.requests
        (exchanged s.table t) = .ok first := by
      rw [source, count, ← Nat.zero_add (heads back)]
      exact every₁ grants'
    have again₂ : transferEntries k grants' fuel false first.bucket first.nBucketsUsed first.requests
        first.state = .ok second := by
      rw [moved₁.bucket, moved₁.counted]
      exact every₂ grants'
    refine bind_eq_ok.mpr ⟨first, again₁, ?_⟩
    rw [if_neg (by rw [done₁]; exact Bool.noConfusion)]
    refine bind_eq_ok.mpr ⟨second, again₂, ?_⟩
    rw [if_neg (by rw [done₂]; exact Bool.noConfusion)]
  · exact ⟨rows', free', tidy', same⟩
  · rw [moved₂.under.count, original.count]
    exact moved₂.under.length_used original listed₂ size₂
  · exact moved₂.quiet.nEntries.trans moved₁.quiet.nEntries
  · exact hashLookup_congr tidy tidy' same size₂ rounds unique

/-- A rehash that finds no array or no node returns false, and the table looks as before. What the undo
does is the same for every allocator, so it lives on the free list alone. -/
theorem failed_rehash_changes_nothing {c : Calloc} {candidate newSize : ℕ}
    (tidy : Tidy k s.nodes s.table rows free [])
    (counted : s.table.nBucketsUsed = s.table.bucket.countP fun b => b.data ≠ 0)
    (fresh : Fresh grants 0 (rows.flatMap Row.chain ++ free))
    (rounds : (contents s.nodes rows).length < fuel)
    (size : computeBucketSize fuel candidate s.table.tuning = .ok newSize)
    (fails : newSize = 0 ∨ newSize ≠ s.table.nBuckets ∧ (c s.arrays.calls newSize = false ∨
      ∃ t, firstTransfer k grants fuel s newSize = .ok t ∧ t.done = false)) :
    (∃ u, hashRehash k grants c fuel s candidate = .ok (false, u) ∧ Unchanged k fuel s u rows) ∧
    ∀ t, firstTransfer k grants fuel s newSize = .ok t → t.done = false →
      ∃ u, ∀ grants', undo k grants' fuel s.table t = .ok u := by
  have undone := fun t (run : firstTransfer k grants fuel s newSize = .ok t) =>
    undo_spec tidy counted fresh rounds run
  have untouched : ∀ arrays, Unchanged k fuel s { s with arrays := arrays } rows := fun arrays =>
    ⟨⟨rows, free, tidy, .refl _⟩, rfl, rfl, rfl, fun _ _ => rfl⟩
  constructor
  swap
  · intro t run _
    obtain ⟨u, every, -⟩ := undone t run
    exact ⟨u, every⟩
  by_cases none : newSize = 0
  · refine ⟨s.refuse, bind_eq_ok.mpr ⟨newSize, size, ?_⟩, untouched _⟩
    rw [if_pos none]
  obtain ⟨other, fails⟩ := fails.resolve_left none
  by_cases granted : c s.arrays.calls newSize = true
  · obtain ⟨t, run, failed⟩ := fails.resolve_left (fun refused => by rw [granted] at refused; cases refused)
    obtain ⟨u, every, unchanged⟩ := undone t run
    refine ⟨u, bind_eq_ok.mpr ⟨newSize, size, ?_⟩, unchanged⟩
    rw [if_neg none, if_neg other, callocBuckets, if_pos granted]
    refine bind_eq_ok.mpr ⟨t, run, ?_⟩
    rw [if_neg (by rw [failed]; exact Bool.false_ne_true)]
    exact bind_eq_ok.mpr ⟨u, every grants, rfl⟩
  · refine ⟨{ s with arrays := ⟨s.arrays.calls + 1, true⟩ }, bind_eq_ok.mpr ⟨newSize, size, ?_⟩,
      untouched _⟩
    rw [if_neg none, if_neg other, callocBuckets, if_neg granted]

/-- Arrays of eleven buckets use one of them only. -/
def crowding : Hashing := ⟨fun d n => if n = 11 then 0 else d % n, fun x y => x == y⟩

/-- A table of thirteen buckets: `14` overflows the bucket of `1`, and `2` has its own. -/
def threeEntries : State where
  heap := .empty
  nodes := Function.update (fun _ => ⟨0, 0⟩) 100 ⟨14, 0⟩
  arrays := .none
  table := {
    bucket := ⟨0, 0⟩ :: ⟨1, 100⟩ :: ⟨2, 0⟩ :: List.replicate 10 ⟨0, 0⟩
    nBucketsUsed := 2
    nEntries := 3
    tuning := { defaultTuning with isNBuckets := true }
    freeEntryList := 0
    entryStack := ⟨0, 0, 0, 0, 0, 0, false⟩ }

def threeRows : List Row :=
  ⟨⟨0, 0⟩, []⟩ :: ⟨⟨1, 100⟩, [100]⟩ :: ⟨⟨2, 0⟩, []⟩ :: List.replicate 10 ⟨⟨0, 0⟩, []⟩

private theorem threeRows_tidy : Tidy crowding threeEntries.nodes threeEntries.table threeRows [] [] := by
  let table : HashTable := { threeEntries.table with bucket := List.replicate 13 ⟨0, 0⟩ }
  have empty : Tidy crowding (fun _ => ⟨0, 0⟩) table (emptyRows 13) [] [100] :=
    Tidy.fresh 13 rfl rfl (List.nodup_singleton _)
  have two := (empty.fill (i := 2) (d := 2) rfl rfl (by decide) rfl).1
  have one := (two.fill (i := 1) (d := 1) rfl rfl (by decide) rfl).1
  exact (one.push (i := 1) (d := 14) rfl (by decide) (by decide) (by decide) (by decide)).1

/-- The overflow has moved when a head finds no node. -/
theorem crowding_changes_nothing :
    (∃ u, hashRehash crowding refusing (fun _ _ => true) 100 threeEntries 0 = .ok (false, u) ∧
      Unchanged crowding 100 threeEntries u threeRows) ∧
    ∀ t, firstTransfer crowding refusing 100 threeEntries 11 = .ok t → t.done = false →
      ∃ u, ∀ grants', undo crowding grants' 100 threeEntries.table t = .ok u := by
  have fresh : Fresh refusing 0 (threeRows.flatMap Row.chain ++ []) := fun _ _ _ granted => by cases granted
  have size : computeBucketSize 100 0 threeEntries.table.tuning = .ok 11 := by
    decide +kernel
  have other : 11 ≠ threeEntries.table.nBuckets := by decide
  exact failed_rehash_changes_nothing threeRows_tidy rfl fresh (by decide) size
    (.inr ⟨other, .inr ⟨_, rfl, rfl⟩⟩)

/-- All entries from 10 on match each other, but the hasher tells them apart. -/
def lumping : Hashing := ⟨fun d n => d % n, fun x y => x == y || (10 ≤ x && 10 ≤ y)⟩

/-- Thirteen buckets that a larger table was rehashed to: `14` and `27` overflow the bucket of `1`. -/
def sixEntries : State where
  heap := .empty
  nodes := Function.update (Function.update (fun _ => ⟨0, 0⟩) 100 ⟨27, 0⟩) 101 ⟨14, 100⟩
  arrays := .none
  table := {
    bucket := [⟨0, 0⟩, ⟨1, 101⟩, ⟨0, 0⟩, ⟨3, 0⟩, ⟨0, 0⟩, ⟨5, 0⟩, ⟨0, 0⟩, ⟨0, 0⟩, ⟨0, 0⟩, ⟨0, 0⟩, ⟨0, 0⟩, ⟨0, 0⟩, ⟨12, 0⟩]
    nBucketsUsed := 4
    nEntries := 6
    tuning := { defaultTuning with isNBuckets := true }
    freeEntryList := 0
    entryStack := ⟨0, 0, 0, 0, 0, 0, false⟩ }

/-- In eleven buckets `12` finds no node, and the undo puts `27` before `14`. -/
theorem undo_reorders :
    (∃ rows, Tidy lumping sixEntries.nodes sixEntries.table rows [] []) ∧
    (sixEntries.table.nBucketsUsed = sixEntries.table.bucket.countP fun b => b.data ≠ 0) ∧
    ∃ u, hashRehash lumping refusing (fun _ _ => true) 100 sixEntries 11 = .ok (false, u) ∧
      hashLookup lumping 100 sixEntries 40 = .ok 14 ∧ hashLookup lumping 100 u 40 = .ok 27 := by
  refine ⟨?_, rfl, ?_⟩
  · let table : HashTable := { sixEntries.table with bucket := List.replicate 13 ⟨0, 0⟩ }
    have empty : Tidy lumping (fun _ => ⟨0, 0⟩) table (emptyRows 13) [] [100, 101] :=
      Tidy.fresh 13 rfl rfl (by decide)
    have one := (empty.fill (i := 1) (d := 1) rfl rfl (by decide) rfl).1
    have three := (one.fill (i := 3) (d := 3) rfl rfl (by decide) rfl).1
    have five := (three.fill (i := 5) (d := 5) rfl rfl (by decide) rfl).1
    have twelve := (five.fill (i := 12) (d := 12) rfl rfl (by decide) rfl).1
    have last := (twelve.push (i := 1) (d := 27) rfl (by decide) (by decide) (by decide) (by decide)).1
    exact ⟨_, (last.push (i := 1) (d := 14) rfl (by decide) (by decide) (by decide) (by decide)).1⟩
  · have size : computeBucketSize 100 11 sixEntries.table.tuning = .ok 11 := by
      decide +kernel
    refine ⟨_, bind_eq_ok.mpr ⟨11, size, rfl⟩, ?_, ?_⟩
    · rfl
    · rfl

end Yalibct.Hash.Failing

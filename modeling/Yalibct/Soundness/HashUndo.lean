import Mathlib.Data.List.Nodup
import Yalibct.Model.HashUndo
import Yalibct.Soundness.HashRehash

/-! # A failed rehash changes nothing

When a transfer finds no node for a head, the entries that were moved are moved back, the overflow
first. That frees the nodes that the heads need: in the old array no more entries are overflow than
before.
-/

namespace Yalibct.Hash.Failing

open Machine

variable {k : Hashing} {s t : State} {rows source : List Row} {all entries used ds : List ℕ}
variable {room requests fuel d p : ℕ} {r : Row} {grants : Grants}

/-! ## Moving the overflow -/

/-- The buckets in use and the free nodes grow together, and the buckets are those of the entries. -/
theorem moveOverflow_spec (slot : ℕ → ℕ) (ds : List ℕ) (used : List ℕ) (room : ℕ) :
    let moved := moveOverflow slot ds used room
    (used.Nodup → moved.1.Nodup) ∧ (∀ i, i ∈ moved.1 ↔ i ∈ used ∨ ∃ d ∈ ds, slot d = i) ∧
      moved.2 + used.length = room + moved.1.length := by
  induction ds generalizing used room with
  | nil => simp [moveOverflow]
  | cons d ds ih =>
    simp only [moveOverflow]
    split_ifs with taken
    · obtain ⟨nodup, slots, grown⟩ := ih used room
      refine ⟨nodup, fun i => (slots i).trans ?_, grown⟩
      rw [List.exists_mem_cons_iff]
      exact ⟨fun found => found.elim .inl fun later => .inr (.inr later), fun found =>
        found.elim .inl fun here => here.elim (fun equal => .inl (equal ▸ taken)) .inr⟩
    · obtain ⟨nodup, slots, grown⟩ := ih (slot d :: used) (room + 1)
      refine ⟨fun distinct => nodup (List.nodup_cons.mpr ⟨taken, distinct⟩), fun i =>
        (slots i).trans ?_, ?_⟩
      · rw [List.exists_mem_cons_iff, List.mem_cons, eq_comm, or_assoc, or_left_comm]
      · rw [List.length_cons] at grown
        omega

/-- The part of a table that transfers do not count. -/
theorem transferOverflow_nEntries {cursor : ℕ} (moved : transferOverflow k fuel cursor s = .ok t) :
    t.table.nEntries = s.table.nEntries := by
  induction fuel generalizing cursor s with
  | zero => cases moved
  | succ fuel ih =>
    rw [transferOverflow] at moved
    split_ifs at moved with last
    · cases moved
      rfl
    · obtain ⟨slot, _, moved⟩ := bind_eq_ok.mp moved
      simp only at moved
      split_ifs at moved
      · exact (ih moved).trans rfl
      · exact (ih moved).trans rfl

/-! ## A transfer under way -/

/-- The rows that are still to be moved, next to the array that is being filled. -/
structure Under (k : Hashing) (all : List ℕ) (s : State) (source : List Row) (entries used : List ℕ)
    (room : ℕ) : Prop where
  filled : Filled k all s (source.flatMap Row.chain) entries used room
  linked : ∀ r ∈ source, r.Linked s.nodes
  count : s.table.nBucketsUsed = used.length
  nodup : used.Nodup
  slots : ∀ i, i ∈ used ↔ ∃ d ∈ entries, k.hasher d s.table.nBuckets = i
  balance : all.length + used.length = (source.flatMap Row.chain).length + entries.length + room

/-- What the transfers leave alone, `n_entries` included. -/
structure Quiet (s t : State) (spare : List ℕ) : Prop extends Still s t spare where
  nEntries : t.table.nEntries = s.table.nEntries

theorem Quiet.trans {u : State} {spare rest : List ℕ} (first : Quiet s t spare) (second : Quiet t u rest)
    (subset : ∀ q ∈ rest, q ∈ spare) : Quiet s u rest :=
  ⟨first.toStill.trans second.toStill subset, second.nEntries.trans first.nEntries⟩

theorem Quiet.refl (s : State) (spare : List ℕ) : Quiet s s spare :=
  ⟨⟨⟨rfl, rfl, rfl, rfl, rfl⟩, fun _ _ => rfl⟩, rfl⟩

/-- The overflow of the first row is moved. -/
theorem Under.overflow (under : Under k all s (r :: source) entries used room) :
    let overflow := r.chain.map fun p => (s.nodes p).data
    Outcome (Halts k fuel r.chain.length s.table.nBuckets overflow)
      (fun t => ∃ used' room', Under k all t source (overflow ++ entries) used' room' ∧
        Quiet s t (source.flatMap Row.chain))
      (transferOverflow k fuel r.head.next s) := by
  have filled := under.filled
  have here := under.linked r (List.mem_cons_self ..)
  rw [List.flatMap_cons] at filled
  have moved := @transferOverflow_spec k _ _ _ _ _ fuel _ _ _ filled here.chain here.nonzero
  obtain ⟨nodup, slots, grown⟩ := moveOverflow_spec (fun d => k.hasher d s.table.nBuckets)
    (r.chain.map fun p => (s.nodes p).data) used room
  have nEntries : ∀ t, transferOverflow k fuel r.head.next s = .ok t →
      t.table.nEntries = s.table.nEntries := fun _ => transferOverflow_nEntries
  cases run : transferOverflow k fuel r.head.next s with
  | error fault =>
    rw [run] at moved
    exact moved
  | ok t =>
    rw [run] at moved
    obtain ⟨filled', still, count⟩ := moved
    refine ⟨_, _, ⟨filled', ?_, ?_, nodup under.nodup, ?_, ?_⟩, still, nEntries t run⟩
    · intro x member
      refine (under.linked x (List.mem_cons_of_mem _ member)).frame fun q inChain => ?_
      exact still.nodes q (List.mem_flatMap.mpr ⟨x, member, inChain⟩)
    · have before := under.count
      omega
    · intro i
      rw [slots, under.slots, still.size]
      simp only [List.mem_append, or_and_right, exists_or]
      exact or_comm
    · have before := under.balance
      simp only [List.flatMap_cons, List.length_append, List.length_map] at before ⊢
      omega

/-! ## Moving a head -/

/-- The nodes that later requests may be granted are new. -/
def Fresh (grants : Grants) (requests : ℕ) (all : List ℕ) : Prop :=
  ∀ i p, requests ≤ i → grants i = some p →
    p ≠ 0 ∧ p ∉ all ∧ ∀ j, requests ≤ j → grants j = some p → j = i

theorem Fresh.next (fresh : Fresh grants requests all) : Fresh grants (requests + 1) all :=
  fun i p later granted =>
    let ⟨notNull, new, once⟩ := fresh i p (by omega) granted
    ⟨notNull, new, fun j after => once j (by omega)⟩

theorem Fresh.granted (fresh : Fresh grants requests all) (granted : grants requests = some p) :
    Fresh grants (requests + 1) (p :: all) := by
  intro i q later asked
  obtain ⟨nonzero, new, once⟩ := fresh.next i q later asked
  refine ⟨nonzero, ?_, once⟩
  rw [List.mem_cons, not_or]
  refine ⟨?_, new⟩
  rintro rfl
  have same := (fresh i q (by omega) asked).2.2 requests (Nat.le_refl _) granted
  omega

/-- A granted node joins the nodes that are given. -/
theorem Under.grant (under : Under k all s source entries used 0) (new : p ∉ all) :
    Filled k (p :: all) s (p :: source.flatMap Row.chain) entries used 0 := by
  obtain ⟨rows, free, tidy, listed, places, tracked, length⟩ := under.filled
  refine ⟨rows, free, ⟨⟨tidy.bucket, tidy.linked, tidy.freed, ?_⟩, tidy.placed⟩, listed,
    places.cons p, tracked, length⟩
  exact List.nodup_cons.mpr ⟨fun member => new (places.subset member), tidy.distinct⟩

/-- What the moving of a head leaves: it is moved, to the free list's node or a granted one if it must,
or there is no free node and nothing has changed. -/
def HeadMoved (k : Hashing) (grants : Grants) (all : List ℕ) (s : State) (source : List Row)
    (entries used : List ℕ) (room d : ℕ) : Bool × ℕ × State → Prop
  | (true, requests', t) => ∃ all' used' room', Under k all' t source (d :: entries) used' room' ∧
      Quiet s t (source.flatMap Row.chain) ∧ all.length ≤ all'.length ∧ Fresh grants requests' all'
  | (false, requests', t) => t = s ∧ Fresh grants requests' all ∧ room = 0 ∧
      k.hasher d s.table.nBuckets ∈ used

/-- A node that joins the overflow of a bucket in use. -/
theorem Under.push {all' : List ℕ} (under : Under k all s source entries used room)
    (taken : k.hasher d s.table.nBuckets ∈ used) (free : ℕ) {room' : ℕ}
    (balance : all'.length + used.length = (source.flatMap Row.chain).length + (entries.length + 1) + room')
    (filled : Filled k all' { s with table := { s.table with freeEntryList := free } }
      (p :: source.flatMap Row.chain) entries used room')
    (nonzero : p ≠ 0) (entry : d ≠ 0) (inRange : k.hasher d s.table.nBuckets < s.table.nBuckets) :
    let slot := k.hasher d s.table.nBuckets
    let s' := { s with table := { s.table with freeEntryList := free } }
    let t := (s'.setNode p ⟨d, (s.table.head slot).next⟩).setHead slot { s.table.head slot with next := p }
    Under k all' t source (d :: entries) used room' ∧ Quiet s t (source.flatMap Row.chain) := by
  intro slot s' t
  obtain ⟨filled', still⟩ : Filled k all' t (source.flatMap Row.chain) (d :: entries) used room' ∧
    Still s' t (source.flatMap Row.chain) := filled.push nonzero entry inRange taken
  have size : t.table.nBuckets = s.table.nBuckets := still.size
  refine ⟨⟨filled', fun x member => ?_, under.count, under.nodup, fun i => ?_, balance⟩,
    ⟨⟨⟨still.heap, still.arrays, still.stack, still.tuning, still.size⟩, still.nodes⟩, rfl⟩⟩
  · refine (under.linked x member).frame fun q inChain => ?_
    exact still.nodes q (List.mem_flatMap.mpr ⟨x, member, inChain⟩)
  · rw [List.exists_mem_cons_iff, under.slots, size]
    exact ⟨.inr, fun found => found.elim (fun here => (under.slots i).mp (here ▸ taken)) id⟩

/-- An entry that becomes the head of an empty bucket. -/
theorem Under.fill (under : Under k all s source entries used room)
    (notTaken : k.hasher d s.table.nBuckets ∉ used) (entry : d ≠ 0)
    (inRange : k.hasher d s.table.nBuckets < s.table.nBuckets) :
    let slot := k.hasher d s.table.nBuckets
    let t := { s with table := { s.table.setHead slot { s.table.head slot with data := d } with
      nBucketsUsed := s.table.nBucketsUsed + 1 } }
    Under k all t source (d :: entries) (slot :: used) room ∧ Quiet s t (source.flatMap Row.chain) := by
  intro slot t
  obtain ⟨filled', still⟩ : Filled k all t (source.flatMap Row.chain) (d :: entries) (slot :: used) room ∧
    Still s t (source.flatMap Row.chain) :=
    under.filled.fill entry inRange notTaken (s.table.nBucketsUsed + 1)
  have size : t.table.nBuckets = s.table.nBuckets := still.size
  have balance := under.balance
  refine ⟨⟨filled', fun x member => ?_, congrArg (· + 1) under.count,
    List.nodup_cons.mpr ⟨notTaken, under.nodup⟩, fun i => ?_, ?_⟩, ⟨still, rfl⟩⟩
  · refine (under.linked x member).frame fun q inChain => ?_
    exact still.nodes q (List.mem_flatMap.mpr ⟨x, member, inChain⟩)
  · rw [List.exists_mem_cons_iff, List.mem_cons, under.slots, size, eq_comm]
  · simp only [List.length_cons]
    omega

theorem Under.head (under : Under k all s source entries used room) (fresh : Fresh grants requests all)
    (entry : d ≠ 0) (fuel bound : ℕ) :
    Outcome (Halts k fuel bound s.table.nBuckets [d]) (HeadMoved k grants all s source entries used room d)
      (transferHead k grants d requests s) := by
  refine (safeHasher_halts (List.mem_singleton.mpr rfl)).bind ?_
  rintro slot ⟨rfl, inRange⟩
  have filled := under.filled
  have inUse := filled.head_ne_zero inRange
  have balance := under.balance
  by_cases taken : k.hasher d s.table.nBuckets ∈ used
  · rw [if_pos (inUse.mpr taken)]
    cases room with
    | succ room =>
      obtain ⟨rows, free, tidy, listed, places, tracked, length⟩ := filled
      obtain ⟨p, free, rfl⟩ := List.exists_cons_of_length_eq_add_one length
      obtain ⟨first, nonzero, rest⟩ := tidy.freed
      have recycled := (allocateEntry_recycle .upward tidy).2.2
      have middle : (p :: source.flatMap Row.chain ++ rows.flatMap Row.chain ++ free).Perm
          (source.flatMap Row.chain ++ rows.flatMap Row.chain ++ p :: free) := List.perm_middle.symm
      have run : allocateEntry grants requests s = (some p, requests,
          { s with table := { s.table with freeEntryList := (s.nodes p).next } }) := by
        rw [allocateEntry, first, if_pos nonzero]
      rw [run]
      have balance' : all.length + used.length =
          (source.flatMap Row.chain).length + (entries.length + 1) + room := by omega
      obtain ⟨under', quiet⟩ := under.push taken (s.nodes p).next balance'
        ⟨rows, free, recycled, listed, middle.trans places, tracked, Nat.succ.inj length⟩ nonzero entry inRange
      exact ⟨all, used, room, under', quiet, Nat.le_refl _, fresh⟩
    | zero =>
      obtain ⟨rows, free, tidy, listed, places, tracked, length⟩ := filled
      have none : s.table.freeEntryList = 0 := by
        have freed := tidy.freed
        rwa [List.eq_nil_of_length_eq_zero length] at freed
      have run : allocateEntry grants requests s = (grants requests, requests + 1, s) := by
        rw [allocateEntry, if_neg (fun nonzero => nonzero none)]
      rw [run]
      cases granted : grants requests with
      | none => exact ⟨rfl, fresh.next, rfl, taken⟩
      | some p =>
        obtain ⟨nonzero, new, -⟩ := fresh requests p (Nat.le_refl _) granted
        have balance' : (p :: all).length + used.length =
            (source.flatMap Row.chain).length + (entries.length + 1) + 0 := by
          rw [List.length_cons]
          omega
        obtain ⟨under', quiet⟩ := under.push taken s.table.freeEntryList balance'
          (under.grant new) nonzero entry inRange
        exact ⟨p :: all, used, 0, under', quiet, Nat.le_succ _, fresh.granted granted⟩
  · rw [if_neg (fun nonzero => taken (inUse.mp nonzero))]
    obtain ⟨under', quiet⟩ := under.fill taken entry inRange
    exact ⟨all, _, room, under', quiet, Nat.le_refl _, fresh⟩

/-! ## A whole transfer -/

/-- The buckets in use. -/
def heads (rows : List Row) : ℕ := rows.countP fun r => r.head.data ≠ 0

private theorem heads_cons (r : Row) (rows : List Row) :
    heads (r :: rows) = heads rows + if r.head.data = 0 then 0 else 1 := by
  rw [heads, List.countP_cons, heads]
  rcases Decidable.em (r.head.data = 0) with empty | taken
  · simp only [empty, ne_eq, not_true_eq_false, decide_false, Bool.false_eq_true, if_false, if_true]
  · simp only [taken, ne_eq, not_false_eq_true, decide_true, if_true, if_false]

/-- A row without overflow. -/
structure Bare (x : Row) : Prop where
  chain : x.chain = []
  next : x.head.next = 0

theorem Bare.data (bare : Bare r) (nodes : ℕ → HashEntry) :
    r.data nodes = if r.head.data = 0 then [] else [r.head.data] := by
  rw [Row.data, bare.chain, List.map_nil]

theorem Under.cons (under : Under k all s source entries used room) (bare : Bare r) :
    Under k all s (r :: source) entries used room := by
  have chains : (r :: source).flatMap Row.chain = source.flatMap Row.chain := by
    rw [List.flatMap_cons, bare.chain, List.nil_append]
  refine ⟨chains ▸ under.filled, fun x member => ?_, under.count, under.nodup, under.slots,
    chains ▸ under.balance⟩
  rcases List.mem_cons.mp member with rfl | later
  · exact ⟨bare.chain ▸ bare.next, fun _ => bare.chain, by simp [bare.chain]⟩
  · exact under.linked x later

theorem Under.tail (under : Under k all s (r :: source) entries used room) (bare : r.chain = []) :
    Under k all s source entries used room := by
  have chains : (r :: source).flatMap Row.chain = source.flatMap Row.chain := by
    rw [List.flatMap_cons, bare, List.nil_append]
  exact ⟨chains ▸ under.filled, fun x member => under.linked x (List.mem_cons_of_mem _ member),
    under.count, under.nodup, under.slots, chains ▸ under.balance⟩

/-- What is left of some rows is in their places. -/
def Parts (nodes : ℕ → HashEntry) (left : List Row) (were : List (List ℕ)) : Prop :=
  List.Forall₂ (fun x ds => ∀ d ∈ x.data nodes, d ∈ ds) left were

/-- A transfer with its rows. What is left in the source and what is in the destination are the
entries; a safe transfer leaves the heads only, and one that is stuck has an entry that needs a node. -/
structure Moved (k : Hashing) (grants : Grants) (safe : Bool) (all : List ℕ) (s : State)
    (source : List Row) (entries : List ℕ) (extra : ℕ) (t : Transferred) (left : List Row)
    (all' entries' used' : List ℕ) (room' : ℕ) : Prop where
  bucket : t.bucket = left.map Row.head
  under : Under k all' t.state left entries' used' room'
  parts : Parts t.state.nodes left (source.map (Row.data s.nodes))
  nodes : ∀ p ∈ left.flatMap Row.chain, p ∈ source.flatMap Row.chain
  listed : (contents t.state.nodes left ++ entries').Perm (contents s.nodes source ++ entries)
  counted : t.nBucketsUsed = extra + heads left
  grown : all.length ≤ all'.length
  fresh : Fresh grants t.requests all'
  quiet : Quiet s t.state []
  safely : safe = true → t.done = true ∧ ∀ x ∈ left, x.chain = []
  emptied : safe = false → t.done = true → contents t.state.nodes left = []
  stuck : t.done = false → room' = 0 ∧
    ∃ d ∈ contents t.state.nodes left, k.hasher d s.table.nBuckets ∈ used'

/-- The rows that are still to be moved keep their entries. -/
theorem Quiet.data (quiet : Quiet s t (source.flatMap Row.chain)) (member : r ∈ source) :
    r.data t.nodes = r.data s.nodes :=
  Row.data_frame fun q inChain => quiet.nodes q (List.mem_flatMap.mpr ⟨r, member, inChain⟩)

/-- One row has been moved, up to its head, and the transfer goes on. -/
theorem Moved.after {safe : Bool} (moved : List ℕ) {all₁ all' entries' used' : List ℕ} {extra extra' room' : ℕ}
    {u : State} {t : Transferred} {left : List Row} {x : Row} (quiet : Quiet s u (source.flatMap Row.chain))
    (grown : all.length ≤ all₁.length) (bare : Bare x) (cleared : safe = false → x.head.data = 0)
    (listed : (x.data u.nodes ++ moved).Perm (r.data s.nodes))
    (counted : extra' = extra + if x.head.data = 0 then 0 else 1)
    (rest : Moved k grants safe all₁ u source (moved ++ entries) extra' t left all' entries' used' room') :
    Moved k grants safe all s (r :: source) entries extra (t.after x.head) (x :: left) all' entries' used'
      room' := by
  have same : ∀ nodes, x.data nodes = x.data u.nodes := fun nodes => by rw [bare.data, bare.data]
  have sources : source.map (Row.data u.nodes) = source.map (Row.data s.nodes) :=
    List.map_congr_left fun y member => quiet.data member
  have first : contents t.state.nodes (x :: left) = x.data u.nodes ++ contents t.state.nodes left := by
    rw [contents, List.flatMap_cons, same, contents]
  have were : contents s.nodes (r :: source) = r.data s.nodes ++ contents u.nodes source := by
    rw [contents, List.flatMap_cons, contents, List.flatMap_def, List.flatMap_def, sources]
  refine ⟨congrArg _ rest.bucket, rest.under.cons bare, .cons (fun d member => ?_) (sources ▸ rest.parts),
    fun p member => ?_, ?_, ?_, Nat.le_trans grown rest.grown, rest.fresh,
    quiet.trans rest.quiet fun _ member => absurd member List.not_mem_nil, fun safely => ?_, ?_, ?_⟩
  · rw [same] at member
    exact listed.subset (List.mem_append_left _ member)
  · rw [List.flatMap_cons, bare.chain, List.nil_append] at member
    exact List.mem_append_right _ (rest.nodes p member)
  · change (contents t.state.nodes (x :: left) ++ entries').Perm _
    rw [first, were]
    refine List.perm_iff_count.mpr fun e => ?_
    have here := listed.count_eq e
    have later := rest.listed.count_eq e
    simp only [List.count_append] at here later ⊢
    omega
  · change t.nBucketsUsed = extra + heads (x :: left)
    rw [rest.counted, counted, heads_cons]
    omega
  · exact ⟨(rest.safely safely).1, List.forall_mem_cons.mpr ⟨bare.chain, (rest.safely safely).2⟩⟩
  · intro unsafely done
    change contents t.state.nodes (x :: left) = []
    rw [first, bare.data, if_pos (cleared unsafely), rest.emptied unsafely done, List.nil_append]
  · intro failed
    obtain ⟨none, d, member, taken⟩ := rest.stuck failed
    refine ⟨none, d, ?_, quiet.size ▸ taken⟩
    change d ∈ contents t.state.nodes (x :: left)
    rw [first]
    exact List.mem_append_right _ member

/-- One row has been moved up to its head, and there is no node for that. -/
theorem Moved.stopped {moved : List ℕ} {extra : ℕ} {u : State} {x : Row}
    (quiet : Quiet s u (source.flatMap Row.chain)) (bare : Bare x) (kept : x.head.data ≠ 0)
    (listed : (x.data u.nodes ++ moved).Perm (r.data s.nodes))
    (under : Under k all u source (moved ++ entries) used 0) (fresh : Fresh grants requests all)
    (taken : k.hasher x.head.data u.table.nBuckets ∈ used) :
    Moved k grants false all s (r :: source) entries extra
      ⟨false, x.head :: source.map Row.head, extra + 1 + heads source, requests, u⟩ (x :: source) all
      (moved ++ entries) used 0 := by
  have sources : source.map (Row.data u.nodes) = source.map (Row.data s.nodes) :=
    List.map_congr_left fun y member => quiet.data member
  have first : contents u.nodes (x :: source) = x.data u.nodes ++ contents u.nodes source := by
    rw [contents, List.flatMap_cons, contents]
  have were : contents s.nodes (r :: source) = r.data s.nodes ++ contents u.nodes source := by
    rw [contents, List.flatMap_cons, contents, List.flatMap_def, List.flatMap_def, sources]
  refine ⟨rfl, under.cons bare, ?_, fun p member => ?_, ?_, ?_, Nat.le_refl _, fresh,
    ⟨⟨quiet.toKept, fun _ member => absurd member List.not_mem_nil⟩, quiet.nEntries⟩,
    fun safely => absurd safely Bool.false_ne_true, fun _ done => absurd done Bool.false_ne_true,
    fun _ => ⟨rfl, x.head.data, ?_, quiet.size ▸ taken⟩⟩
  · refine .cons (fun d member => listed.subset (List.mem_append_left _ member)) ?_
    rw [← sources, List.forall₂_map_right_iff]
    exact List.forall₂_same.mpr fun y _ d member => member
  · rw [List.flatMap_cons, bare.chain, List.nil_append] at member
    exact List.mem_append_right _ member
  · change (contents u.nodes (x :: source) ++ (moved ++ entries)).Perm _
    rw [first, were]
    refine List.perm_iff_count.mpr fun e => ?_
    have here := listed.count_eq e
    simp only [List.count_append] at here ⊢
    omega
  · rw [heads_cons, if_neg kept, ← Nat.add_assoc, Nat.add_right_comm]
  · change x.head.data ∈ contents u.nodes (x :: source)
    rw [first, bare.data, if_neg kept]
    exact List.mem_cons_self ..

/-- Every transfer keeps count of the entries, the buckets and the nodes. -/
theorem transferEntries_spec (fuel : ℕ) (safe : Bool) (extra : ℕ)
    (under : Under k all s source entries used room) (fresh : Fresh grants requests all) :
    Outcome (Halts k fuel (chained source) s.table.nBuckets (contents s.nodes source))
      (fun t => ∃ left all' entries' used' room',
        Moved k grants safe all s source entries extra t left all' entries' used' room')
      (transferEntries k grants fuel safe (source.map Row.head) (extra + heads source) requests s) := by
  induction source generalizing all s entries used room requests extra with
  | nil =>
    exact ⟨[], all, entries, used, room, ⟨rfl, under, .nil, nofun, .refl _, rfl, Nat.le_refl _, fresh,
      .refl s [], fun _ => ⟨rfl, nofun⟩, fun _ _ => rfl, nofun⟩⟩
  | cons r source ih =>
    have here := under.linked r (List.mem_cons_self ..)
    have later : chained source ≤ chained (r :: source) := by
      simp only [chained, List.flatMap_cons, List.length_append]
      omega
    have allContents : contents s.nodes (r :: source) = r.data s.nodes ++ contents s.nodes source := by
      rw [contents, List.flatMap_cons, contents]
    have inRest : ∀ d ∈ contents s.nodes source, d ∈ contents s.nodes (r :: source) := fun d member =>
      allContents ▸ List.mem_append_right _ member
    rw [List.map_cons, transferEntries]
    by_cases empty : r.head.data = 0
    · rw [if_neg (fun nonzero => nonzero empty)]
      have noChain := here.empty empty
      have bare : Bare r := ⟨noChain, (noChain ▸ here.chain :)⟩
      have count : extra + heads (r :: source) = extra + heads source := by
        rw [heads_cons, if_pos empty, Nat.add_zero]
      rw [count]
      refine ((ih extra (under.tail noChain) fresh).mono (fun _ halts => halts.mono later inRest)
        fun _ done => done).bind ?_
      rintro t ⟨left, all', entries', used', room', rest⟩
      refine ⟨r :: left, all', entries', used', room', Moved.after [] (.refl s _) (Nat.le_refl _) bare
        (fun _ => empty) ?_ ?_ rest⟩
      · rw [List.append_nil]
      · rw [if_pos empty, Nat.add_zero]
    · rw [if_pos empty]
      have data : r.data s.nodes = r.head.data :: r.chain.map fun p => (s.nodes p).data := if_neg empty
      have count : extra + heads (r :: source) = extra + 1 + heads source := by
        rw [heads_cons, if_neg empty]
        omega
      rw [count]
      refine (under.overflow.mono (fun _ halts => halts.mono ?_ fun d member => ?_) fun _ done => done).bind ?_
      · simp only [chained, List.flatMap_cons, List.length_append]
        omega
      · rw [allContents, data]
        exact List.mem_append_left _ (List.mem_cons_of_mem _ member)
      rintro u ⟨used₁, room₁, under₁, quiet₁⟩
      have size₁ := quiet₁.size
      have sources : ∀ {v : State}, Quiet s v (source.flatMap Row.chain) →
          contents v.nodes source = contents s.nodes source := fun quiet =>
        List.flatMap_congr fun y member => quiet.data member
      cases safe with
      | true =>
        rw [if_pos rfl]
        have bare : Bare ⟨{ r.head with next := 0 }, []⟩ := ⟨rfl, rfl⟩
        refine ((ih (extra + 1) under₁ fresh).mono (fun _ halts => ?_) fun _ done => done).bind ?_
        · rw [size₁, sources quiet₁] at halts
          exact halts.mono later inRest
        rintro t ⟨left, all', entries', used', room', rest⟩
        refine ⟨_ :: left, all', entries', used', room', Moved.after _ quiet₁ (Nat.le_refl _) bare
          (fun unsafely => absurd unsafely.symm Bool.false_ne_true) ?_ ?_ rest⟩
        · rw [bare.data, if_neg empty, data]
          rfl
        · rw [if_neg empty]
      | false =>
        rw [if_neg Bool.false_ne_true]
        refine ((under₁.head fresh empty fuel (chained (r :: source))).mono (fun _ halts => ?_)
          fun _ done => done).bind ?_
        · rw [size₁] at halts
          refine halts.mono (Nat.le_refl _) fun d member => ?_
          rw [List.mem_singleton.mp member, allContents, data]
          exact List.mem_append_left _ (List.mem_cons_self ..)
        rintro ⟨done, requests', v⟩ headMoved
        cases done with
        | true =>
          obtain ⟨all₂, used₂, room₂, under₂, quiet₂, grown, fresh₂⟩ := headMoved
          have quiet := quiet₁.trans quiet₂ fun q member => member
          have bare : Bare ⟨{ r.head with data := 0, next := 0 }, []⟩ := ⟨rfl, rfl⟩
          have spent : ptrSub (extra + 1 + heads source) 1 = extra + heads source := by
            rw [ptrSub, if_pos (by omega)]
            omega
          simp only [if_true, spent]
          refine ((ih extra under₂ fresh₂).mono (fun _ halts => ?_) fun _ done => done).bind ?_
          · rw [quiet.size, sources quiet] at halts
            exact halts.mono later inRest
          rintro t ⟨left, all', entries', used', room', rest⟩
          refine ⟨_ :: left, all', entries', used', room',
            Moved.after (r.head.data :: r.chain.map fun p => (s.nodes p).data) quiet grown bare
              (fun _ => rfl) ?_ ?_ rest⟩
          · rw [bare.data, if_pos rfl, data]
            rfl
          · rw [if_pos rfl, Nat.add_zero]
        | false =>
          obtain ⟨rfl, fresh₂, rfl, taken⟩ := headMoved
          simp only [Bool.false_eq_true, if_false]
          have bare : Bare ⟨{ r.head with next := 0 }, []⟩ := ⟨rfl, rfl⟩
          refine ⟨_ :: source, all, _, used₁, 0, Moved.stopped quiet₁ bare empty ?_ under₁ fresh₂ taken⟩
          rw [bare.data, if_neg empty, data]
          rfl

/-! ## Tables and transfers -/

/-- The places of the buckets in use. -/
def usedRows (rows : List Row) : List ℕ :=
  (rows.zipIdx.filter fun x => x.1.head.data ≠ 0).map Prod.snd

private theorem mem_usedRows {rows : List Row} {i : ℕ} :
    i ∈ usedRows rows ↔ ∃ r, rows[i]? = some r ∧ r.head.data ≠ 0 := by
  simp only [usedRows, List.mem_map, List.mem_filter, decide_eq_true_eq]
  constructor
  · rintro ⟨⟨r, j⟩, ⟨member, taken⟩, rfl⟩
    exact ⟨r, List.mk_mem_zipIdx_iff_getElem?.mp member, taken⟩
  · rintro ⟨r, here, taken⟩
    exact ⟨(r, i), ⟨List.mk_mem_zipIdx_iff_getElem?.mpr here, taken⟩, rfl⟩

theorem nodup_usedRows (rows : List Row) : (usedRows rows).Nodup := by
  have sub : (usedRows rows).Sublist (rows.zipIdx.map Prod.snd) := List.filter_sublist.map _
  rw [List.zipIdx_map_snd] at sub
  exact sub.nodup (List.nodup_range' _)

theorem length_usedRows (rows : List Row) : (usedRows rows).length = heads rows := by
  rw [usedRows, List.length_map, ← List.countP_eq_length_filter, heads]
  conv_rhs => rw [← List.zipIdx_map_fst 0 rows, List.countP_map]
  rfl

theorem length_contents {nodes : ℕ → HashEntry} {rows : List Row} (linked : ∀ r ∈ rows, r.Linked nodes) :
    (contents nodes rows).length = chained rows + heads rows := by
  induction rows with
  | nil => rfl
  | cons r rows ih =>
    have rest := ih fun x member => linked x (List.mem_cons_of_mem _ member)
    have here := linked r (List.mem_cons_self ..)
    rw [heads_cons]
    simp only [contents, chained, List.flatMap_cons, List.length_append] at rest ⊢
    rw [Row.data]
    split_ifs with empty
    · rw [here.empty empty]
      simp only [List.length_nil]
      omega
    · simp only [List.length_cons, List.length_map]
      omega

/-- The buckets in use are those of the entries. -/
theorem slots_of_tidy {rows : List Row} {free spare : List ℕ} {i : ℕ}
    (tidy : Tidy k s.nodes s.table rows free spare) :
    i ∈ usedRows rows ↔ ∃ d ∈ contents s.nodes rows, k.hasher d s.table.nBuckets = i := by
  rw [mem_usedRows]
  constructor
  · rintro ⟨r, here, taken⟩
    have member : r.head.data ∈ r.data s.nodes := by
      rw [Row.data, if_neg taken]
      exact List.mem_cons_self ..
    exact ⟨r.head.data, mem_contents here member, tidy.placed i r here _ member⟩
  · rintro ⟨d, member, rfl⟩
    obtain ⟨r, listed, inRow⟩ := List.mem_flatMap.mp member
    obtain ⟨j, bound, rfl⟩ := List.getElem_of_mem listed
    have here : rows[j]? = some rows[j] := List.getElem?_eq_getElem bound
    have place : k.hasher d s.table.nBuckets = j := tidy.placed j _ here d inRow
    refine ⟨rows[j], by rw [place]; exact here, fun empty => ?_⟩
    rw [Row.data, if_pos empty] at inRow
    cases inRow

/-- A tidy table can be filled with what is spare. -/
theorem Under.of_tidy {rows : List Row} {free : List ℕ}
    (tidy : Tidy k s.nodes s.table rows free (source.flatMap Row.chain))
    (linked : ∀ r ∈ source, r.Linked s.nodes) (count : s.table.nBucketsUsed = heads rows) :
    Under k (source.flatMap Row.chain ++ rows.flatMap Row.chain ++ free) s source (contents s.nodes rows)
      (usedRows rows) free.length := by
  refine ⟨⟨rows, free, tidy, .refl _, .refl _, fun i r here => ?_, rfl⟩, linked,
    count.trans (length_usedRows rows).symm, nodup_usedRows rows, fun i => slots_of_tidy tidy, ?_⟩
  · rw [mem_usedRows, here]
    simp only [Option.some.injEq, exists_eq_left']
  · rw [length_contents tidy.linked, length_usedRows]
    simp only [List.length_append, chained]
    omega

/-- The entries determine how many buckets are in use. -/
theorem Under.length_used {u : State} {all' source' entries' used'} {room' : ℕ}
    (under : Under k all s source entries used room) (under' : Under k all' u source' entries' used' room')
    (listed : entries.Perm entries') (size : s.table.nBuckets = u.table.nBuckets) :
    used.length = used'.length := by
  refine ((List.perm_ext_iff_of_nodup under.nodup under'.nodup).mpr fun i => ?_).length_eq
  rw [under.slots, under'.slots, size]
  simp only [listed.mem_iff]

/-- Moving heads back to a table that had room for all entries never lacks a node. -/
theorem Under.suffices {u : State} {all' full entries' used₀ used' : List ℕ} {left : List Row} {room' : ℕ}
    (under : Under k all s [] full used₀ room') (under' : Under k all' u left entries' used' 0)
    (bare : left.flatMap Row.chain = []) (listed : (contents u.nodes left ++ entries').Perm full)
    (grown : all.length ≤ all'.length) (size : s.table.nBuckets = u.table.nBuckets)
    (member : d ∈ contents u.nodes left) (taken : k.hasher d u.table.nBuckets ∈ used') : False := by
  have before := under.balance
  have now := under'.balance
  have total := listed.length_eq
  have some := List.length_pos_of_mem member
  have cover : used₀ ⊆ used' ++ ((contents u.nodes left).erase d).map fun e => k.hasher e u.table.nBuckets := by
    intro i inUse
    obtain ⟨e, stored, rfl⟩ := (under.slots i).mp inUse
    rw [size]
    rcases List.mem_append.mp (listed.mem_iff.mpr stored) with waits | moved
    · by_cases same : e = d
      · exact List.mem_append_left _ (same ▸ taken)
      · exact List.mem_append_right _ (List.mem_map_of_mem ((List.mem_erase_of_ne same).mpr waits))
    · exact List.mem_append_left _ ((under'.slots _).mpr ⟨e, moved, rfl⟩)
  have count := (List.subperm_of_subset under.nodup cover).length_le
  rw [List.length_append, List.length_map, List.length_erase_of_mem member] at count
  simp only [bare, List.flatMap_nil, List.length_nil, List.length_append] at before now total
  omega

end Yalibct.Hash.Failing

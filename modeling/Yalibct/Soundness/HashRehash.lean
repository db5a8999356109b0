import Yalibct.Soundness.HashTable

/-! # Rehashing

A rehash moves every entry to a new array, the overflow of a bucket before its head. A node whose
entry becomes a head is freed, and a head that becomes overflow needs a node. As long as the free
list has one for it, the rehash keeps the entries and the nodes of the table.
-/

namespace Yalibct.Hash

open Machine

variable {k : Hashing} {nodes : ℕ → HashEntry} {table : HashTable} {rows : List Row}
variable {free spare all entries used : List ℕ} {i d p room fuel : ℕ} {r : Row} {s : State}

/-! ## Which rehashes recycle -/

/-- Move the overflow of one bucket: the buckets in use and the number of free nodes after it. -/
def moveOverflow (slot : ℕ → ℕ) : List ℕ → List ℕ → ℕ → List ℕ × ℕ
  | [], used, room => (used, room)
  | d :: ds, used, room =>
    if slot d ∈ used then moveOverflow slot ds used room
    else moveOverflow slot ds (slot d :: used) (room + 1)

/-- Whether every head that becomes overflow finds a free node. -/
def recycles (slot : ℕ → ℕ) : List (List ℕ) → List ℕ → ℕ → Bool
  | [], _, _ => true
  | [] :: rows, used, room => recycles slot rows used room
  | (head :: overflow) :: rows, used, room =>
    let moved := moveOverflow slot overflow used room
    if slot head ∈ moved.1 then moved.2 ≠ 0 && recycles slot rows moved.1 (moved.2 - 1)
    else recycles slot rows (slot head :: moved.1) moved.2

/-! ## Filling the new array -/

/-- An array that is being filled, from nodes that are all given: the spare ones are still to be
moved. -/
def Filled (k : Hashing) (all : List ℕ) (s : State) (spare entries used : List ℕ) (room : ℕ) : Prop :=
  ∃ rows free, Tidy k s.nodes s.table rows free spare ∧ (contents s.nodes rows).Perm entries ∧
    (spare ++ rows.flatMap Row.chain ++ free).Perm all ∧
    (∀ i r, rows[i]? = some r → (r.head.data ≠ 0 ↔ i ∈ used)) ∧ free.length = room

/-- What the transfers leave alone. -/
structure Still (s t : State) (spare : List ℕ) : Prop extends Kept s t where
  nodes : ∀ q ∈ spare, t.nodes q = s.nodes q

theorem Still.trans {t u : State} {rest : List ℕ} (first : Still s t spare) (second : Still t u rest)
    (subset : ∀ q ∈ rest, q ∈ spare) : Still s u rest where
  heap := second.heap.trans first.heap
  arrays := second.arrays.trans first.arrays
  stack := second.stack.trans first.stack
  tuning := second.tuning.trans first.tuning
  size := second.size.trans first.size
  nodes q member := (second.nodes q member).trans (first.nodes q (subset q member))

/-- One bucket comes into use, and the others stay as they were. -/
theorem used_set (r' : Row) (tracked : ∀ i r, rows[i]? = some r → (r.head.data ≠ 0 ↔ i ∈ used))
    (here : rows[i]? = some r) (filled : r'.head.data ≠ 0) :
    ∀ j x, (rows.set i r')[j]? = some x → (x.head.data ≠ 0 ↔ j ∈ i :: used) := by
  intro j x there
  rcases Decidable.em (j = i) with rfl | other
  · rw [List.getElem?_set_self (List.getElem?_eq_some_iff.mp here).1] at there
    cases there
    exact ⟨fun _ => List.mem_cons_self .., fun _ => filled⟩
  · rw [List.getElem?_set_ne (Ne.symm other)] at there
    rw [tracked j x there, List.mem_cons]
    exact ⟨.inr, fun member => member.resolve_left other⟩

namespace Filled

/-- The head of a bucket is in use if the bucket is counted as such. -/
theorem head_ne_zero (filled : Filled k all s spare entries used room) (bound : i < s.table.nBuckets) :
    (s.table.head i).data ≠ 0 ↔ i ∈ used := by
  obtain ⟨rows, free, tidy, -, -, tracked, -⟩ := filled
  obtain ⟨r, here⟩ := tidy.row bound
  rw [tidy.head here]
  exact tracked i r here

/-- The order of the entries does not matter. -/
theorem perm {entries' : List ℕ} (filled : Filled k all s spare entries used room)
    (perm : entries.Perm entries') : Filled k all s spare entries' used room := by
  obtain ⟨rows, free, tidy, listed, rest⟩ := filled
  exact ⟨rows, free, tidy, listed.trans perm, rest⟩

/-- A spare node joins the overflow of a bucket in use. -/
theorem push (filled : Filled k all s (p :: spare) entries used room) (nonzero : p ≠ 0) (entry : d ≠ 0)
    (bound : k.hasher d s.table.nBuckets < s.table.nBuckets)
    (inUse : k.hasher d s.table.nBuckets ∈ used) :
    let slot := k.hasher d s.table.nBuckets
    let t := (s.setNode p ⟨d, (s.table.head slot).next⟩).setHead slot { s.table.head slot with next := p }
    Filled k all t spare (d :: entries) used room ∧ Still s t spare := by
  obtain ⟨rows, free, tidy, listed, places, tracked, rfl⟩ := filled
  obtain ⟨r, here⟩ := tidy.row bound
  have head := tidy.head here
  have taken : r.head.data ≠ 0 := (tracked _ r here).mpr inUse
  obtain ⟨tidy', gained⟩ := tidy.push here taken nonzero entry rfl
  have chains : (spare ++ (rows.set (k.hasher d s.table.nBuckets)
      ⟨{ r.head with next := p }, p :: r.chain⟩).flatMap Row.chain).Perm
      (p :: spare ++ rows.flatMap Row.chain) :=
    flatMap_set_perm here (fun _ _ _ _ => rfl) List.perm_middle
  have trackedSet := used_set ⟨{ r.head with next := p }, p :: r.chain⟩ tracked here taken
  have notSpare : p ∉ spare := by
    have nodup := tidy.distinct
    rw [List.cons_append, List.cons_append, List.nodup_cons] at nodup
    exact fun member => nodup.1 (List.mem_append_left _ (List.mem_append_left _ member))
  simp only [head]
  refine ⟨⟨_, free, tidy', gained.trans (listed.cons d), (chains.append_right free).trans places,
    fun j x there => (trackedSet j x there).trans ?_, rfl⟩,
    ⟨⟨rfl, rfl, rfl, rfl, nBuckets_setHead _ _ _⟩, fun q member => ?_⟩⟩
  · rw [List.mem_cons]
    exact ⟨fun member => member.elim (fun equal => equal ▸ inUse) id, .inr⟩
  · exact Function.update_of_ne (fun equal : q = p => notSpare (equal ▸ member)) _ _

/-- An entry becomes the head of an empty bucket. -/
theorem fill (filled : Filled k all s spare entries used room) (entry : d ≠ 0)
    (bound : k.hasher d s.table.nBuckets < s.table.nBuckets)
    (notInUse : k.hasher d s.table.nBuckets ∉ used) (count : ℕ) :
    let slot := k.hasher d s.table.nBuckets
    let t := { s with table := { s.table.setHead slot { s.table.head slot with data := d } with
      nBucketsUsed := count } }
    Filled k all t spare (d :: entries) (slot :: used) room ∧ Still s t spare := by
  obtain ⟨rows, free, tidy, listed, places, tracked, rfl⟩ := filled
  obtain ⟨r, here⟩ := tidy.row bound
  have head := tidy.head here
  have unused : r.head.data = 0 := by
    by_contra taken
    exact notInUse ((tracked _ r here).mp taken)
  obtain ⟨tidy', gained⟩ := tidy.fill here unused entry rfl
  have chains : (spare ++ (rows.set (k.hasher d s.table.nBuckets)
      ⟨{ r.head with data := d }, r.chain⟩).flatMap Row.chain).Perm
      (spare ++ rows.flatMap Row.chain) :=
    flatMap_set_perm here (fun _ _ _ _ => rfl) (List.Perm.refl _)
  have trackedSet := used_set ⟨{ r.head with data := d }, r.chain⟩ tracked here entry
  simp only [head]
  exact ⟨⟨_, free, ⟨⟨tidy'.bucket, tidy'.linked, tidy'.freed, tidy'.distinct⟩, tidy'.placed⟩,
    gained.trans (listed.cons d), (chains.append_right free).trans places, trackedSet, rfl⟩,
    ⟨⟨rfl, rfl, rfl, rfl, nBuckets_setHead _ _ _⟩, fun _ _ => rfl⟩⟩

/-- A spare node is freed. -/
theorem freeEntry (filled : Filled k all s (p :: spare) entries used room) (nonzero : p ≠ 0) :
    Filled k all (freeEntry s p) spare entries used (room + 1) ∧ Still s (Hash.freeEntry s p) spare := by
  obtain ⟨rows, free, tidy, listed, places, tracked, rfl⟩ := filled
  obtain ⟨tidy', same, untouched⟩ := tidy.freeEntry nonzero
  have notSpare : p ∉ spare := by
    have nodup := tidy.distinct
    rw [List.cons_append, List.cons_append, List.nodup_cons] at nodup
    exact fun member => nodup.1 (List.mem_append_left _ (List.mem_append_left _ member))
  have middle : (spare ++ rows.flatMap Row.chain ++ p :: free).Perm
      (p :: spare ++ rows.flatMap Row.chain ++ free) := List.perm_middle
  refine ⟨⟨rows, p :: free, tidy', by rw [same]; exact listed, middle.trans places, tracked, rfl⟩,
    ⟨⟨rfl, rfl, rfl, rfl, rfl⟩, fun q member => untouched q ?_⟩⟩
  exact fun equal => notSpare (equal ▸ member)

/-- A free node is taken for a new use. -/
theorem allocateEntry (filled : Filled k all s spare entries used (room + 1)) (a : Allocator) :
    ∃ p, p ≠ 0 ∧ allocateEntry a s =
        .ok (p, { s with table := { s.table with freeEntryList := (s.nodes p).next } }) ∧
      Filled k all { s with table := { s.table with freeEntryList := (s.nodes p).next } }
        (p :: spare) entries used room := by
  obtain ⟨rows, free, tidy, listed, places, tracked, length⟩ := filled
  obtain ⟨p, free, rfl⟩ := List.exists_cons_of_length_eq_add_one length
  obtain ⟨run, nonzero, tidy'⟩ := allocateEntry_recycle a tidy
  have middle : (p :: spare ++ rows.flatMap Row.chain ++ free).Perm
      (spare ++ rows.flatMap Row.chain ++ p :: free) := List.perm_middle.symm
  exact ⟨p, nonzero, run, rows, free, tidy', listed, middle.trans places, tracked,
    Nat.succ.inj length⟩

end Filled

/-! ## The transfers -/

/-- One bucket's overflow is moved. -/
theorem transferOverflow_spec {ps : List ℕ} {cursor : ℕ}
    (filled : Filled k all s (ps ++ spare) entries used room)
    (chain : Chain (link s.nodes) cursor ps) (nonzero : ∀ p ∈ ps, (s.nodes p).data ≠ 0) :
    let overflow := ps.map fun p => (s.nodes p).data
    let moved := moveOverflow (fun d => k.hasher d s.table.nBuckets) overflow used room
    Outcome (Halts k fuel ps.length s.table.nBuckets overflow)
      (fun t => Filled k all t spare (overflow ++ entries) moved.1 moved.2 ∧ Still s t spare ∧
        t.table.nBucketsUsed + used.length = s.table.nBucketsUsed + moved.1.length)
      (transferOverflow k fuel cursor s) := by
  induction ps generalizing fuel cursor s entries used room with
  | nil =>
    have last : cursor = 0 := chain
    cases fuel with
    | zero => exact Nat.le_refl _
    | succ fuel =>
      rw [transferOverflow, if_pos last]
      exact ⟨filled, ⟨⟨rfl, rfl, rfl, rfl, rfl⟩, fun _ _ => rfl⟩, rfl⟩
  | cons p ps ih =>
    obtain ⟨rfl, notNull, rest⟩ := chain
    cases fuel with
    | zero => exact Nat.zero_le _
    | succ fuel =>
      rw [transferOverflow, if_neg notNull]
      apply (safeHasher_halts (List.mem_cons_self ..)).bind
      rintro slot ⟨rfl, inRange⟩
      have entry := nonzero cursor (List.mem_cons_self ..)
      have inUse := filled.head_ne_zero inRange
      -- The rest of the chain is not touched by moving this node.
      have continue_ : ∀ {t : State} {used' : List ℕ} {room' : ℕ},
          Filled k all t (ps ++ spare) ((s.nodes cursor).data :: entries) used' room' →
          Still s t (ps ++ spare) → t.table.nBucketsUsed + used.length = s.table.nBucketsUsed + used'.length →
          let overflow := ps.map fun p => (s.nodes p).data
          let moved := moveOverflow (fun d => k.hasher d s.table.nBuckets) overflow used' room'
          Outcome (Halts k (fuel + 1) (ps.length + 1) s.table.nBuckets ((s.nodes cursor).data :: overflow))
            (fun u => Filled k all u spare ((s.nodes cursor).data :: overflow ++ entries) moved.1 moved.2 ∧
              Still s u spare ∧ u.table.nBucketsUsed + used.length = s.table.nBucketsUsed + moved.1.length)
            (transferOverflow k fuel (s.nodes cursor).next t) := by
        intro t used' room' filled' still count
        have same : ∀ q ∈ ps, t.nodes q = s.nodes q := fun q member =>
          still.nodes q (List.mem_append_left _ member)
        have data : (ps.map fun q => (t.nodes q).data) = ps.map fun q => (s.nodes q).data :=
          List.map_congr_left fun q member => congrArg HashEntry.data (same q member)
        have later := @ih _ _ _ fuel _ _ filled'
          (rest.frame fun q member => congrArg HashEntry.next (same q member)) fun q member => by
            rw [same q member]
            exact nonzero q (List.mem_cons_of_mem _ member)
        simp only [data, still.size] at later
        apply later.mono (fun _ halts => halts.succ)
        rintro u ⟨filled'', still', count'⟩
        refine ⟨filled''.perm List.perm_middle,
          still.trans still' fun q member => List.mem_append_right _ member, ?_⟩
        omega
      simp only [List.map_cons, moveOverflow]
      by_cases taken : k.hasher (s.nodes cursor).data s.table.nBuckets ∈ used
      · rw [if_pos taken, if_pos (inUse.mpr taken)]
        obtain ⟨filled', still⟩ := filled.push notNull entry inRange taken
        exact continue_ filled' still rfl
      · rw [if_neg taken, if_neg (fun nonzero => taken (inUse.mp nonzero))]
        obtain ⟨filled', still⟩ := filled.fill entry inRange taken (s.table.nBucketsUsed + 1)
        obtain ⟨filled'', still'⟩ := Filled.freeEntry filled' notNull
        apply continue_ filled'' (still.trans still' fun q member => List.mem_cons_of_mem _ member)
        change s.table.nBucketsUsed + 1 + used.length = s.table.nBucketsUsed + (used.length + 1)
        omega

/-- A head is moved, to a free node if its new bucket is in use. -/
theorem transferHead_spec (fuel : ℕ) (a : Allocator) (nonempty : 0 < s.table.nBuckets)
    (filled : Filled k all s spare entries used room) (entry : d ≠ 0)
    (finds : k.hasher d s.table.nBuckets ∈ used → room ≠ 0) :
    Outcome (Stops k fuel 0)
      (fun t =>
        let slot := k.hasher d s.table.nBuckets
        (if slot ∈ used then Filled k all t spare (d :: entries) used (room - 1)
          else Filled k all t spare (d :: entries) (slot :: used) room) ∧ Still s t spare)
      (transferHead k a d s) := by
  apply (safeHasher_spec nonempty).bind
  rintro slot ⟨rfl, inRange⟩
  have inUse := filled.head_ne_zero inRange
  by_cases taken : k.hasher d s.table.nBuckets ∈ used
  · obtain ⟨room, rfl⟩ := Nat.exists_eq_succ_of_ne_zero (finds taken)
    obtain ⟨p, nonzero, run, filled'⟩ := filled.allocateEntry a
    obtain ⟨filled'', still⟩ := filled'.push nonzero entry inRange taken
    rw [if_pos (inUse.mpr taken), run]
    apply Outcome.of_ok rfl
    simp only [if_pos taken]
    exact ⟨filled'', ⟨still.heap, still.arrays, still.stack, still.tuning, still.size⟩, still.nodes⟩
  · obtain ⟨filled', still⟩ := filled.fill entry inRange taken (s.table.nBucketsUsed + 1)
    rw [if_neg (fun nonzero => taken (inUse.mp nonzero))]
    refine ⟨?_, still⟩
    rw [if_neg taken]
    exact filled'

/-- All buckets are moved. -/
theorem transferEntries_spec (fuel : ℕ) (a : Allocator) {source : List Row} (nonempty : 0 < s.table.nBuckets)
    (filled : Filled k all s (source.flatMap Row.chain) entries used room)
    (linked : ∀ r ∈ source, r.Linked s.nodes)
    (recycled : recycles (fun d => k.hasher d s.table.nBuckets) (source.map (Row.data s.nodes)) used room) :
    Outcome (Stops k fuel (chained source))
      (fun t => ∃ used' room',
        Filled k all t [] (contents s.nodes source ++ entries) used' room' ∧ Still s t [])
      (transferEntries k a fuel (source.map Row.head) s) := by
  induction source generalizing s entries used room with
  | nil => exact ⟨used, room, filled, ⟨rfl, rfl, rfl, rfl, rfl⟩, nofun⟩
  | cons r source ih =>
    have here := linked r (List.mem_cons_self ..)
    have rest : ∀ x ∈ source, x.Linked s.nodes := fun x member =>
      linked x (List.mem_cons_of_mem _ member)
    have later : chained source ≤ chained (r :: source) := by
      simp only [chained, List.flatMap_cons, List.length_append]
      omega
    rw [List.map_cons, transferEntries]
    by_cases empty : r.head.data = 0
    · rw [if_neg (fun nonzero => nonzero empty)]
      have bare : r.data s.nodes = [] := if_pos empty
      rw [List.map_cons, bare, recycles] at recycled
      rw [List.flatMap_cons, here.empty empty, List.nil_append] at filled
      have entriesEq : contents s.nodes (r :: source) = contents s.nodes source := by
        rw [contents, List.flatMap_cons, bare, List.nil_append, contents]
      rw [entriesEq]
      exact (ih nonempty filled rest recycled).mono (fun _ stops => stops.mono later) fun _ done => done
    · rw [if_pos empty]
      have data : r.data s.nodes = r.head.data :: r.chain.map fun p => (s.nodes p).data := if_neg empty
      rw [List.map_cons, data, recycles] at recycled
      have overflow : r.chain.length ≤ chained (r :: source) := by
        simp only [chained, List.flatMap_cons, List.length_append]
        omega
      rw [List.flatMap_cons] at filled
      refine ((transferOverflow_spec filled here.chain here.nonzero).mono
        (fun _ halts => halts.stops nonempty overflow) fun _ done => done).bind ?_
      rintro t ⟨filled', still, -⟩
      have size := still.size
      generalize moveOverflow (fun d => k.hasher d s.table.nBuckets)
        (r.chain.map fun p => (s.nodes p).data) used room = moved at recycled filled'
      have finds : k.hasher r.head.data t.table.nBuckets ∈ moved.1 → moved.2 ≠ 0 := by
        rw [size]
        intro taken
        rw [if_pos taken, Bool.and_eq_true, decide_eq_true_eq] at recycled
        exact recycled.1
      refine ((transferHead_spec fuel a (size ▸ nonempty) filled' empty finds).mono
        (fun _ stops => stops.mono (Nat.zero_le _)) fun _ done => done).bind ?_
      rintro u ⟨filled'', still'⟩
      have both := still.trans still' fun q member => member
      have sourceData : source.map (Row.data u.nodes) = source.map (Row.data s.nodes) := by
        refine List.map_congr_left fun x member => Row.data_frame fun q inChain => ?_
        exact both.nodes q (List.mem_flatMap.mpr ⟨x, member, inChain⟩)
      have contentsEq : contents u.nodes source = contents s.nodes source := by
        rw [contents, contents, List.flatMap_def, sourceData, ← List.flatMap_def]
      have order : (contents s.nodes source ++
          (r.head.data :: ((r.chain.map fun p => (s.nodes p).data) ++ entries))).Perm
          (contents s.nodes (r :: source) ++ entries) := by
        rw [contents, contents, List.flatMap_cons, data, ← List.cons_append, ← List.append_assoc]
        exact List.perm_append_comm.append_right entries
      have linked' : ∀ x ∈ source, x.Linked u.nodes := fun x member =>
        (rest x member).frame fun q inChain =>
          both.nodes q (List.mem_flatMap.mpr ⟨x, member, inChain⟩)
      -- Either way the remaining buckets are moved to the array as it is now.
      have continue_ : ∀ {used' : List ℕ} {room' : ℕ},
          Filled k all u (source.flatMap Row.chain)
            (r.head.data :: ((r.chain.map fun p => (s.nodes p).data) ++ entries)) used' room' →
          recycles (fun d => k.hasher d s.table.nBuckets) (source.map (Row.data s.nodes)) used' room' →
          Outcome (Stops k fuel (chained (r :: source)))
            (fun v => ∃ used' room',
              Filled k all v [] (contents s.nodes (r :: source) ++ entries) used' room' ∧ Still s v [])
            (transferEntries k a fuel (source.map Row.head) u) := by
        intro used' room' filledU recycledU
        refine (ih (both.size ▸ nonempty) filledU linked' ?_).mono
          (fun _ stops => stops.mono later) ?_
        · rw [both.size, sourceData]
          exact recycledU
        · rintro v ⟨used'', room'', filledV, still''⟩
          rw [contentsEq] at filledV
          exact ⟨used'', room'', filledV.perm order, both.trans still'' nofun⟩
      rw [size] at filled''
      split_ifs at recycled filled'' with taken
      · rw [Bool.and_eq_true] at recycled
        exact continue_ filled'' recycled.2
      · exact continue_ filled'' recycled

end Yalibct.Hash

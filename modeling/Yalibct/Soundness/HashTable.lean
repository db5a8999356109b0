import Mathlib.Data.List.Nodup
import Mathlib.Tactic.SplitIfs
import Yalibct.Machine.Chain
import Yalibct.Machine.Fallible
import Yalibct.Model.HashTable
import Yalibct.Soundness.Obstack

/-! # Hash tables are finite maps

A table is a finite map as long as every node is in one chain or on the free list, and in one
place only. A rehash that takes a node from the obstack breaks this: it works on a copy of the
obstack, and the table hands out the same node once more. Without such a rehash, every run of
calls behaves as a map keyed by the comparator.
-/

namespace Yalibct.Hash

open Machine

/-! ## Rows of nodes -/

/-- A bucket with the nodes of its overflow. -/
structure Row where
  head : HashEntry
  chain : List ℕ

def link (nodes : ℕ → HashEntry) (p : ℕ) : ℕ := (nodes p).next

/-- The entries in a bucket, in the order of the search. -/
def Row.data (nodes : ℕ → HashEntry) (r : Row) : List ℕ :=
  if r.head.data = 0 then [] else r.head.data :: r.chain.map fun p => (nodes p).data

/-- The nodes of a row hang on its head; an empty head has none. -/
structure Row.Linked (nodes : ℕ → HashEntry) (r : Row) : Prop where
  chain : Chain (link nodes) r.head.next r.chain
  empty : r.head.data = 0 → r.chain = []
  nonzero : ∀ p ∈ r.chain, (nodes p).data ≠ 0

/-- The rows of a table and its free nodes, next to spare nodes that are in neither. No node is in
two places. -/
structure Shape (nodes : ℕ → HashEntry) (table : HashTable) (rows : List Row) (free spare : List ℕ) :
    Prop where
  bucket : table.bucket = rows.map Row.head
  linked : ∀ r ∈ rows, r.Linked nodes
  freed : Chain (link nodes) table.freeEntryList free
  distinct : (spare ++ rows.flatMap Row.chain ++ free).Nodup

/-- All entries of a table. -/
def contents (nodes : ℕ → HashEntry) (rows : List Row) : List ℕ := rows.flatMap (Row.data nodes)

variable {nodes nodes' : ℕ → HashEntry} {table : HashTable} {rows : List Row} {free spare spare' : List ℕ}
variable {i : ℕ} {r r' : Row} {p : ℕ}

theorem Row.Linked.frame (linked : r.Linked nodes) (same : ∀ p ∈ r.chain, nodes' p = nodes p) :
    r.Linked nodes' where
  chain := linked.chain.frame fun p member => congrArg HashEntry.next (same p member)
  empty := linked.empty
  nonzero p member := by
    rw [same p member]
    exact linked.nonzero p member

theorem Row.data_frame (same : ∀ p ∈ r.chain, nodes' p = nodes p) : r.data nodes' = r.data nodes := by
  have nodesData : r.chain.map (fun p => (nodes' p).data) = r.chain.map fun p => (nodes p).data :=
    List.map_congr_left fun p member => congrArg HashEntry.data (same p member)
  rw [Row.data, Row.data, nodesData]

theorem Row.mem_data_of_mem {d : ℕ} (linked : r.Linked nodes) :
    d ∈ r.data nodes ↔ (d = r.head.data ∧ d ≠ 0) ∨ ∃ p ∈ r.chain, (nodes p).data = d := by
  rw [Row.data]
  by_cases empty : r.head.data = 0
  · rw [if_pos empty, linked.empty empty]
    simp only [List.not_mem_nil, false_and, exists_false, or_false, false_iff]
    rintro ⟨rfl, nonzero⟩
    exact nonzero empty
  · rw [if_neg empty, List.mem_cons, List.mem_map]
    constructor
    · rintro (rfl | node)
      · exact .inl ⟨rfl, empty⟩
      · exact .inr node
    · rintro (⟨rfl, -⟩ | node)
      · exact .inl rfl
      · exact .inr node

namespace Shape

theorem nBuckets (shape : Shape nodes table rows free spare) : table.nBuckets = rows.length := by
  rw [HashTable.nBuckets, shape.bucket, List.length_map]

theorem head (shape : Shape nodes table rows free spare) (here : rows[i]? = some r) :
    table.head i = r.head := by
  rw [HashTable.head, shape.bucket, List.getD_eq_getElem?_getD, List.getElem?_map, here]
  rfl

/-- Rows other than one share no node with it. -/
theorem apart (shape : Shape nodes table rows free spare) (here : rows[i]? = some r) {j : ℕ} {x : Row}
    (other : j ≠ i) (there : rows[j]? = some x) : ∀ q ∈ x.chain, q ∉ r.chain := by
  have rowsDistinct : (rows.flatMap Row.chain).Nodup :=
    (List.nodup_append.mp (List.nodup_append.mp shape.distinct).1).2.1
  have pairwise := (List.nodup_flatMap.mp rowsDistinct).2
  intro q inX inR
  obtain ⟨jBound, rfl⟩ := List.getElem?_eq_some_iff.mp there
  obtain ⟨iBound, rfl⟩ := List.getElem?_eq_some_iff.mp here
  rcases Nat.lt_or_gt_of_ne other with before | after
  · exact List.pairwise_iff_getElem.mp pairwise j i jBound iBound before inX inR
  · exact List.pairwise_iff_getElem.mp pairwise i j iBound jBound after inR inX

theorem nodup_chain (shape : Shape nodes table rows free spare) (here : rows[i]? = some r) :
    r.chain.Nodup :=
  have rowsDistinct := (List.nodup_append.mp (List.nodup_append.mp shape.distinct).1).2.1
  (List.nodup_flatMap.mp rowsDistinct).1 r (List.mem_of_getElem? here)

theorem spare_not_mem (shape : Shape nodes table rows free spare) (member : p ∈ spare) :
    (∀ x ∈ rows, p ∉ x.chain) ∧ p ∉ free := by
  obtain ⟨outer, -, freeApart⟩ := List.nodup_append.mp shape.distinct
  obtain ⟨-, -, rowsApart⟩ := List.nodup_append.mp outer
  refine ⟨fun x listed inChain => ?_, fun inFree => ?_⟩
  · exact rowsApart p member p (List.mem_flatMap.mpr ⟨x, listed, inChain⟩) rfl
  · exact freeApart p (List.mem_append_left _ member) p inFree rfl

theorem chain_not_free (shape : Shape nodes table rows free spare) (listed : r ∈ rows)
    (member : p ∈ r.chain) : p ∉ free := fun inFree =>
  (List.nodup_append.mp shape.distinct).2.2 p
    (List.mem_append_right _ (List.mem_flatMap.mpr ⟨r, listed, member⟩)) p inFree rfl

/-- Replace one row. The memory changes at its own nodes and at spare ones only, and these may
change places. -/
theorem setRow (shape : Shape nodes table rows free spare) (here : rows[i]? = some r)
    (same : ∀ q, q ∉ r.chain → q ∉ spare → nodes' q = nodes q) (linked : r'.Linked nodes')
    (places : (spare' ++ r'.chain).Perm (spare ++ r.chain)) :
    Shape nodes' (table.setHead i r'.head) (rows.set i r') free spare' where
  bucket := by
    simp only [HashTable.setHead, shape.bucket, List.map_set]
  linked x listed := by
    obtain ⟨j, bound, rfl⟩ := List.getElem_of_mem listed
    rw [List.getElem_set]
    split_ifs with chosen
    · exact linked
    · have bound' : j < rows.length := by rwa [List.length_set] at bound
      have there : rows[j]? = some rows[j] := List.getElem?_eq_getElem bound'
      refine (shape.linked _ (List.getElem_mem bound')).frame fun q member => same q ?_ fun inSpare => ?_
      · exact shape.apart here (Ne.symm chosen) there q member
      · exact (shape.spare_not_mem inSpare).1 _ (List.getElem_mem bound') member
  freed := shape.freed.frame fun q member => by
    have listed : r ∈ rows := List.mem_of_getElem? here
    refine congrArg HashEntry.next (same q ?_ fun inSpare => (shape.spare_not_mem inSpare).2 member)
    exact fun inChain => shape.chain_not_free listed inChain member
  distinct := by
    have perm : (spare' ++ (rows.set i r').flatMap Row.chain).Perm
        (spare ++ rows.flatMap Row.chain) := flatMap_set_perm here (fun _ _ _ _ => rfl) places
    exact (perm.append_right free).nodup_iff.mpr shape.distinct

/-- What the entries of the row gain and lose, the table does. -/
theorem contents_setRow (shape : Shape nodes table rows free spare) (here : rows[i]? = some r)
    (same : ∀ q, q ∉ r.chain → q ∉ spare → nodes' q = nodes q) {left right : List ℕ}
    (change : (left ++ r'.data nodes').Perm (right ++ r.data nodes)) :
    (left ++ contents nodes' (rows.set i r')).Perm (right ++ contents nodes rows) := by
  refine flatMap_set_perm here (fun j x other there => ?_) change
  refine Row.data_frame fun q member => same q (shape.apart here other there q member) fun inSpare => ?_
  exact (shape.spare_not_mem inSpare).1 x (List.mem_of_getElem? there) member

end Shape

/-! ## Entries in their buckets -/

/-- The rows are those of the table, and every entry is in the bucket that its hash selects. -/
structure Tidy (k : Hashing) (nodes : ℕ → HashEntry) (table : HashTable) (rows : List Row)
    (free spare : List ℕ) : Prop extends Shape nodes table rows free spare where
  placed : ∀ i r, rows[i]? = some r → ∀ d ∈ r.data nodes, k.hasher d table.nBuckets = i

variable {k : Hashing} {d : ℕ}

namespace Tidy

theorem row (tidy : Tidy k nodes table rows free spare) (bound : i < table.nBuckets) :
    ∃ r, rows[i]? = some r := by
  rw [tidy.nBuckets] at bound
  exact ⟨rows[i], List.getElem?_eq_getElem bound⟩

/-- A replaced row keeps the table tidy if its entries belong there. -/
theorem setRow (tidy : Tidy k nodes table rows free spare) (here : rows[i]? = some r)
    (same : ∀ q, q ∉ r.chain → q ∉ spare → nodes' q = nodes q) (linked : r'.Linked nodes')
    (places : (spare' ++ r'.chain).Perm (spare ++ r.chain))
    (belong : ∀ d ∈ r'.data nodes', k.hasher d table.nBuckets = i) :
    Tidy k nodes' (table.setHead i r'.head) (rows.set i r') free spare' := by
  refine ⟨tidy.toShape.setRow here same linked places, fun j x there d member => ?_⟩
  have size : (table.setHead i r'.head).nBuckets = table.nBuckets := by
    simp only [HashTable.setHead, HashTable.nBuckets, List.length_set]
  rw [size]
  rcases Decidable.em (j = i) with rfl | other
  · have bound : j < rows.length := (List.getElem?_eq_some_iff.mp here).1
    rw [List.getElem?_set_self bound] at there
    cases there
    exact belong d member
  · rw [List.getElem?_set_ne (Ne.symm other)] at there
    rw [Row.data_frame fun q inChain => same q (tidy.apart here other there q inChain) fun inSpare =>
      (tidy.spare_not_mem inSpare).1 x (List.mem_of_getElem? there) inChain] at member
    exact tidy.placed j x there d member

/-- A matching entry can only be in the bucket that is searched. -/
theorem row_of_mem (tidy : Tidy k nodes table rows free spare) (here : rows[i]? = some r)
    (member : d ∈ contents nodes rows) (hashed : k.hasher d table.nBuckets = i) : d ∈ r.data nodes := by
  obtain ⟨x, listed, inRow⟩ := List.mem_flatMap.mp member
  obtain ⟨j, bound, rfl⟩ := List.getElem_of_mem listed
  have there : rows[j]? = some rows[j] := List.getElem?_eq_getElem bound
  have same : j = i := (tidy.placed j _ there d inRow).symm.trans hashed
  subst same
  rw [here] at there
  cases there
  exact inRow

/-- `free_entry` puts a spare node on the free list. -/
theorem freeEntry {s : State} (tidy : Tidy k s.nodes s.table rows free (p :: spare)) (nonzero : p ≠ 0) :
    Tidy k (freeEntry s p).nodes (freeEntry s p).table rows (p :: free) spare ∧
      contents (Hash.freeEntry s p).nodes rows = contents s.nodes rows ∧
      ∀ q, q ≠ p → (Hash.freeEntry s p).nodes q = s.nodes q := by
  obtain ⟨outside, notFree⟩ := tidy.spare_not_mem (List.mem_cons_self ..)
  have same : ∀ q, q ≠ p → (Hash.freeEntry s p).nodes q = s.nodes q := fun q other =>
    Function.update_of_ne other _ _
  have data : ∀ x ∈ rows, x.data (Hash.freeEntry s p).nodes = x.data s.nodes := fun x listed =>
    Row.data_frame fun q member => same q fun equal => outside x listed (equal ▸ member)
  refine ⟨⟨⟨tidy.bucket, fun x listed => (tidy.linked x listed).frame fun q member =>
      same q fun equal => outside x listed (equal ▸ member), ⟨rfl, nonzero, ?_⟩, ?_⟩, ?_⟩, ?_, same⟩
  · have next : link (Hash.freeEntry s p).nodes p = s.table.freeEntryList := by
      simp only [link, Hash.freeEntry, State.setNode, Function.update_self]
    rw [next]
    exact tidy.freed.frame fun q member => congrArg HashEntry.next
      (same q fun equal => notFree (equal ▸ member))
  · have perm : (spare ++ rows.flatMap Row.chain ++ p :: free).Perm
        (p :: spare ++ rows.flatMap Row.chain ++ free) := List.perm_middle
    exact perm.nodup_iff.mpr tidy.distinct
  · intro j x there d member
    rw [data x (List.mem_of_getElem? there)] at member
    exact tidy.placed j x there d member
  · exact List.flatMap_congr data

/-- A spare node goes to the front of the overflow of a bucket in use. -/
theorem push (tidy : Tidy k nodes table rows free (p :: spare)) (here : rows[i]? = some r)
    (used : r.head.data ≠ 0) (nonzero : p ≠ 0) (entry : d ≠ 0)
    (hashed : k.hasher d table.nBuckets = i) :
    Tidy k (Function.update nodes p ⟨d, r.head.next⟩) (table.setHead i { r.head with next := p })
      (rows.set i ⟨{ r.head with next := p }, p :: r.chain⟩) free spare ∧
    (contents (Function.update nodes p ⟨d, r.head.next⟩)
      (rows.set i ⟨{ r.head with next := p }, p :: r.chain⟩)).Perm (d :: contents nodes rows) := by
  have notHere := (tidy.spare_not_mem (List.mem_cons_self ..)).1 r (List.mem_of_getElem? here)
  have linked := tidy.linked r (List.mem_of_getElem? here)
  have self : Function.update nodes p ⟨d, r.head.next⟩ p = ⟨d, r.head.next⟩ := Function.update_self ..
  have same : ∀ q ∈ r.chain, Function.update nodes p ⟨d, r.head.next⟩ q = nodes q :=
    fun q member => Function.update_of_ne (fun equal : q = p => notHere (equal ▸ member)) _ _
  have outside : ∀ q, q ∉ r.chain → q ∉ p :: spare →
      Function.update nodes p ⟨d, r.head.next⟩ q = nodes q := fun q _ other =>
    Function.update_of_ne (fun equal : q = p => other (equal ▸ List.mem_cons_self ..)) _ _
  have dataEq : (Row.mk { r.head with next := p } (p :: r.chain)).data
      (Function.update nodes p ⟨d, r.head.next⟩) =
      r.head.data :: d :: r.chain.map fun q => (nodes q).data := by
    simp only [Row.data, if_neg used, List.map_cons, self, List.cons.injEq, true_and]
    exact List.map_congr_left fun q member => congrArg HashEntry.data (same q member)
  have dataWas : r.data nodes = r.head.data :: r.chain.map fun q => (nodes q).data := if_neg used
  have pushed : (Row.mk { r.head with next := p } (p :: r.chain)).Linked
      (Function.update nodes p ⟨d, r.head.next⟩) := by
    refine ⟨⟨rfl, nonzero, ?_⟩, fun empty => absurd empty used, fun q member => ?_⟩
    · rw [link, self]
      exact linked.chain.frame fun q member => congrArg HashEntry.next (same q member)
    · cases List.mem_cons.mp member with
      | inl new =>
        rw [new, self]
        exact entry
      | inr old =>
        rw [same q old]
        exact linked.nonzero q old
  constructor
  · apply tidy.setRow here outside pushed List.perm_middle
    intro x member
    rw [dataEq] at member
    rcases List.mem_cons.mp member with first | member
    · exact tidy.placed i r here x (dataWas ▸ first ▸ List.mem_cons_self ..)
    · cases List.mem_cons.mp member with
      | inl new => exact new ▸ hashed
      | inr old => exact tidy.placed i r here x (dataWas ▸ List.mem_cons_of_mem _ old)
  · have change : ([] ++ (Row.mk { r.head with next := p } (p :: r.chain)).data
        (Function.update nodes p ⟨d, r.head.next⟩)).Perm ([d] ++ r.data nodes) := by
      rw [dataEq, dataWas]
      exact List.Perm.swap _ _ _
    exact tidy.contents_setRow here outside change

/-- An entry goes to the head of an empty bucket. -/
theorem fill (tidy : Tidy k nodes table rows free spare) (here : rows[i]? = some r)
    (unused : r.head.data = 0) (entry : d ≠ 0) (hashed : k.hasher d table.nBuckets = i) :
    Tidy k nodes (table.setHead i { r.head with data := d })
      (rows.set i ⟨{ r.head with data := d }, r.chain⟩) free spare ∧
    (contents nodes (rows.set i ⟨{ r.head with data := d }, r.chain⟩)).Perm (d :: contents nodes rows) := by
  have linked := tidy.linked r (List.mem_of_getElem? here)
  have bare := linked.empty unused
  have dataEq : (Row.mk { r.head with data := d } r.chain).data nodes = [d] := by
    simp only [Row.data, if_neg entry, bare, List.map_nil]
  have dataWas : r.data nodes = [] := if_pos unused
  have filled : (Row.mk { r.head with data := d } r.chain).Linked nodes :=
    ⟨linked.chain, fun empty => absurd empty entry, linked.nonzero⟩
  constructor
  · refine tidy.setRow here (fun _ _ _ => rfl) filled (List.Perm.refl _) fun x member => ?_
    rw [dataEq] at member
    exact List.mem_singleton.mp member ▸ hashed
  · have change : ([] ++ (Row.mk { r.head with data := d } r.chain).data nodes).Perm
        ([d] ++ r.data nodes) := by
      rw [dataEq, dataWas]
      exact List.Perm.refl _
    exact tidy.contents_setRow here (fun _ _ _ => rfl) change

end Tidy

/-! ## New nodes -/

/-- The obstack holds the nodes, each an object of its own. -/
def Owned (heap : Heap) (stack : Obstack) (ps : List ℕ) : Prop :=
  ∃ finished c cs, Obstack.State.Valid ⟨heap, stack, finished, []⟩ c cs ∧ stack.alignmentMask = 15 ∧
    (∀ o ∈ finished, o.bytes.length = HashEntry.size) ∧ ∀ p ∈ ps, ∃ o ∈ finished, o.addr = p

theorem Owned.subset {heap : Heap} {stack : Obstack} {ps qs : List ℕ} (owned : Owned heap stack ps)
    (subset : ∀ q ∈ qs, q ∈ ps) : Owned heap stack qs := by
  obtain ⟨finished, c, cs, valid, mask, sizes, objects⟩ := owned
  exact ⟨finished, c, cs, valid, mask, sizes, fun q member => objects q (subset q member)⟩

/-- The obstack hands out a node that is not among those it holds. -/
theorem Owned.alloc (a : Allocator) {heap : Heap} {stack : Obstack} {ps : List ℕ}
    (owned : Owned heap stack ps) :
    obstackAlloc a heap stack HashEntry.size = .error .refused ∨
    ∃ p heap' stack', obstackAlloc a heap stack HashEntry.size = .ok (p, heap', stack') ∧ p ≠ 0 ∧
      p ∉ ps ∧ Owned heap' stack' (p :: ps) := by
  obtain ⟨finished, c, cs, valid, mask, sizes, objects⟩ := owned
  have fits : Obstack.Fits ⟨heap, stack, finished, []⟩ HashEntry.size := by
    simp only [Obstack.Fits, Obstack.Event.Fits.requested, valid.objSize, mask, List.length_nil,
      HashEntry.size]
    decide
  rcases Obstack.alloc_spec a valid fits with
    refused | ⟨p, heap', stack', new, rest, bytes, run, length, valid', mask'⟩
  · exact .inl refused
  right
  have size : bytes.length = HashEntry.size := by rw [length]; rfl
  have top : stack'.objectBase ≤ topOf (new :: rest) := Nat.le_trans valid'.next valid'.room
  refine ⟨p, heap', stack', run, ?_, ?_, _, new, rest, valid', mask'.trans mask, ?_, ?_⟩
  · obtain ⟨d, listed, base, -⟩ := valid'.stacked.within top (List.mem_cons_self ..)
    have roomy := (valid'.roomy d listed).1
    simp only [Obstack.contents] at roomy base
    omega
  · intro member
    obtain ⟨o, listed, addr⟩ := objects p member
    have apart := (List.pairwise_cons.mp (valid'.intact_apart)).1 o listed
    have sizeO := sizes o listed
    simp only [Object.Apart, Object.limit, size, sizeO, addr, HashEntry.size] at apart
    omega
  · intro o member
    cases List.mem_cons.mp member with
    | inl new => exact new ▸ size
    | inr old => exact sizes o old
  · intro q member
    cases List.mem_cons.mp member with
    | inl new => exact ⟨_, List.mem_cons_self .., new.symm⟩
    | inr old =>
      obtain ⟨o, listed, addr⟩ := objects q old
      exact ⟨o, List.mem_cons_of_mem _ listed, addr⟩

/-- A free node is taken off the free list. -/
theorem allocateEntry_recycle (a : Allocator) {s : State}
    (tidy : Tidy k s.nodes s.table rows (p :: free) spare) :
    allocateEntry a s =
      .ok (p, { s with table := { s.table with freeEntryList := (s.nodes p).next } }) ∧ p ≠ 0 ∧
    Tidy k s.nodes { s.table with freeEntryList := (s.nodes p).next } rows free (p :: spare) := by
  obtain ⟨first, nonzero, rest⟩ := tidy.freed
  refine ⟨?_, nonzero, ⟨tidy.bucket, tidy.linked, rest, ?_⟩, tidy.placed⟩
  · rw [allocateEntry, first, if_pos nonzero]
  · have perm : (p :: spare ++ rows.flatMap Row.chain ++ free).Perm
        (spare ++ rows.flatMap Row.chain ++ p :: free) := List.perm_middle.symm
    exact perm.nodup_iff.mpr tidy.distinct

/-- A node comes from the free list, or from the obstack when that is empty. -/
theorem allocateEntry_spec (a : Allocator) {s : State} (tidy : Tidy k s.nodes s.table rows free spare)
    (owned : Owned s.heap s.table.entryStack (spare ++ rows.flatMap Row.chain ++ free)) :
    allocateEntry a s = .error .refused ∨
    ∃ p s' free', allocateEntry a s = .ok (p, s') ∧ p ≠ 0 ∧ s'.nodes = s.nodes ∧ s'.arrays = s.arrays ∧
      s'.table.tuning = s.table.tuning ∧ Tidy k s.nodes s'.table rows free' (p :: spare) ∧
      Owned s'.heap s'.table.entryStack (p :: spare ++ rows.flatMap Row.chain ++ free') := by
  cases free with
  | cons p free =>
    obtain ⟨run, nonzero, tidy'⟩ := allocateEntry_recycle a tidy
    refine .inr ⟨p, _, free, run, nonzero, rfl, rfl, rfl, tidy', owned.subset fun q member => ?_⟩
    exact List.perm_middle.symm.subset member
  | nil =>
    have none : s.table.freeEntryList = 0 := tidy.freed
    have path : allocateEntry a s = (obstackAlloc a s.heap s.table.entryStack HashEntry.size >>= fun new =>
        .ok (new.1, { s with heap := new.2.1, table := { s.table with entryStack := new.2.2 } })) := by
      rw [allocateEntry, if_neg (fun nonzero => nonzero none)]
    rcases owned.alloc a with refused | ⟨p, heap, stack, run, nonzero, new, owned'⟩
    · left
      rw [path, refused]
      rfl
    · right
      refine ⟨p, { s with heap := heap, table := { s.table with entryStack := stack } }, [], ?_, nonzero,
        rfl, rfl, rfl, ⟨⟨tidy.bucket, tidy.linked, tidy.freed, ?_⟩, tidy.placed⟩, owned'⟩
      · rw [path, run]
        rfl
      · exact List.nodup_cons.mpr ⟨new, tidy.distinct⟩

/-! ## Searching -/

/-- What may end a call: no memory, too few rounds, or a hasher that is out of range. -/
def Stops (k : Hashing) (fuel bound : ℕ) : Fault → Prop
  | .refused => True
  | .unfinished => fuel ≤ bound
  | .aborted => ∃ e n, 0 < n ∧ n ≤ k.hasher e n
  | _ => False

theorem Stops.mono {fuel bound more : ℕ} (le : bound ≤ more) {fault : Fault}
    (stops : Stops k fuel bound fault) : Stops k fuel more fault := by
  cases fault with
  | unfinished => exact Nat.le_trans stops le
  | refused | outOfBounds | invalidFree | aborted | undefined => exact stops

theorem Stops.succ {fuel bound : ℕ} {fault : Fault} (stops : Stops k fuel bound fault) :
    Stops k (fuel + 1) (bound + 1) fault := by
  cases fault with
  | unfinished => exact Nat.succ_le_succ stops
  | refused | outOfBounds | invalidFree | aborted | undefined => exact stops

/-- The hasher respects the comparator: equal entries hash equally for every size of a table. -/
def Hashing.Respects (k : Hashing) : Prop :=
  ∀ e d n, 0 < n → k.comparator e d = true → k.hasher e n = k.hasher d n

theorem Hashing.Respects.same_bucket (respects : k.Respects) {e n : ℕ} (positive : 0 < n)
    (matched : k.matches e d = true) : k.hasher e n = k.hasher d n := by
  rw [Hashing.matches, Bool.or_eq_true, beq_iff_eq] at matched
  rcases matched with rfl | matched
  · rfl
  · exact respects e d n positive matched

theorem safeHasher_spec {key fuel bound : ℕ} (nonempty : 0 < table.nBuckets) :
    Outcome (Stops k fuel bound) (fun slot => slot = k.hasher key table.nBuckets ∧ slot < table.nBuckets)
      (safeHasher k table key) := by
  simp only [safeHasher]
  split_ifs with inRange
  · exact ⟨rfl, inRange⟩
  · exact ⟨key, table.nBuckets, nonempty, Nat.le_of_not_lt inRange⟩

/-- What may end the moving of some entries to an array of this size: too few rounds, or a hash of one of
them that is out of range. -/
def Halts (k : Hashing) (fuel bound n : ℕ) (entries : List ℕ) : Fault → Prop
  | .unfinished => fuel ≤ bound
  | .aborted => ∃ d ∈ entries, n ≤ k.hasher d n
  | _ => False

theorem Halts.stops {fuel bound more n : ℕ} {entries : List ℕ} {fault : Fault} (nonempty : 0 < n)
    (le : bound ≤ more) (halts : Halts k fuel bound n entries fault) : Stops k fuel more fault := by
  cases fault with
  | unfinished => exact Nat.le_trans halts le
  | aborted =>
    obtain ⟨d, -, out⟩ := halts
    exact ⟨d, n, nonempty, out⟩
  | refused => trivial
  | outOfBounds | invalidFree | undefined => exact halts

theorem Halts.mono {fuel bound more n : ℕ} {entries entries' : List ℕ} {fault : Fault} (le : bound ≤ more)
    (subset : ∀ d ∈ entries, d ∈ entries') (halts : Halts k fuel bound n entries fault) :
    Halts k fuel more n entries' fault := by
  cases fault with
  | unfinished => exact Nat.le_trans halts le
  | aborted =>
    obtain ⟨d, member, out⟩ := halts
    exact ⟨d, subset d member, out⟩
  | refused | outOfBounds | invalidFree | undefined => exact halts

theorem Halts.succ {fuel bound n : ℕ} {d : ℕ} {entries : List ℕ} {fault : Fault}
    (halts : Halts k fuel bound n entries fault) : Halts k (fuel + 1) (bound + 1) n (d :: entries) fault := by
  cases fault with
  | unfinished => exact Nat.succ_le_succ halts
  | aborted =>
    obtain ⟨e, member, out⟩ := halts
    exact ⟨e, List.mem_cons_of_mem _ member, out⟩
  | refused | outOfBounds | invalidFree | undefined => exact halts

theorem safeHasher_halts {key fuel bound : ℕ} {entries : List ℕ} (member : key ∈ entries) :
    Outcome (Halts k fuel bound table.nBuckets entries)
      (fun slot => slot = k.hasher key table.nBuckets ∧ slot < table.nBuckets) (safeHasher k table key) := by
  simp only [safeHasher]
  split_ifs with inRange
  · exact ⟨rfl, inRange⟩
  · exact ⟨key, member, Nat.le_of_not_lt inRange⟩

/-- The scan of an overflow chain finds the first match, and the node before it. -/
theorem scanOverflow_spec {e p : ℕ} {ps : List ℕ} (chain : Chain (link nodes) p ps) (fuel : ℕ)
    (cursor : Option ℕ) :
    Outcome (Stops k fuel ps.length)
      (fun result =>
        (result = none ∧ ∀ q ∈ ps, k.matches e (nodes q).data = false) ∨
        ∃ xs q ys, ps = xs ++ q :: ys ∧ result = some (xs.getLast?.or cursor, q) ∧
          k.matches e (nodes q).data = true)
      (scanOverflow k nodes e fuel cursor p) := by
  induction ps generalizing fuel cursor p with
  | nil =>
    have last : p = 0 := chain
    cases fuel with
    | zero => exact Nat.le_refl _
    | succ fuel =>
      rw [scanOverflow, if_pos last]
      exact .inl ⟨rfl, nofun⟩
  | cons q qs ih =>
    obtain ⟨rfl, nonzero, rest⟩ := chain
    cases fuel with
    | zero => exact Nat.zero_le _
    | succ fuel =>
      rw [scanOverflow, if_neg nonzero]
      by_cases found : k.matches e (nodes p).data = true
      · rw [if_pos found]
        exact .inr ⟨[], p, qs, rfl, rfl, found⟩
      · rw [if_neg found]
        apply (ih rest fuel (some p)).mono (fun _ stops => stops.succ)
        rintro result (⟨rfl, absent⟩ | ⟨xs, r, ys, rfl, rfl, found'⟩)
        · refine .inl ⟨rfl, fun r member => ?_⟩
          cases List.mem_cons.mp member with
          | inl here => exact here ▸ Bool.eq_false_iff.mpr found
          | inr later => exact absent r later
        · refine .inr ⟨p :: xs, r, ys, rfl, ?_, found'⟩
          rw [List.getLast?_cons]
          cases xs.getLast? with
          | none => rfl
          | some last => rfl

/-- A search result: no entry matches, or this one does. -/
def Found (k : Hashing) (e d : ℕ) (entries : List ℕ) : Prop :=
  (d = 0 ∧ ∀ x ∈ entries, k.matches e x = false) ∨ (d ≠ 0 ∧ d ∈ entries ∧ k.matches e d = true)

/-- No entry matches, if none in its own bucket does. -/
theorem Tidy.absent (tidy : Tidy k nodes table rows free spare) (respects : k.Respects) {e : ℕ}
    (here : rows[i]? = some r) (slot : i = k.hasher e table.nBuckets)
    (absent : ∀ x ∈ r.data nodes, k.matches e x = false) :
    ∀ x ∈ contents nodes rows, k.matches e x = false := by
  intro x member
  by_contra found
  have matched := Bool.eq_true_of_not_eq_false found
  have positive : 0 < table.nBuckets := by
    rw [tidy.nBuckets]
    exact Nat.zero_lt_of_lt (List.getElem?_eq_some_iff.mp here).1
  have hashed := (respects.same_bucket positive matched).symm.trans slot.symm
  exact found (absent x (tidy.row_of_mem here member hashed))

theorem mem_contents (here : rows[i]? = some r) (member : d ∈ r.data nodes) : d ∈ contents nodes rows :=
  List.mem_flatMap.mpr ⟨r, List.mem_of_getElem? here, member⟩

/-- The chain of a row is no longer than all chains. -/
theorem length_chain_le (here : rows[i]? = some r) :
    r.chain.length ≤ (rows.flatMap Row.chain).length := by
  obtain ⟨bound, rfl⟩ := List.getElem?_eq_some_iff.mp here
  exact (List.sublist_flatten_of_mem (List.mem_map_of_mem (List.getElem_mem bound))).length_le

/-- A row loses an entry and its node. -/
theorem Tidy.lose (tidy : Tidy k nodes table rows free []) (here : rows[i]? = some r)
    (same : ∀ q, q ∉ r.chain → nodes' q = nodes q) (linked : r'.Linked nodes')
    (places : (spare ++ r'.chain).Perm r.chain)
    (loses : (d :: r'.data nodes').Perm (r.data nodes)) :
    Tidy k nodes' (table.setHead i r'.head) (rows.set i r') free spare ∧
      (d :: contents nodes' (rows.set i r')).Perm (contents nodes rows) := by
  have outside : ∀ q, q ∉ r.chain → q ∉ [] → nodes' q = nodes q := fun q other _ => same q other
  constructor
  · exact tidy.setRow here outside linked places fun x member =>
      tidy.placed i r here x (loses.subset (List.mem_cons_of_mem _ member))
  · have change : ([d] ++ r'.data nodes').Perm ([] ++ r.data nodes) := loses
    exact tidy.contents_setRow here outside change

/-- The number of rounds that the loops over the nodes of a table need. -/
def chained (rows : List Row) : ℕ := (rows.flatMap Row.chain).length

variable {s : State} {e fuel : ℕ}

/-- `hash_find_entry` without deletion. -/
theorem hashFindEntry_spec (fuel e : ℕ) (tidy : Tidy k s.nodes s.table rows free spare)
    (respects : k.Respects) (nonempty : 0 < s.table.nBuckets) :
    Outcome (Stops k fuel (chained rows))
      (fun result => result.2.1 = k.hasher e s.table.nBuckets ∧ result.2.1 < s.table.nBuckets ∧
        result.2.2 = s ∧ Found k e result.1 (contents s.nodes rows))
      (hashFindEntry k fuel s e false) := by
  refine (safeHasher_spec nonempty).bind fun slot ⟨hashed, inRange⟩ => ?_
  obtain ⟨r, here⟩ := tidy.row inRange
  have linked := tidy.linked r (List.mem_of_getElem? here)
  have nowhere := tidy.absent respects here hashed
  rw [tidy.head here]
  by_cases empty : r.head.data = 0
  · rw [if_pos empty]
    refine ⟨hashed, inRange, rfl, .inl ⟨rfl, nowhere ?_⟩⟩
    rw [Row.data, if_pos empty]
    exact nofun
  have data : r.data s.nodes = r.head.data :: r.chain.map fun p => (s.nodes p).data := if_neg empty
  rw [if_neg empty]
  by_cases first : k.matches e r.head.data = true
  · rw [if_pos first]
    exact ⟨hashed, inRange, rfl,
      .inr ⟨empty, mem_contents here (data ▸ List.mem_cons_self ..), first⟩⟩
  rw [if_neg first]
  refine ((scanOverflow_spec linked.chain fuel none).mono
    (fun _ stops => stops.mono (length_chain_le here)) fun _ found => found).bind ?_
  rintro result (⟨rfl, absent⟩ | ⟨xs, q, ys, chain, rfl, found⟩)
  · refine ⟨hashed, inRange, rfl, .inl ⟨rfl, nowhere fun x member => ?_⟩⟩
    rw [data] at member
    cases List.mem_cons.mp member with
    | inl head => exact head ▸ Bool.eq_false_iff.mpr first
    | inr node =>
      obtain ⟨p, listed, rfl⟩ := List.mem_map.mp node
      exact absent p listed
  · have listed : q ∈ r.chain := chain ▸ List.mem_append_right _ (List.mem_cons_self ..)
    refine ⟨hashed, inRange, rfl, .inr ⟨linked.nonzero q listed, mem_contents here ?_, found⟩⟩
    rw [data]
    exact List.mem_cons_of_mem _ (List.mem_map_of_mem listed)

/-- The loop of `hash_lookup` finds the first match. -/
theorem lookupChain_spec {cursor : HashEntry} {ps : List ℕ} (chain : Chain (link nodes) cursor.next ps) :
    Outcome (Stops k fuel (ps.length + 1))
      (fun d => (d = 0 ∧ k.matches e cursor.data = false ∧ ∀ q ∈ ps, k.matches e (nodes q).data = false) ∨
        (k.matches e d = true ∧ (d = cursor.data ∨ ∃ q ∈ ps, (nodes q).data = d)))
      (lookupChain k nodes e fuel cursor) := by
  induction fuel generalizing cursor ps with
  | zero => exact Nat.zero_le _
  | succ fuel ih =>
    rw [lookupChain]
    by_cases found : k.matches e cursor.data = true
    · rw [if_pos found]
      exact .inr ⟨found, .inl rfl⟩
    rw [if_neg found]
    have absent := Bool.eq_false_iff.mpr found
    cases ps with
    | nil =>
      have last : cursor.next = 0 := chain
      rw [if_pos last]
      exact .inl ⟨rfl, absent, nofun⟩
    | cons q qs =>
      obtain ⟨next, nonzero, rest⟩ := chain
      rw [next, if_neg nonzero]
      apply (ih rest).mono (fun _ stops => stops.succ)
      rintro d (⟨rfl, first, others⟩ | ⟨found', place⟩)
      · refine .inl ⟨rfl, absent, fun x member => ?_⟩
        cases List.mem_cons.mp member with
        | inl here => exact here ▸ first
        | inr later => exact others x later
      · refine .inr ⟨found', .inr ?_⟩
        rcases place with rfl | ⟨x, later, rfl⟩
        · exact ⟨q, List.mem_cons_self .., rfl⟩
        · exact ⟨x, List.mem_cons_of_mem _ later, rfl⟩

theorem hashLookup_spec (tidy : Tidy k s.nodes s.table rows free spare) (respects : k.Respects)
    (nonempty : 0 < s.table.nBuckets) :
    Outcome (Stops k fuel (chained rows + 1)) (fun d => Found k e d (contents s.nodes rows))
      (hashLookup k fuel s e) := by
  refine (safeHasher_spec nonempty).bind fun slot ⟨hashed, inRange⟩ => ?_
  obtain ⟨r, here⟩ := tidy.row inRange
  have linked := tidy.linked r (List.mem_of_getElem? here)
  have nowhere := tidy.absent respects here hashed
  rw [tidy.head here]
  by_cases empty : r.head.data = 0
  · rw [if_pos empty]
    refine .inl ⟨rfl, nowhere ?_⟩
    rw [Row.data, if_pos empty]
    exact nofun
  have data : r.data s.nodes = r.head.data :: r.chain.map fun p => (s.nodes p).data := if_neg empty
  rw [if_neg empty]
  refine (lookupChain_spec linked.chain).mono
    (fun _ stops => stops.mono (Nat.succ_le_succ (length_chain_le here))) ?_
  rintro d (⟨rfl, first, others⟩ | ⟨found, place⟩)
  · refine .inl ⟨rfl, nowhere fun x member => ?_⟩
    rw [data] at member
    cases List.mem_cons.mp member with
    | inl head => exact head ▸ first
    | inr node =>
      obtain ⟨p, listed, rfl⟩ := List.mem_map.mp node
      exact others p listed
  · have member : d ∈ r.data s.nodes := by
      rw [data]
      rcases place with rfl | ⟨q, listed, rfl⟩
      · exact List.mem_cons_self ..
      · exact List.mem_cons_of_mem _ (List.mem_map_of_mem listed)
    have nonzero : d ≠ 0 := by
      rcases (Row.mem_data_of_mem linked).mp member with ⟨-, nonzero⟩ | ⟨q, listed, rfl⟩
      · exact nonzero
      · exact linked.nonzero q listed
    exact .inr ⟨nonzero, mem_contents here member, found⟩

/-! ## Deleting -/

/-- What a deletion leaves alone. -/
structure Kept (s t : State) : Prop where
  heap : t.heap = s.heap
  arrays : t.arrays = s.arrays
  stack : t.table.entryStack = s.table.entryStack
  tuning : t.table.tuning = s.table.tuning
  size : t.table.nBuckets = s.table.nBuckets

private theorem setHead_self {head : HashEntry} (here : table.bucket[i]? = some head) :
    table.setHead i head = table := by
  obtain ⟨bound, rfl⟩ := List.getElem?_eq_some_iff.mp here
  simp only [HashTable.setHead, List.set_getElem_self]

theorem nBuckets_setHead (table : HashTable) (i : ℕ) (head : HashEntry) : (table.setHead i head).nBuckets = table.nBuckets := by
  simp only [HashTable.setHead, HashTable.nBuckets, List.length_set]

/-- A deletion took the entry out of the table, and its node to the free list. -/
def Deleted (k : Hashing) (s : State) (rows : List Row) (free : List ℕ) (d : ℕ) (t : State) : Prop :=
  Kept s t ∧ ∃ rows' free', Tidy k t.nodes t.table rows' free' [] ∧
    (d :: contents t.nodes rows').Perm (contents s.nodes rows) ∧
    (rows'.flatMap Row.chain ++ free').Perm (rows.flatMap Row.chain ++ free)

/-- A row loses an entry and keeps its nodes. -/
theorem Deleted.of_lose {head : HashEntry} (tidy : Tidy k s.nodes s.table rows free [])
    (here : rows[i]? = some r) (linked : (Row.mk head r.chain).Linked s.nodes)
    (loses : (d :: (Row.mk head r.chain).data s.nodes).Perm (r.data s.nodes)) :
    Deleted k s rows free d (s.setHead i head) := by
  have places : ([] ++ (Row.mk head r.chain).chain).Perm r.chain := List.Perm.refl _
  obtain ⟨tidy', perm⟩ := tidy.lose here (fun _ _ => rfl) linked places loses
  have chains : ([] ++ (rows.set i ⟨head, r.chain⟩).flatMap Row.chain).Perm
      ([] ++ rows.flatMap Row.chain) :=
    flatMap_set_perm here (fun _ _ _ _ => rfl) (List.Perm.refl _)
  exact ⟨⟨rfl, rfl, rfl, rfl, nBuckets_setHead _ _ head⟩, _, _, tidy', perm, chains.append_right _⟩

/-- A row loses an entry and a node, and the node is freed. -/
theorem Deleted.of_lose_node {q : ℕ} (tidy : Tidy k s.nodes s.table rows free [])
    (here : rows[i]? = some r) (same : ∀ p, p ∉ r.chain → nodes' p = s.nodes p)
    (linked : r'.Linked nodes') (nonzero : q ≠ 0) (places : (q :: r'.chain).Perm r.chain)
    (loses : (d :: r'.data nodes').Perm (r.data s.nodes)) :
    Deleted k s rows free d
      (freeEntry { s with nodes := nodes', table := s.table.setHead i r'.head } q) := by
  have places' : ([q] ++ r'.chain).Perm r.chain := places
  obtain ⟨tidy', perm⟩ := tidy.lose here same linked places' loses
  have unlinked : Tidy k (State.mk s.heap nodes' s.arrays (s.table.setHead i r'.head)).nodes
      (State.mk s.heap nodes' s.arrays (s.table.setHead i r'.head)).table (rows.set i r') free [q] := tidy'
  obtain ⟨tidy'', dataSame, -⟩ := unlinked.freeEntry nonzero
  refine ⟨⟨rfl, rfl, rfl, rfl, nBuckets_setHead _ _ _⟩, _, _, tidy'', by rw [dataSame]; exact perm, ?_⟩
  have chains : ([q] ++ (rows.set i r').flatMap Row.chain).Perm ([] ++ rows.flatMap Row.chain) :=
    flatMap_set_perm here (fun _ _ _ _ => rfl) places'
  exact List.perm_middle.trans (chains.append_right free)

/-- Making a node lead elsewhere changes no data. -/
theorem skipNode_data (nodes : ℕ → HashEntry) (cursor next p : ℕ) :
    (Function.update nodes cursor { nodes cursor with next := next } p).data = (nodes p).data := by
  rcases Decidable.em (p = cursor) with rfl | other
  · rw [Function.update_self]
  · rw [Function.update_of_ne other]

/-- A node may lead past the one behind it. -/
theorem Row.Linked.skip {before ys : List ℕ} {cursor q : ℕ} (linked : r.Linked nodes)
    (used : r.head.data ≠ 0) (nodup : r.chain.Nodup) (split : r.chain = before ++ cursor :: q :: ys) :
    (Row.mk r.head (before ++ cursor :: ys)).Linked
      (Function.update nodes cursor { nodes cursor with next := (nodes q).next }) := by
  have leads : Chain (link nodes) r.head.next (before ++ cursor :: q :: ys) := split ▸ linked.chain
  rw [split] at nodup
  have notBefore : ∀ p ∈ before, p ≠ cursor := fun p member =>
    (List.nodup_append.mp nodup).2.2 p member cursor (List.mem_cons_self ..)
  have notAfter : ∀ p ∈ ys, p ≠ cursor := fun p member equal =>
    (List.nodup_cons.mp (List.nodup_append.mp nodup).2.1).1
      (equal ▸ List.mem_cons_of_mem _ member)
  have after : Chain (link nodes) (nodes q).next ys := by
    have shifted : Chain (link nodes) r.head.next ((before ++ [cursor]) ++ q :: ys) := by
      simpa using leads
    exact shifted.suffix
  refine ⟨leads.join (after.frame fun p member => ?_) (fun p member => ?_) ?_,
    fun zero => absurd zero used, fun p member => ?_⟩
  · rw [link, link, Function.update_of_ne (notAfter p member)]
  · rw [link, link, Function.update_of_ne (notBefore p member)]
  · rw [link, Function.update_self]
  · rw [skipNode_data]
    apply linked.nonzero p
    rw [split]
    simp only [List.mem_append, List.mem_cons] at member ⊢
    rcases member with earlier | rfl | later
    · exact .inl earlier
    · exact .inr (.inl rfl)
    · exact .inr (.inr (.inr later))

/-- The entry of a head is deleted, and the first overflow node is bumped into the head. -/
theorem Deleted.of_head (tidy : Tidy k s.nodes s.table rows free []) (here : rows[i]? = some r)
    (used : r.head.data ≠ 0) :
    Deleted k s rows free r.head.data
      (if r.head.next ≠ 0 then freeEntry (s.setHead i (s.nodes r.head.next)) r.head.next
        else s.setHead i { r.head with data := 0 }) := by
  have linked := tidy.linked r (List.mem_of_getElem? here)
  have data : r.data s.nodes = r.head.data :: r.chain.map fun p => (s.nodes p).data := if_neg used
  by_cases more : r.head.next ≠ 0
  · rw [if_pos more]
    obtain ⟨ys, chain, rest⟩ := linked.chain.of_ne_zero more
    have listed : r.head.next ∈ r.chain := chain ▸ List.mem_cons_self ..
    have bumped : (Row.mk (s.nodes r.head.next) ys).Linked s.nodes :=
      ⟨rest, fun zero => absurd zero (linked.nonzero _ listed), fun p member =>
        linked.nonzero p (chain ▸ List.mem_cons_of_mem _ member)⟩
    refine Deleted.of_lose_node tidy here (fun _ _ => rfl) bumped more ?_ ?_
    · rw [chain]
    · rw [data, Row.data, if_neg (linked.nonzero _ listed), chain, List.map_cons]
  · rw [if_neg more]
    have none : r.chain = [] := by
      have last : r.head.next = 0 := Decidable.not_not.mp more
      exact (last ▸ linked.chain).of_zero
    refine Deleted.of_lose tidy here ⟨linked.chain, fun _ => none, linked.nonzero⟩ ?_
    rw [data, Row.data, if_pos rfl, none, List.map_nil]

/-- The entry of an overflow node is deleted, and what is before the node leads past it. -/
theorem Deleted.of_node {q : ℕ} {xs ys : List ℕ} (tidy : Tidy k s.nodes s.table rows free [])
    (here : rows[i]? = some r) (used : r.head.data ≠ 0) (chain : r.chain = xs ++ q :: ys) :
    Deleted k s rows free (s.nodes q).data
      (freeEntry (s.setNext i (xs.getLast?.or none) (s.nodes q).next) q) := by
  have linked := tidy.linked r (List.mem_of_getElem? here)
  have data : r.data s.nodes = r.head.data :: r.chain.map fun p => (s.nodes p).data := if_neg used
  have listed : q ∈ r.chain := chain ▸ List.mem_append_right _ (List.mem_cons_self ..)
  have nonzero := linked.chain.ne_zero listed
  have linkedChain := linked.chain
  rw [chain] at linkedChain
  have loses : ∀ {kept : List ℕ}, kept = xs ++ ys →
      ((s.nodes q).data :: r.head.data :: kept.map fun p => (s.nodes p).data).Perm
        (r.data s.nodes) := by
    rintro _ rfl
    rw [data, chain, List.map_append, List.map_append, List.map_cons]
    exact (List.Perm.swap _ _ _).trans (List.perm_middle.symm.cons _)
  rcases List.eq_nil_or_concat' xs with rfl | ⟨before, cursor, rfl⟩
  · -- The head leads past the node.
    have unlinked : (Row.mk { r.head with next := (s.nodes q).next } ys).Linked s.nodes :=
      ⟨linkedChain.2.2, fun zero => absurd zero used, fun p member =>
        linked.nonzero p (chain ▸ List.mem_cons_of_mem _ member)⟩
    have deleted := Deleted.of_lose_node tidy here (fun _ _ => rfl) unlinked nonzero
      (by rw [chain]; exact List.Perm.refl _)
      (by rw [Row.data, if_neg used]; exact loses rfl)
    simp only [State.setNext, State.setHead, tidy.head here, List.getLast?_nil, Option.or]
    exact deleted
  · -- The node before it leads past it.
    have last : (before ++ [cursor]).getLast?.or none = some cursor := by simp
    have split : r.chain = before ++ cursor :: q :: ys := by rw [chain]; simp
    have inChain : cursor ∈ r.chain := split ▸ List.mem_append_right _ (List.mem_cons_self ..)
    have dataSame := skipNode_data s.nodes cursor (s.nodes q).next
    have places : (q :: (before ++ cursor :: ys)).Perm r.chain := by
      rw [split]
      exact List.perm_middle.symm.trans ((List.Perm.swap _ _ _).append_left before)
    have deleted := Deleted.of_lose_node tidy here
      (fun p absent => Function.update_of_ne (fun equal : p = cursor => absent (equal ▸ inChain)) _ _)
      (linked.skip used (tidy.nodup_chain here) split) nonzero places
      (by
        rw [Row.data, if_neg used, List.map_congr_left fun p _ => dataSame p]
        exact loses (by simp))
    rw [setHead_self (by rw [tidy.bucket, List.getElem?_map, here]; rfl)] at deleted
    rw [last]
    exact deleted

/-- `hash_find_entry` with deletion. -/
theorem hashFindEntry_delete (fuel e : ℕ) (tidy : Tidy k s.nodes s.table rows free [])
    (respects : k.Respects) (nonempty : 0 < s.table.nBuckets) :
    Outcome (Stops k fuel (chained rows))
      (fun result =>
        (result.1 = 0 ∧ result.2.2 = s ∧ ∀ x ∈ contents s.nodes rows, k.matches e x = false) ∨
        (result.1 ≠ 0 ∧ k.matches e result.1 = true ∧ Deleted k s rows free result.1 result.2.2))
      (hashFindEntry k fuel s e true) := by
  refine (safeHasher_spec nonempty).bind fun slot ⟨hashed, inRange⟩ => ?_
  obtain ⟨r, here⟩ := tidy.row inRange
  have linked := tidy.linked r (List.mem_of_getElem? here)
  have nowhere := tidy.absent respects here hashed
  rw [tidy.head here]
  by_cases empty : r.head.data = 0
  · rw [if_pos empty]
    refine .inl ⟨rfl, rfl, nowhere ?_⟩
    rw [Row.data, if_pos empty]
    exact nofun
  rw [if_neg empty]
  by_cases first : k.matches e r.head.data = true
  · rw [if_pos first]
    exact .inr ⟨empty, first, Deleted.of_head tidy here empty⟩
  rw [if_neg first]
  refine ((scanOverflow_spec linked.chain fuel none).mono
    (fun _ stops => stops.mono (length_chain_le here)) fun _ found => found).bind ?_
  rintro result (⟨rfl, absent⟩ | ⟨xs, q, ys, chain, rfl, found⟩)
  · refine .inl ⟨rfl, rfl, nowhere fun x member => ?_⟩
    have data : r.data s.nodes = r.head.data :: r.chain.map fun p => (s.nodes p).data := if_neg empty
    rw [data] at member
    cases List.mem_cons.mp member with
    | inl head => exact head ▸ Bool.eq_false_iff.mpr first
    | inr node =>
      obtain ⟨p, listed, rfl⟩ := List.mem_map.mp node
      exact absent p listed
  · have listed : q ∈ r.chain := chain ▸ List.mem_append_right _ (List.mem_cons_self ..)
    exact .inr ⟨linked.nonzero q listed, found, Deleted.of_node tidy here empty chain⟩

end Yalibct.Hash

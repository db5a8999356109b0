import Mathlib.Data.Nat.Bitwise
import Mathlib.Tactic.SplitIfs
import Yalibct.Model.Obstack

/-! # Obstacks keep their objects

Every finished object stays where it is and keeps its bytes until it or an older one is freed, and
the growing object keeps its bytes wherever it moves. All stores stay in the current chunk, and no
chunk is freed twice. This needs a first chunk that has room for its header and the alignment,
which `_obstack_begin_worker` does not check; `_obstack_newchunk` makes its chunks large enough.
-/

namespace Yalibct.Obstack

open Machine

/-! ## Pointer arithmetic -/

private theorem ptrSub_of_le {p q : ℕ} (le : q ≤ p) : ptrSub p q = p - q := if_pos le

private theorem clear_low_bits {x k : ℕ} (bound : x < 2 ^ 64) (small : k ≤ 64) :
    x &&& (2 ^ 64 - (2 ^ k - 1 + 1)) = x / 2 ^ k * 2 ^ k := by
  have positive := Nat.two_pow_pos k
  have low : 2 ^ k - 1 < 2 ^ 64 := by
    have := Nat.pow_le_pow_right (by decide : 0 < 2) small
    omega
  apply Nat.eq_of_testBit_eq
  intro i
  rw [Nat.testBit_and, Nat.testBit_two_pow_sub_succ low, Nat.testBit_two_pow_sub_one,
    Nat.testBit_mul_two_pow, Nat.testBit_div_two_pow]
  by_cases bit : k ≤ i
  · by_cases high : i < 64
    · simp [bit, high, Nat.sub_add_cancel bit]
    · have zero : x.testBit i = false := Nat.testBit_lt_two_pow
        (Nat.lt_of_lt_of_le bound (Nat.pow_le_pow_right (by decide) (by omega)))
      simp [zero, Nat.sub_add_cancel bit]
  · simp [bit, Nat.lt_of_not_le bit]

/-- Rounding up to a power of two stays in the next full step, or wraps to zero. -/
theorem ptrAlign_cases {p k : ℕ} (bound : p < 2 ^ 64) (small : k < 64) :
    (p ≤ ptrAlign p (2 ^ k - 1) ∧ ptrAlign p (2 ^ k - 1) ≤ p + (2 ^ k - 1) ∧ p + (2 ^ k - 1) < 2 ^ 64) ∨
    (ptrAlign p (2 ^ k - 1) = 0 ∧ 2 ^ 64 ≤ p + (2 ^ k - 1)) := by
  have positive := Nat.two_pow_pos k
  have step : 2 ^ k ≤ 2 ^ 63 := Nat.pow_le_pow_right (by decide) (by omega)
  have below : sizeT (p + (2 ^ k - 1)) < 2 ^ 64 := by
    rw [sizeT_eq]
    exact Nat.mod_lt _ (by decide)
  rw [ptrAlign, clear_low_bits below (Nat.le_of_lt small)]
  by_cases wraps : p + (2 ^ k - 1) < 2 ^ 64
  · rw [sizeT_of_lt wraps]
    have parts := Nat.div_add_mod (p + (2 ^ k - 1)) (2 ^ k)
    have rest := Nat.mod_lt (p + (2 ^ k - 1)) positive
    rw [Nat.mul_comm] at parts
    refine .inl ⟨?_, ?_, wraps⟩ <;> omega
  · refine .inr ⟨?_, by omega⟩
    have rest : sizeT (p + (2 ^ k - 1)) < 2 ^ k := by
      rw [sizeT_eq]
      omega
    rw [Nat.div_eq_of_lt rest, Nat.zero_mul]

/-! ## The invariant -/

/-- Where the objects of a chunk begin. -/
def floor (mask : ℕ) (c : Block) : ℕ := ptrAlign (c.addr + contents) mask

/-- From an address on, the headers lead through the chunks. -/
def Linked (mem : Memory) : ℕ → List Block → Prop
  | lp, [] => lp = 0
  | lp, c :: cs => lp = c.addr ∧ wordOf (mem.read (c.addr + limitField) 8) = c.limit ∧
      Linked mem (wordOf (mem.read (c.addr + prevField) 8)) cs

/-- Live chunks with room for a header and the alignment, apart from each other. -/
structure Chunks (mask : ℕ) (heap : Heap) (cs : List Block) : Prop where
  wf : heap.WellFormed
  power : ∃ k < 64, mask = 2 ^ k - 1
  live : ∀ c ∈ cs, c ∈ heap.blocks
  apart : cs.Pairwise Block.Apart
  roomy : ∀ c ∈ cs, c.addr + contents ≤ floor mask c ∧ floor mask c ≤ c.limit

/-- The heap and the obstack agree with the client's record, the current chunk coming first. -/
structure State.Valid (s : State) (c : Block) (cs : List Block) : Prop
    extends Chunks s.obstack.alignmentMask s.heap (c :: cs) where
  linked : Linked s.heap.bytes s.obstack.chunk (c :: cs)
  limit : s.obstack.chunkLimit = c.limit
  base : floor s.obstack.alignmentMask c ≤ s.obstack.objectBase
  next : s.obstack.objectBase ≤ s.obstack.nextFree
  room : s.obstack.nextFree ≤ c.limit
  length : s.obstack.objectBase + s.growing.length = s.obstack.nextFree
  growing : s.heap.bytes.read s.obstack.objectBase s.growing.length = s.growing
  stacked : Stacked (floor s.obstack.alignmentMask) (c :: cs) s.obstack.objectBase s.finished
  held : ∀ o ∈ s.finished, o.Held s.heap.bytes
  empty : s.obstack.maybeEmptyObject = false → ∀ o ∈ s.finished, o.bytes = [] →
    ¬ (floor s.obstack.alignmentMask c ≤ o.addr ∧ o.addr ≤ c.limit)

/-- A store within a chunk. -/
def Inside (c w : Block) : Prop := c.addr ≤ w.addr ∧ w.limit ≤ c.limit

variable {s : State} {c : Block} {cs : List Block}

/-- The headers are all that the links depend on. -/
theorem Linked.frame {mem mem' : Memory} {lp : ℕ} (linked : Linked mem lp cs)
    (same : ∀ c ∈ cs, ∀ i, c.addr ≤ i → i < c.addr + contents → mem' i = mem i) :
    Linked mem' lp cs := by
  induction cs generalizing lp with
  | nil => exact linked
  | cons c cs ih =>
    obtain ⟨here, limit, rest⟩ := linked
    have header := same c (List.mem_cons_self ..)
    have first : mem'.read (c.addr + limitField) 8 = mem.read (c.addr + limitField) 8 :=
      Memory.read_congr fun i lower upper => header i (by simp only [limitField] at lower; omega)
        (by simp only [limitField, contents] at upper ⊢; omega)
    have second : mem'.read (c.addr + prevField) 8 = mem.read (c.addr + prevField) 8 :=
      Memory.read_congr fun i lower upper => header i (by simp only [prevField] at lower; omega)
        (by simp only [prevField, contents] at upper ⊢; omega)
    refine ⟨here, by rw [first]; exact limit, ?_⟩
    rw [second]
    exact ih rest fun d member => same d (List.mem_cons_of_mem _ member)

theorem Linked.suffix {mem : Memory} {lp : ℕ} {latest rest : List Block}
    (linked : Linked mem lp (latest ++ c :: rest)) : Linked mem c.addr (c :: rest) := by
  induction latest generalizing lp with
  | nil => exact ⟨rfl, linked.2⟩
  | cons e latest ih => exact ih linked.2.2

/-- A link is the address of a chunk, or zero. -/
theorem Linked.bound {heap : Heap} {lp : ℕ} {mem : Memory} (linked : Linked mem lp cs)
    (wf : heap.WellFormed) (live : ∀ c ∈ cs, c ∈ heap.blocks) : lp < 2 ^ 64 := by
  cases cs with
  | nil =>
    have zero : lp = 0 := linked
    omega
  | cons c cs =>
    have placed := wf.placed c (live c (List.mem_cons_self ..))
    have here := linked.1
    simp only [Block.limit] at placed
    omega

namespace State.Valid

theorem chunk (valid : s.Valid c cs) : s.obstack.chunk = c.addr := valid.linked.1

theorem current (valid : s.Valid c cs) : c ∈ s.heap.blocks := valid.live c (List.mem_cons_self ..)

/-- The current chunk lies in the address space. -/
theorem bounds (valid : s.Valid c cs) : 0 < c.addr ∧ c.limit < 2 ^ 64 := by
  obtain ⟨positive, -, bound⟩ := valid.wf.placed c valid.current
  exact ⟨positive, bound⟩

theorem objSize (valid : s.Valid c cs) :
    ptrSub s.obstack.nextFree s.obstack.objectBase = s.growing.length := by
  have length := valid.length
  rw [ptrSub_of_le valid.next]
  omega

theorem roomLeft (valid : s.Valid c cs) : obstackRoom s.obstack = c.limit - s.obstack.nextFree := by
  rw [obstackRoom, valid.limit, ptrSub_of_le valid.room]

/-- The current chunk is apart from the older ones. -/
theorem apart_current (valid : s.Valid c cs) : ∀ d ∈ cs, c.Apart d :=
  (List.pairwise_cons.mp valid.apart).1

theorem linked_current (valid : s.Valid c cs) : Linked s.heap.bytes c.addr (c :: cs) :=
  valid.chunk ▸ valid.linked

/-- A finished object lies below the growing one in the current chunk, or in an older chunk. -/
theorem placed (valid : s.Valid c cs) {o : Object} (member : o ∈ s.finished) :
    (floor s.obstack.alignmentMask c ≤ o.addr ∧ o.limit ≤ s.obstack.objectBase) ∨
      ∃ d ∈ cs, o.Within (floor s.obstack.alignmentMask) d := valid.stacked.placed member

/-- Objects only depend on what lies below them in the current chunk and on the older chunks. -/
theorem held_frame (valid : s.Valid c cs) {mem : Memory}
    (here : ∀ i, c.addr ≤ i → i < s.obstack.objectBase → mem i = s.heap.bytes i)
    (there : ∀ d ∈ cs, ∀ i, d.addr ≤ i → i < d.limit → mem i = s.heap.bytes i) :
    ∀ o ∈ s.finished, o.Held mem := by
  intro o member
  have same : mem.read o.addr o.bytes.length = s.heap.bytes.read o.addr o.bytes.length := by
    apply Memory.read_congr
    intro i lower upper
    rcases valid.placed member with ⟨base, bound⟩ | ⟨d, listed, base, bound⟩
    · have roomy := valid.roomy c (List.mem_cons_self ..)
      exact here i (by omega) (by simp only [Object.limit] at bound; omega)
    · have roomy := valid.roomy d (List.mem_cons_of_mem _ listed)
      exact there d listed i (by omega) (by simp only [Object.limit] at bound; omega)
  rw [Object.Held, same]
  exact valid.held o member

end State.Valid

/-! ## A new chunk -/

/-- The heap once the header of a new block is written. -/
def headed (heap : Heap) (new : Block) (prev : ℕ) : Heap :=
  (heap.stored (new.addr + prevField) (wordBytes prev)).stored (new.addr + limitField)
    (wordBytes new.limit)

/-- The heap once the object is copied behind that header. -/
def moved (heap : Heap) (new : Block) (prev base : ℕ) (object : List UInt8) : Heap :=
  (headed heap new prev).stored base object

section moved

variable {heap : Heap} {new : Block} {prev base : ℕ} {object : List UInt8}

private theorem headed_outside (roomy : new.addr + contents ≤ new.limit) {i : ℕ}
    (outside : i < new.addr ∨ new.limit ≤ i) : (headed heap new prev).bytes i = heap.bytes i := by
  simp only [contents] at roomy
  simp only [headed, Heap.stored_bytes, limitField, prevField]
  rw [Memory.write_outside (by rw [length_wordBytes]; omega),
    Memory.write_outside (by rw [length_wordBytes]; omega)]

private theorem moved_outside (low : new.addr + contents ≤ base) (high : base + object.length ≤ new.limit)
    {i : ℕ} (outside : i < new.addr ∨ new.limit ≤ i) :
    (moved heap new prev base object).bytes i = heap.bytes i := by
  simp only [moved, Heap.stored_bytes]
  rw [Memory.write_outside (by omega), headed_outside (by omega) outside]

private theorem moved_limit (low : new.addr + contents ≤ base) (bound : new.limit < 2 ^ 64) :
    wordOf ((moved heap new prev base object).bytes.read (new.addr + limitField) 8) = new.limit := by
  simp only [contents] at low
  simp only [moved, headed, Heap.stored_bytes]
  rw [Memory.read_write_apart (by simp only [limitField]; omega)]
  exact (congrArg wordOf (Memory.read_write_same _ _ (wordBytes new.limit))).trans
    (wordOf_wordBytes bound)

private theorem moved_prev (low : new.addr + contents ≤ base) (bound : prev < 2 ^ 64) :
    wordOf ((moved heap new prev base object).bytes.read (new.addr + prevField) 8) = prev := by
  simp only [contents] at low
  simp only [moved, headed, Heap.stored_bytes]
  rw [Memory.read_write_apart (by simp only [prevField]; omega),
    Memory.read_write_apart (by simp only [prevField, limitField, length_wordBytes]; omega)]
  exact (congrArg wordOf (Memory.read_write_same _ _ (wordBytes prev))).trans (wordOf_wordBytes bound)

private theorem moved_object : (moved heap new prev base object).bytes.read base object.length = object :=
  Memory.read_write_same _ _ _

/-- The stores of `moved` stay in the new block. -/
theorem moved_writes (low : new.addr + contents ≤ base) (high : base + object.length ≤ new.limit)
    {w : Block} (member : w ∈ (moved heap new prev base object).writes) :
    w ∈ heap.writes ∨ Inside new w := by
  simp only [contents] at low
  simp only [moved, headed, Heap.stored_writes, List.mem_cons] at member
  rcases member with rfl | rfl | rfl | old
  · exact .inr ⟨by change new.addr ≤ base; omega, high⟩
  · exact .inr ⟨by simp only [limitField]; omega,
      by simp only [Block.limit, limitField, length_wordBytes] at high ⊢; omega⟩
  · exact .inr ⟨by simp only [prevField]; omega,
      by simp only [Block.limit, prevField, length_wordBytes] at high ⊢; omega⟩
  · exact .inl old

end moved

/-- The new chunk holds the object, `length` more bytes, the header and the alignment. -/
theorem newchunkSize_spec (h : Obstack) {objSize length : ℕ}
    (fits : objSize + length + h.alignmentMask + objSize / 8 + 100 < 2 ^ 64) :
    ∃ size, newchunkSize h objSize length = some size ∧
      objSize + length + h.alignmentMask + 100 ≤ size := by
  have large : ¬ objSize + length + h.alignmentMask + objSize / 8 + 100 <
      objSize + length + h.alignmentMask := by omega
  simp only [newchunkSize]
  rw [sizeT_of_lt (show objSize + length < 2 ^ 64 by omega),
    sizeT_of_lt (show objSize + length + h.alignmentMask < 2 ^ 64 by omega),
    sizeT_of_lt fits, if_neg large, if_pos (by omega)]
  split_ifs
  · exact ⟨_, rfl, by omega⟩
  · exact ⟨_, rfl, by omega⟩

/-- What the growing macros ask `_obstack_newchunk` for does not overflow. -/
def Fits (s : State) (length : ℕ) : Prop := Event.Fits.requested s length < 2 ^ 64

/-- A new chunk that holds the growing object and leads to chunks that hold the finished ones. -/
theorem State.Valid.moveTo (valid : s.Valid c cs) {heap : Heap} {new : Block} {rest : List Block}
    {prev : ℕ} (chunks : Chunks s.obstack.alignmentMask heap (new :: rest))
    (fits : floor s.obstack.alignmentMask new + s.growing.length ≤ new.limit)
    (outside : ∀ i, i < new.addr ∨ new.limit ≤ i → heap.bytes i = s.heap.bytes i)
    (limitWord : wordOf (heap.bytes.read (new.addr + limitField) 8) = new.limit)
    (prevWord : wordOf (heap.bytes.read (new.addr + prevField) 8) = prev)
    (object : heap.bytes.read (floor s.obstack.alignmentMask new) s.growing.length = s.growing)
    (linked : Linked s.heap.bytes prev rest)
    (stacked : Stacked (floor s.obstack.alignmentMask) rest (topOf rest) s.finished) :
    State.Valid { s with
      heap := heap
      obstack := { s.obstack with
        chunk := new.addr
        chunkLimit := new.limit
        objectBase := floor s.obstack.alignmentMask new
        nextFree := floor s.obstack.alignmentMask new + s.growing.length
        maybeEmptyObject := false } } new rest := by
  have apart := (List.pairwise_cons.mp chunks.apart).1
  have roomy := fun d (member : d ∈ rest) => chunks.roomy d (List.mem_cons_of_mem _ member)
  have newRoomy := chunks.roomy new (List.mem_cons_self ..)
  refine ⟨chunks, ⟨rfl, limitWord, ?_⟩, rfl, Nat.le_refl _, Nat.le_add_right _ _, fits, rfl, object,
    .block stacked, ?_, ?_⟩
  · rw [prevWord]
    refine linked.frame fun d member i lower upper => outside i ?_
    have across := apart d member
    have room := roomy d member
    simp only [Block.Apart] at across
    omega
  · intro o member
    obtain ⟨d, listed, base, bound⟩ := stacked.within (Nat.le_refl _) member
    have across := apart d listed
    have room := roomy d listed
    have same : heap.bytes.read o.addr o.bytes.length = s.heap.bytes.read o.addr o.bytes.length := by
      apply Memory.read_congr
      intro i lower upper
      simp only [Block.Apart, Object.limit] at across bound
      exact outside i (by omega)
    rw [Object.Held, same]
    exact valid.held o member
  · intro _ o member empty
    obtain ⟨d, listed, base, bound⟩ := stacked.within (Nat.le_refl _) member
    have across := apart d listed
    have room := roomy d listed
    simp only [Object.limit, empty, List.length_nil, Nat.add_zero, Block.Apart, contents] at *
    omega

/-- A block with room for the alignment has its floor behind its header. -/
theorem floor_bounds {mask : ℕ} (power : ∃ k < 64, mask = 2 ^ k - 1) {new : Block}
    (bound : new.limit < 2 ^ 64) (enough : mask + 100 ≤ new.size) :
    new.addr + contents ≤ floor mask new ∧ floor mask new ≤ new.addr + contents + mask := by
  obtain ⟨k, small, rfl⟩ := power
  simp only [Block.limit] at bound
  have inSpace : new.addr + contents < 2 ^ 64 := by
    simp only [contents]
    omega
  rcases ptrAlign_cases inSpace small with ⟨low, high, -⟩ | ⟨-, wraps⟩
  · exact ⟨low, high⟩
  · simp only [contents] at wraps
    omega

/-- A block that the heap grants for a new chunk, with room for the growing object. -/
structure NewBlock (s : State) (new : Block) (g : Heap) : Prop where
  wf : g.WellFormed
  member : new ∈ g.blocks
  kept : ∀ d ∈ s.heap.blocks, d ∈ g.blocks
  bound : new.limit < 2 ^ 64
  apart : ∀ d ∈ s.heap.blocks, d.Apart new
  same : ∀ i, i < new.addr ∨ new.limit ≤ i → g.bytes i = s.heap.bytes i
  low : new.addr + contents ≤ floor s.obstack.alignmentMask new
  high : floor s.obstack.alignmentMask new + s.growing.length ≤ new.limit

/-- How `_obstack_newchunk` runs when its request is granted. -/
theorem newchunk_granted (a : Allocator) (valid : s.Valid c cs) {length : ℕ} {new : Block}
    (sized : newchunkSize s.obstack s.growing.length length = some new.size) {g : Heap}
    (granted : s.heap.malloc a new.size = (some new.addr, g)) (block : NewBlock s new g) :
    let base := floor s.obstack.alignmentMask new
    let heap := moved g new c.addr base s.growing
    let prev := wordOf (s.heap.bytes.read (c.addr + prevField) 8)
    let bare := s.obstack.maybeEmptyObject = false ∧ s.obstack.objectBase = floor s.obstack.alignmentMask c
    obstackNewchunk a s.heap s.obstack length =
      .ok (if bare then (heap.stored (new.addr + prevField) (wordBytes prev)).released c.addr else heap,
        { s.obstack with
          chunk := new.addr
          chunkLimit := new.limit
          objectBase := base
          nextFree := base + s.growing.length
          maybeEmptyObject := false }) := by
  intro base heap prev bare
  obtain ⟨-, member, keptAll, bound, apartAll, same, low, high⟩ := block
  have kept := keptAll c valid.current
  have apart := apartAll c valid.current
  have roomy := valid.roomy c (List.mem_cons_self ..)
  have base_le := valid.base
  have room := valid.room
  have length_eq := valid.length
  have newRoomy : new.addr + contents ≤ new.limit := by omega
  have limit : sizeT (new.addr + new.size) = new.limit := sizeT_of_lt bound
  have next : sizeT (base + s.growing.length) = base + s.growing.length := sizeT_of_lt (by omega)
  have header : new.addr + 16 ≤ new.limit ∧ c.addr + 16 ≤ c.limit := by
    simp only [contents] at newRoomy roomy
    omega
  have store₁ : g.storeWord (new.addr + prevField) c.addr =
      .ok (g.stored (new.addr + prevField) (wordBytes c.addr)) :=
    Heap.write_of_mem member (Nat.le_add_right _ _) (by simp only [prevField, length_wordBytes]; omega)
  have store₂ : (g.stored (new.addr + prevField) (wordBytes c.addr)).storeWord (new.addr + limitField)
      new.limit = .ok (headed g new c.addr) :=
    Heap.write_of_mem (b := new) member (Nat.le_add_right _ _)
      (by simp only [limitField, length_wordBytes]; omega)
  have sameHeaded : ∀ i, c.addr ≤ i → i < c.limit → (headed g new c.addr).bytes i = s.heap.bytes i := by
    intro i lower upper
    simp only [Block.Apart] at apart
    rw [headed_outside newRoomy (by omega), same i (by omega)]
  have load : (headed g new c.addr).read s.obstack.objectBase s.growing.length = .ok s.growing := by
    have here : c ∈ (headed g new c.addr).blocks := kept
    rw [Heap.read_of_mem here (by omega) (by omega),
      Memory.read_congr (fun i lower upper => sameHeaded i (by omega) (by omega)), valid.growing]
  have store₃ : (headed g new c.addr).write base s.growing = .ok heap :=
    Heap.write_of_mem (b := new) member (by omega) high
  have loadPrev : heap.loadWord (c.addr + prevField) = .ok prev := by
    have here : c ∈ heap.blocks := kept
    rw [Heap.loadWord_of_mem here (Nat.le_add_right _ _) (by simp only [prevField]; omega)]
    congr 2
    apply Memory.read_congr
    intro i lower upper
    simp only [Block.Apart, prevField] at apart upper
    rw [moved_outside low high (by omega), same i (by omega)]
  have store₄ : heap.storeWord (new.addr + prevField) prev =
      .ok (heap.stored (new.addr + prevField) (wordBytes prev)) :=
    Heap.write_of_mem (b := new) member (Nat.le_add_right _ _)
      (by simp only [prevField, length_wordBytes]; omega)
  have release : (heap.stored (new.addr + prevField) (wordBytes prev)).free c.addr =
      .ok ((heap.stored (new.addr + prevField) (wordBytes prev)).released c.addr) :=
    Heap.free_of_mem kept
  have floorBase : ptrAlign (new.addr + contents) s.obstack.alignmentMask = base := rfl
  have floorOld : ptrAlign (c.addr + contents) s.obstack.alignmentMask =
    floor s.obstack.alignmentMask c := rfl
  simp only [obstackNewchunk, valid.objSize, sized, granted, valid.chunk, bind, Except.bind, store₁,
    limit, store₂, floorBase, load, store₃, floorOld, next]
  by_cases alone : bare
  · rw [if_pos alone, if_pos alone]
    simp only [loadPrev, store₄, release]
  · rw [if_neg alone, if_neg alone]

namespace NewBlock

variable {new : Block} {g : Heap} {rest : List Block}

theorem roomy (block : NewBlock s new g) : new.addr + contents ≤ floor s.obstack.alignmentMask new ∧
    floor s.obstack.alignmentMask new ≤ new.limit :=
  ⟨block.low, Nat.le_of_add_right_le block.high⟩

/-- The new block and chunks of the old heap are chunks of a heap that has them. -/
theorem chunks (block : NewBlock s new g) (valid : s.Valid c cs) {heap : Heap} (wf : heap.WellFormed)
    (sub : rest.Sublist (c :: cs)) (live : ∀ d ∈ new :: rest, d ∈ g.blocks → d ∈ heap.blocks) :
    Chunks s.obstack.alignmentMask heap (new :: rest) := by
  have old : ∀ d ∈ rest, d ∈ s.heap.blocks := fun d listed => valid.live d (sub.subset listed)
  refine ⟨wf, valid.power, fun d listed => live d listed ?_, ?_, fun d listed => ?_⟩
  · cases List.mem_cons.mp listed with
    | inl here => exact here ▸ block.member
    | inr older => exact block.kept d (old d older)
  · exact List.pairwise_cons.mpr ⟨fun d listed => (block.apart d (old d listed)).symm, valid.apart.sublist sub⟩
  · cases List.mem_cons.mp listed with
    | inl here => exact here ▸ block.roomy
    | inr older => exact valid.roomy d (sub.subset older)

/-- The object has moved, and the new chunk leads to the old one. -/
theorem chained (block : NewBlock s new g) (valid : s.Valid c cs) :
    State.Valid { s with
      heap := moved g new c.addr (floor s.obstack.alignmentMask new) s.growing
      obstack := { s.obstack with
        chunk := new.addr
        chunkLimit := new.limit
        objectBase := floor s.obstack.alignmentMask new
        nextFree := floor s.obstack.alignmentMask new + s.growing.length
        maybeEmptyObject := false } } new (c :: cs) := by
  have wf := ((block.wf.stored (new.addr + prevField) (wordBytes c.addr)).stored (new.addr + limitField)
    (wordBytes new.limit)).stored (floor s.obstack.alignmentMask new) s.growing
  have chunks := block.chunks valid wf (.refl _) fun _ _ live => live
  refine valid.moveTo chunks block.high ?_ ?_ ?_ moved_object valid.linked_current (valid.stacked.mono ?_)
  · intro i outside
    rw [moved_outside block.low block.high outside, block.same i outside]
  · exact moved_limit block.low block.bound
  · exact moved_prev block.low (by have := valid.bounds; simp only [Block.limit] at this; omega)
  · exact Nat.le_trans valid.next valid.room

/-- The object has moved, and the old chunk is freed: no finished object is left in it. One would be
empty, and the flag excludes it. -/
theorem replaced (block : NewBlock s new g) (valid : s.Valid c cs)
    (bare : s.obstack.maybeEmptyObject = false ∧ s.obstack.objectBase = floor s.obstack.alignmentMask c) :
    State.Valid { s with
      heap := ((moved g new c.addr (floor s.obstack.alignmentMask new) s.growing).stored (new.addr + prevField)
        (wordBytes (wordOf (s.heap.bytes.read (c.addr + prevField) 8)))).released c.addr
      obstack := { s.obstack with
        chunk := new.addr
        chunkLimit := new.limit
        objectBase := floor s.obstack.alignmentMask new
        nextFree := floor s.obstack.alignmentMask new + s.growing.length
        maybeEmptyObject := false } } new cs := by
  have linked := valid.linked.2.2
  have header : new.addr + 16 ≤ floor s.obstack.alignmentMask new := block.low
  have room := block.high
  have wf := (((block.wf.stored (new.addr + prevField) (wordBytes c.addr)).stored (new.addr + limitField)
    (wordBytes new.limit)).stored (floor s.obstack.alignmentMask new) s.growing).stored (new.addr + prevField)
    (wordBytes (wordOf (s.heap.bytes.read (c.addr + prevField) 8)))
  have chunks := block.chunks valid (wf.released c.addr) (List.sublist_cons_self c cs) fun d listed live => by
    have apartOld : d.Apart c := by
      cases List.mem_cons.mp listed with
      | inl here => exact here ▸ (block.apart c valid.current).symm
      | inr older => exact (valid.apart_current d older).symm
    exact Heap.mem_released_of_apart wf live apartOld (block.kept c valid.current)
  have small := linked.bound valid.wf fun d listed => valid.live d (List.mem_cons_of_mem _ listed)
  refine valid.moveTo chunks block.high ?_ ?_ ?_ ?_ linked ?_
  · intro i outside
    simp only [Heap.released_bytes, Heap.stored_bytes]
    rw [Memory.write_outside (by rw [length_wordBytes, prevField]; omega),
      moved_outside block.low block.high outside, block.same i outside]
  · simp only [Heap.released_bytes, Heap.stored_bytes]
    rw [Memory.read_write_apart (by rw [limitField, prevField]; omega), moved_limit block.low block.bound]
  · exact (congrArg wordOf (Memory.read_write_same _ _ (wordBytes _))).trans (wordOf_wordBytes small)
  · simp only [Heap.released_bytes, Heap.stored_bytes]
    rw [Memory.read_write_apart (by rw [length_wordBytes, prevField]; omega), moved_object]
  · refine valid.stacked.older_of_bare bare.2 fun o listed empty here => ?_
    have roomy := valid.roomy c (List.mem_cons_self ..)
    exact valid.empty bare.1 o listed empty ⟨by omega, by omega⟩

end NewBlock

/-- The object has moved to a new chunk, and the old one is still there or held nothing else. -/
theorem newchunk_spec (a : Allocator) (valid : s.Valid c cs) {length : ℕ} (fits : Fits s length) :
    obstackNewchunk a s.heap s.obstack length = .error .refused ∨
    ∃ heap h new rest, obstackNewchunk a s.heap s.obstack length = .ok (heap, h) ∧
      State.Valid { s with heap := heap, obstack := h } new rest ∧ h.nextFree + length ≤ new.limit ∧
      (∀ w ∈ heap.writes, w ∈ s.heap.writes ∨ Inside new w) ∧
      h.alignmentMask = s.obstack.alignmentMask := by
  simp only [Fits, Event.Fits.requested, valid.objSize] at fits
  obtain ⟨size, sized, enough⟩ := newchunkSize_spec s.obstack fits
  rcases Heap.malloc_cases a valid.wf size with
    ⟨addr, -, granted, wf, nonempty, apart⟩ | ⟨-, refused⟩
  · right
    let new : Block := ⟨addr, size⟩
    let g := s.heap.grant (a.holds s.heap.calls) new
    have member : new ∈ g.blocks := List.mem_cons_self ..
    have bound : new.limit < 2 ^ 64 := (wf.placed new member).2.2
    obtain ⟨low, top⟩ := floor_bounds valid.power bound (show _ ≤ size by omega)
    have high : floor s.obstack.alignmentMask new + s.growing.length + length ≤ new.limit := by
      simp only [contents] at top
      change _ ≤ addr + size
      change _ ≤ addr + 16 + _ at top
      omega
    have block : NewBlock s new g := ⟨wf, member, fun d old => List.mem_cons_of_mem _ old, bound, apart,
      fun i outside => if_neg (by omega), low, by omega⟩
    have run := newchunk_granted a valid sized granted block
    refine ⟨_, _, new, if s.obstack.maybeEmptyObject = false ∧
      s.obstack.objectBase = floor s.obstack.alignmentMask c then cs else c :: cs, run, ?_, high, ?_, rfl⟩
    · by_cases bare : s.obstack.maybeEmptyObject = false ∧
          s.obstack.objectBase = floor s.obstack.alignmentMask c
      · rw [if_pos bare, if_pos bare]
        exact block.replaced valid bare
      · rw [if_neg bare, if_neg bare]
        exact block.chained valid
    · intro w stored
      have kept_writes : w ∈ (moved g new c.addr (floor s.obstack.alignmentMask new) s.growing).writes →
          w ∈ s.heap.writes ∨ Inside new w := moved_writes low block.high
      split_ifs at stored with bare
      · simp only [Heap.released_writes, Heap.stored_writes, List.mem_cons] at stored
        rcases stored with rfl | stored
        · have header : new.addr + 16 ≤ floor s.obstack.alignmentMask new := low
          refine .inr ⟨Nat.le_add_right _ _, ?_⟩
          change new.addr + 8 + 8 ≤ new.limit
          omega
        · exact kept_writes stored
      · exact kept_writes stored
  · left
    simp only [obstackNewchunk, valid.objSize, sized, refused]

/-! ## The other operations -/

/-- The growing macros make their room, or the request is refused. -/
theorem ensureRoom_spec (a : Allocator) (valid : s.Valid c cs) {length : ℕ} (fits : Fits s length) :
    obstackEnsureRoom a s.heap s.obstack length = .error .refused ∨
    ∃ heap h new rest, obstackEnsureRoom a s.heap s.obstack length = .ok (heap, h) ∧
      State.Valid { s with heap := heap, obstack := h } new rest ∧ h.nextFree + length ≤ new.limit ∧
      (∀ w ∈ heap.writes, w ∈ s.heap.writes ∨ Inside new w) ∧
      h.alignmentMask = s.obstack.alignmentMask := by
  unfold obstackEnsureRoom
  rw [valid.roomLeft]
  by_cases short : c.limit - s.obstack.nextFree < length
  · rw [if_pos short]
    exact newchunk_spec a valid fits
  · rw [if_neg short]
    have room := valid.room
    exact .inr ⟨s.heap, s.obstack, c, cs, rfl, valid, by omega, fun w stored => .inl stored, rfl⟩

/-- The growing object takes the bytes behind it. -/
theorem State.Valid.extend (valid : s.Valid c cs) (heap : Heap) (data : List UInt8)
    (room : s.obstack.nextFree + data.length ≤ c.limit) (wf : heap.WellFormed)
    (blocks : heap.blocks = s.heap.blocks)
    (outside : ∀ i, i < s.obstack.nextFree ∨ s.obstack.nextFree + data.length ≤ i →
      heap.bytes i = s.heap.bytes i)
    (stored : heap.bytes.read s.obstack.nextFree data.length = data) :
    State.Valid { s with
      heap := heap
      obstack := obstackBlankFast s.obstack data.length
      growing := s.growing ++ data } c cs := by
  have bound := valid.bounds
  have base := valid.base
  have next := valid.next
  have length := valid.length
  have roomy := valid.roomy c (List.mem_cons_self ..)
  have moved : obstackBlankFast s.obstack data.length =
      { s.obstack with nextFree := s.obstack.nextFree + data.length } := by
    rw [obstackBlankFast, sizeT_of_lt (by omega)]
  -- The older chunks and what lies below the growing object are untouched.
  have here : ∀ i, c.addr ≤ i → i < s.obstack.nextFree → heap.bytes i = s.heap.bytes i :=
    fun i _ upper => outside i (.inl upper)
  have there : ∀ d ∈ cs, ∀ i, d.addr ≤ i → i < d.limit → heap.bytes i = s.heap.bytes i := by
    intro d listed i lower upper
    have apart := valid.apart_current d listed
    simp only [Block.Apart] at apart
    exact outside i (by omega)
  rw [moved]
  refine ⟨⟨wf, valid.power, fun d listed => blocks ▸ valid.live d listed, valid.apart, valid.roomy⟩,
    valid.linked.frame ?_, valid.limit, base, Nat.le_trans next (Nat.le_add_right _ _), room, ?_, ?_,
    valid.stacked, valid.held_frame (fun i lower upper => here i lower (by omega)) there, valid.empty⟩
  · intro d listed i lower upper
    cases List.mem_cons.mp listed with
    | inl current =>
      subst current
      exact here i lower (by omega)
    | inr older =>
      have room := valid.roomy d listed
      exact there d older i lower (by omega)
  · change s.obstack.objectBase + (s.growing ++ data).length = s.obstack.nextFree + data.length
    rw [List.length_append]
    omega
  · change heap.bytes.read s.obstack.objectBase (s.growing ++ data).length = s.growing ++ data
    rw [List.length_append, Memory.read_add, length, stored,
      Memory.read_congr (fun i lower upper => here i (by omega) (by omega)), valid.growing]

theorem grow_spec (a : Allocator) (valid : s.Valid c cs) {data : List UInt8} (fits : Fits s data.length) :
    obstackGrow a s.heap s.obstack data = .error .refused ∨
    ∃ heap h new rest, obstackGrow a s.heap s.obstack data = .ok (heap, h) ∧
      State.Valid { s with heap := heap, obstack := h, growing := s.growing ++ data } new rest ∧
      ∀ w ∈ heap.writes, w ∈ s.heap.writes ∨ Inside new w := by
  rcases ensureRoom_spec a valid fits with
    refused | ⟨heap, h, new, rest, ensured, valid', room, writes, -⟩
  · left
    simp only [obstackGrow, refused, bind, Except.bind]
  · right
    have low := (valid'.roomy new (List.mem_cons_self ..)).1
    have base := valid'.base
    have next := valid'.next
    simp only at base next
    have write : heap.write h.nextFree data = .ok (heap.stored h.nextFree data) :=
      Heap.write_of_mem valid'.current (by simp only at low; omega) room
    refine ⟨heap.stored h.nextFree data, obstackBlankFast h data.length, new, rest, ?_,
      valid'.extend _ _ room (valid'.wf.stored _ _) rfl (fun i outside => Memory.write_outside outside)
        (Memory.read_write_same _ _ _), ?_⟩
    · simp only [obstackGrow, ensured, bind, Except.bind, write]
    · intro w stored
      rcases List.mem_cons.mp stored with rfl | stored
      · exact .inr ⟨by simp only at low ⊢; omega, room⟩
      · exact writes w stored

/-- Blank bytes are as good as any: they are what the chunk holds. -/
theorem obstackBlank_spec (a : Allocator) (valid : s.Valid c cs) {length : ℕ} (fits : Fits s length) :
    obstackBlank a s.heap s.obstack length = .error .refused ∨
    ∃ heap h new rest added, obstackBlank a s.heap s.obstack length = .ok (heap, h) ∧
      State.Valid { s with heap := heap, obstack := h, growing := s.growing ++ added } new rest ∧
      added.length = length ∧ heap.read (ptrSub h.nextFree length) length = .ok added ∧
      (∀ w ∈ heap.writes, w ∈ s.heap.writes ∨ Inside new w) ∧
      h.alignmentMask = s.obstack.alignmentMask := by
  rcases ensureRoom_spec a valid fits with
    refused | ⟨heap, h, new, rest, ensured, valid', room, writes, mask⟩
  · left
    simp only [obstackBlank, refused, bind, Except.bind]
  · right
    have low := (valid'.roomy new (List.mem_cons_self ..)).1
    have base := valid'.base
    have next := valid'.next
    have bound := valid'.bounds
    simp only at base next low room
    have same : (heap.bytes.read h.nextFree length).length = length := Memory.length_read
    have grown := valid'.extend heap (heap.bytes.read h.nextFree length)
      (by rw [same]; exact room) valid'.wf rfl (fun _ _ => rfl) (by rw [same])
    rw [same] at grown
    have behind : ptrSub (obstackBlankFast h length).nextFree length = h.nextFree := by
      simp only [obstackBlankFast]
      rw [sizeT_of_lt (by omega), ptrSub_of_le (by omega)]
      omega
    have load : heap.read h.nextFree length = .ok (heap.bytes.read h.nextFree length) :=
      Heap.read_of_mem valid'.current (by omega) room
    refine ⟨heap, _, new, rest, _, ?_, grown, same, by rw [behind]; exact load, writes, mask⟩
    simp only [obstackBlank, ensured, bind, Except.bind]

theorem blank_spec (a : Allocator) (valid : s.Valid c cs) {length : ℕ} (fits : Fits s length) :
    s.blank a length = .error .refused ∨
    ∃ t new rest, s.blank a length = .ok t ∧ t.Valid new rest ∧ t.finished = s.finished ∧
      (∃ added : List UInt8, added.length = length ∧ t.growing = s.growing ++ added) ∧
      ∀ w ∈ t.heap.writes, w ∈ s.heap.writes ∨ Inside new w := by
  rcases obstackBlank_spec a valid fits with
    refused | ⟨heap, h, new, rest, added, run, valid', same, load, writes, -⟩
  · left
    simp only [State.blank, refused, bind, Except.bind]
  · right
    refine ⟨_, new, rest, ?_, valid', rfl, ⟨added, same, rfl⟩, writes⟩
    simp only [State.blank, run, bind, Except.bind, load]

/-- The finished object stays where it grew. -/
theorem finish_spec (valid : s.Valid c cs) : s.finish.Valid c cs := by
  have bound := valid.bounds
  have base := valid.base
  have next := valid.next
  have room := valid.room
  have length := valid.length
  obtain ⟨k, small, mask⟩ := valid.power
  have roomy := valid.roomy c (List.mem_cons_self ..)
  -- Alignment moves up within the chunk, or stops at its limit.
  have aligned : s.obstack.nextFree ≤ (obstackFinish s.obstack).2.nextFree ∧
      (obstackFinish s.obstack).2.nextFree ≤ c.limit := by
    have cases := ptrAlign_cases (p := s.obstack.nextFree) (by omega) small
    rw [← mask] at cases
    simp only [obstackFinish, valid.limit, valid.chunk, ptrSub]
    split_ifs <;> omega
  refine ⟨valid.toChunks, valid.linked, valid.limit, ?_, Nat.le_refl _, aligned.2, rfl, rfl, ?_, ?_, ?_⟩
  · exact Nat.le_trans base (Nat.le_trans next aligned.1)
  · refine .object base ?_ valid.stacked
    simp only [Object.limit]
    exact Nat.le_trans (Nat.le_of_eq length) aligned.1
  · intro o member
    cases List.mem_cons.mp member with
    | inl new =>
      subst new
      exact valid.growing
    | inr old => exact valid.held o old
  · intro flag o member empty
    have kept : s.obstack.nextFree ≠ s.obstack.objectBase ∧ s.obstack.maybeEmptyObject = false := by
      simp only [State.finish, obstackFinish] at flag
      split_ifs at flag with same
      exact ⟨same, flag⟩
    cases List.mem_cons.mp member with
    | inl new =>
      subst new
      have none : s.growing.length = 0 := congrArg List.length empty
      omega
    | inr old => exact valid.empty kept.2 o old empty

/-- A new object is as long as asked for, and the others are kept. -/
theorem alloc_spec (a : Allocator) (valid : s.Valid c cs) {length : ℕ} (fits : Fits s length) :
    obstackAlloc a s.heap s.obstack length = .error .refused ∨
    ∃ object heap h new rest bytes, obstackAlloc a s.heap s.obstack length = .ok (object, heap, h) ∧
      bytes.length = s.growing.length + length ∧
      State.Valid ⟨heap, h, ⟨object, bytes⟩ :: s.finished, []⟩ new rest ∧
      h.alignmentMask = s.obstack.alignmentMask := by
  rcases obstackBlank_spec a valid fits with
    refused | ⟨heap, h, new, rest, added, run, valid', same, -, -, mask⟩
  · left
    simp only [obstackAlloc, refused, bind, Except.bind]
  · right
    refine ⟨h.objectBase, heap, (obstackFinish h).2, new, rest, s.growing ++ added, ?_, ?_,
      finish_spec valid', mask⟩
    · simp only [obstackAlloc, run, bind, Except.bind]
      rfl
    · rw [List.length_append, same]

/-- One round of the loop of `_obstack_free`. -/
theorem freeChunks_next {heap heap' : Heap} {lp plp obj : ℕ} (flag : Bool) (positive : lp ≠ 0)
    (elsewhere : (if obj ≤ lp then .ok true
        else (heap.loadWord (lp + limitField)).map fun limit => decide (limit < obj)) =
        (.ok true : Except Fault Bool))
    (prev : heap.loadWord (lp + prevField) = .ok plp) (released : heap.free lp = .ok heap') :
    freeChunks heap lp obj flag = freeChunks heap' plp obj true := by
  rw [freeChunks, if_neg positive]
  simp only [elsewhere, prev]
  split
  · next fault failed =>
    rw [released] at failed
    cases failed
  · next freed done =>
    rw [released] at done
    cases done
    rfl

/-- The loop of `_obstack_free` frees the chunks before the one that holds the object, each once. -/
theorem freeChunks_spec {latest rest : List Block} {d : Block} {obj : ℕ} (holds : d.addr < obj ∧ obj ≤ d.limit)
    {heap : Heap} (wf : heap.WellFormed) {lp : ℕ} (linked : Linked heap.bytes lp (latest ++ d :: rest))
    (live : ∀ e ∈ latest ++ d :: rest, e ∈ heap.blocks) (apart : (latest ++ d :: rest).Pairwise Block.Apart)
    (roomy : ∀ e ∈ latest ++ d :: rest, e.addr + contents ≤ e.limit) (flag : Bool) :
    ∃ heap', freeChunks heap lp obj flag = .ok (heap', d.addr, flag || !latest.isEmpty) ∧
      heap'.WellFormed ∧ heap'.bytes = heap.bytes ∧ heap'.writes = heap.writes ∧
      ∀ e ∈ d :: rest, e ∈ heap'.blocks := by
  induction latest generalizing heap lp flag with
  | nil =>
    obtain ⟨here, limit, -⟩ := linked
    have listed : d ∈ heap.blocks := live d (List.mem_cons_self ..)
    have placed := wf.placed d listed
    have room := roomy d (List.mem_cons_self ..)
    have load : heap.loadWord (d.addr + limitField) = .ok d.limit := by
      rw [Heap.loadWord_of_mem listed (Nat.le_add_right _ _), limit]
      simp only [contents, limitField] at room ⊢
      omega
    refine ⟨heap, ?_, wf, rfl, rfl, live⟩
    rw [freeChunks, here, if_neg (by omega)]
    have stays : decide (d.limit < obj) = false := decide_eq_false (by omega)
    simp only [if_neg (show ¬ obj ≤ d.addr by omega), load, Except.map, stays]
    simp
  | cons e latest ih =>
    obtain ⟨here, limit, next⟩ := linked
    have member : e ∈ heap.blocks := live e (List.mem_cons_self ..)
    have inside : d ∈ latest ++ d :: rest := List.mem_append_right _ (List.mem_cons_self ..)
    obtain ⟨across, others⟩ := List.pairwise_cons.mp apart
    have placed := wf.placed e member
    have room := roomy e (List.mem_cons_self ..)
    have load : heap.loadWord (e.addr + limitField) = .ok e.limit := by
      rw [Heap.loadWord_of_mem member (Nat.le_add_right _ _), limit]
      simp only [contents, limitField] at room ⊢
      omega
    have loadPrev : heap.loadWord (e.addr + prevField) =
        .ok (wordOf (heap.bytes.read (e.addr + prevField) 8)) := by
      apply Heap.loadWord_of_mem member (Nat.le_add_right _ _)
      simp only [contents, prevField] at room ⊢
      omega
    -- The object is at or below the chunk, or behind its limit.
    have beyond : (if obj ≤ e.addr then .ok true
        else (heap.loadWord (e.addr + limitField)).map fun limit => decide (limit < obj)) =
        (.ok true : Except Fault Bool) := by
      have apartHere := across d inside
      have room' := roomy d (List.mem_cons_of_mem _ inside)
      simp only [Block.Apart, contents] at apartHere room'
      split_ifs with low
      · rfl
      · rw [load, Except.map, decide_eq_true (by omega)]
    obtain ⟨heap', run, wf', bytes, writes, kept⟩ := ih (wf.released e.addr)
      (by rw [Heap.released_bytes]; exact next)
      (fun f listed => Heap.mem_released_of_apart wf (live f (List.mem_cons_of_mem _ listed))
        (across f listed).symm member)
      others (fun f listed => roomy f (List.mem_cons_of_mem _ listed)) true
    refine ⟨heap', ?_, wf', bytes, writes, kept⟩
    rw [here, freeChunks_next flag (by omega) beyond loadPrev (Heap.free_of_mem member), run]
    simp

/-- Freeing a live object leaves the older ones, wherever it lies. -/
theorem free_spec (valid : s.Valid c cs) {newer older : List Object} {o : Object}
    (split : s.finished = newer ++ o :: older) :
    ∃ heap h new rest, obstackFree s.heap s.obstack o.addr = .ok (heap, h) ∧
      State.Valid { s with heap := heap, obstack := h, finished := older, growing := [] } new rest ∧
      heap.writes = s.heap.writes := by
  have stacked := valid.stacked
  rw [split] at stacked
  have top : s.obstack.objectBase ≤ topOf (c :: cs) := Nat.le_trans valid.next valid.room
  obtain ⟨latest, d, rest, blocks, within, below⟩ := stacked.older_stacked top
  have chunks := valid.toChunks
  rw [blocks] at chunks
  have inside : d ∈ latest ++ d :: rest := List.mem_append_right _ (List.mem_cons_self ..)
  have suffix : ∀ e ∈ d :: rest, e ∈ latest ++ d :: rest := fun e listed => List.mem_append_right _ listed
  have roomy := chunks.roomy d inside
  have lower := within.1
  have upper := within.2
  simp only [Object.limit, contents] at upper roomy
  have subset : ∀ p ∈ older, p ∈ s.finished := by
    intro p listed
    rw [split]
    exact List.mem_append_right _ (List.mem_cons_of_mem _ listed)
  have held : ∀ p ∈ older, p.Held s.heap.bytes := fun p listed => valid.held p (subset p listed)
  have suffixApart : (d :: rest).Pairwise Block.Apart := (List.pairwise_append.mp chunks.apart).2.1
  -- The result, once the chunks before `d` are gone.
  have result : ∀ {heap : Heap} (flag : Bool), heap.WellFormed → heap.bytes = s.heap.bytes →
      (∀ e ∈ d :: rest, e ∈ heap.blocks) → Linked s.heap.bytes d.addr (d :: rest) →
      (flag = false → latest = [] ∧ s.obstack.maybeEmptyObject = false) →
      State.Valid { s with
        heap := heap
        obstack := { s.obstack with
          objectBase := o.addr
          nextFree := o.addr
          chunkLimit := d.limit
          chunk := d.addr
          maybeEmptyObject := flag }
        finished := older
        growing := [] } d rest := by
    intro heap flag wf bytes live linked clear
    refine ⟨⟨wf, valid.power, live, suffixApart, fun e listed => chunks.roomy e (suffix e listed)⟩,
      ?_, rfl, lower, Nat.le_refl _, ?_, rfl, rfl, below, ?_, ?_⟩
    · simp only [bytes]
      exact linked
    · simp only
      omega
    · simp only [bytes]
      exact held
    · intro off p listed empty
      obtain ⟨first, flagged⟩ := clear off
      subst first
      cases blocks
      exact valid.empty flagged p (subset p listed) empty
  have linkedAll := valid.linked
  rw [blocks] at linkedAll
  by_cases macro_ : s.obstack.chunk < o.addr ∧ o.addr < s.obstack.chunkLimit
  · -- The address lies in the current chunk, which then is the chunk of the object.
    have first : latest = [] := by
      cases latest with
      | nil => rfl
      | cons e latest =>
        cases blocks
        have apart := valid.apart_current d (List.mem_append_right _ (List.mem_cons_self ..))
        rw [valid.chunk, valid.limit] at macro_
        simp only [Block.Apart] at apart
        omega
    subst first
    cases blocks
    refine ⟨s.heap, { s.obstack with nextFree := o.addr, objectBase := o.addr }, c, cs, if_pos macro_,
      ?_, rfl⟩
    have same := result s.obstack.maybeEmptyObject valid.wf rfl valid.live
      valid.linked_current fun off => ⟨rfl, off⟩
    rw [← valid.limit, ← valid.chunk] at same
    exact same
  · have holds : d.addr < o.addr ∧ o.addr ≤ d.limit := by omega
    obtain ⟨heap, run, wf, bytes, writes, live⟩ := freeChunks_spec holds chunks.wf linkedAll
      chunks.live chunks.apart
      (fun e listed => Nat.le_trans (chunks.roomy e listed).1 (chunks.roomy e listed).2)
      s.obstack.maybeEmptyObject
    have linked : Linked s.heap.bytes d.addr (d :: rest) := linkedAll.suffix
    have placed := wf.placed d (live d (List.mem_cons_self ..))
    have limit : heap.loadWord (d.addr + limitField) = .ok d.limit := by
      rw [Heap.loadWord_of_mem (live d (List.mem_cons_self ..)) (Nat.le_add_right _ _), bytes, linked.2.1]
      simp only [limitField]
      omega
    refine ⟨heap, _, d, rest, ?_,
      result (s.obstack.maybeEmptyObject || !latest.isEmpty) wf bytes live linked ?_, writes⟩
    · have nonzero : d.addr ≠ 0 := by omega
      simp only [obstackFree, if_neg macro_, obstackFreeSlow, run, bind, Except.bind, ne_eq, nonzero,
        not_false_eq_true, ↓reduceIte, limit]
    · intro off
      simp only [Bool.or_eq_false_iff, Bool.not_eq_false', List.isEmpty_iff] at off
      exact ⟨off.2, off.1⟩

/-! ## Runs -/

/-- What an obstack is for: finished objects, the latest first, and one that grows. -/
structure Stack where
  finished : List Object
  growing : List UInt8

/-- Objects are added at the top and freed from the top; nothing else changes. -/
inductive Stack.Step : Stack → Event → Stack → Prop
  | grow {finished : List Object} {growing : List UInt8} (data : List UInt8) :
      Stack.Step ⟨finished, growing⟩ (.grow data) ⟨finished, growing ++ data⟩
  | blank {finished : List Object} {growing : List UInt8} (added : List UInt8) :
      Stack.Step ⟨finished, growing⟩ (.blank added.length) ⟨finished, growing ++ added⟩
  | finish {finished : List Object} {growing : List UInt8} (addr : ℕ) :
      Stack.Step ⟨finished, growing⟩ .finish ⟨⟨addr, growing⟩ :: finished, []⟩
  | alloc {finished : List Object} {growing : List UInt8} (addr : ℕ) (added : List UInt8) :
      Stack.Step ⟨finished, growing⟩ (.alloc added.length) ⟨⟨addr, growing ++ added⟩ :: finished, []⟩
  | free {newer older : List Object} {o : Object} {growing : List UInt8} :
      Stack.Step ⟨newer ++ o :: older, growing⟩ (.free newer.length) ⟨older, []⟩
  | missing {finished : List Object} {growing : List UInt8} {index : ℕ}
      (absent : finished.length ≤ index) :
      Stack.Step ⟨finished, growing⟩ (.free index) ⟨finished, growing⟩

def objectStack : System where
  State := Stack
  Event := Event
  Step := Stack.Step

def State.record (s : State) : Stack := ⟨s.finished, s.growing⟩

/-- Memory agrees with the client's record: no object overlaps another, and the last call stored
within the current chunk only. -/
structure State.Intact (s : State) : Prop where
  held : ∀ o ∈ s.finished, o.Held s.heap.bytes
  live : ∀ o ∈ s.finished, ∃ b ∈ s.heap.blocks, b.addr ≤ o.addr ∧ o.limit ≤ b.limit
  apart : s.finished.Pairwise Object.Apart
  growing : Object.Held s.heap.bytes ⟨s.obstack.objectBase, s.growing⟩
  behind : ∀ o ∈ s.finished, o.Apart ⟨s.obstack.objectBase, s.growing⟩
  stores : ∃ c ∈ s.heap.blocks, c.addr = s.obstack.chunk ∧ c.limit = s.obstack.chunkLimit ∧
    ∀ w ∈ s.heap.writes, Inside c w

/-- No finished object overlaps another. -/
theorem State.Valid.intact_apart (valid : s.Valid c cs) : s.finished.Pairwise Object.Apart :=
  valid.stacked.apart valid.apart
    (fun d listed => Nat.le_trans (Nat.le_add_right _ _) (valid.roomy d listed).1)
    (Nat.le_trans valid.next valid.room)

theorem State.Valid.intact (valid : s.Valid c cs) (stores : ∀ w ∈ s.heap.writes, Inside c w) :
    s.Intact := by
  have roomy := valid.roomy
  have top : s.obstack.objectBase ≤ topOf (c :: cs) := Nat.le_trans valid.next valid.room
  have floors : ∀ d ∈ c :: cs, d.addr ≤ floor s.obstack.alignmentMask d := fun d listed =>
    Nat.le_trans (Nat.le_add_right _ _) (roomy d listed).1
  refine ⟨valid.held, ?_, valid.intact_apart, valid.growing, ?_,
    c, valid.current, valid.chunk.symm, valid.limit.symm, stores⟩
  · intro o member
    obtain ⟨d, listed, base, bound⟩ := valid.stacked.within top member
    exact ⟨d, valid.live d listed, Nat.le_trans (floors d listed) base, bound⟩
  · intro o member
    rcases valid.placed member with ⟨-, below⟩ | ⟨d, listed, base, bound⟩
    · exact .inl below
    · have apart := valid.apart_current d listed
      have here := floors c (List.mem_cons_self ..)
      have there := floors d (List.mem_cons_of_mem _ listed)
      have lower := valid.base
      have upper := valid.room
      have length := valid.length
      simp only [Object.Apart, Object.limit, Block.Apart] at *
      omega

/-- The log starts empty at each call. -/
theorem State.Valid.unlogged (valid : s.Valid c cs) :
    State.Valid { s with heap := { s.heap with writes := [] } } c cs :=
  ⟨⟨⟨valid.wf.placed, valid.wf.apart⟩, valid.power, valid.live, valid.apart, valid.roomy⟩, valid.linked,
    valid.limit, valid.base, valid.next, valid.room, valid.length, valid.growing, valid.stacked,
    valid.held, valid.empty⟩

/-- A call is refused, or it keeps the invariant, follows the stack and stores in its chunk. -/
theorem step_spec (a : Allocator) (valid : s.Valid c cs) {e : Event} (fits : e.Fits s) :
    step a s e = .error .refused ∨
    ∃ t new rest, step a s e = .ok t ∧ t.Valid new rest ∧ Stack.Step s.record e t.record ∧
      ∀ w ∈ t.heap.writes, Inside new w := by
  have fresh := valid.unlogged
  cases e with
  | grow data =>
    rcases grow_spec a fresh fits with refused | ⟨heap, h, new, rest, run, valid', writes⟩
    · left
      simp only [step, refused, bind, Except.bind]
    · right
      refine ⟨_, new, rest, by simp only [step, run, bind, Except.bind], valid', .grow data, ?_⟩
      intro w stored
      cases writes w stored with
      | inl old => cases old
      | inr inside => exact inside
  | blank length =>
    rcases blank_spec a fresh fits with
      refused | ⟨t, new, rest, run, valid', finished, ⟨added, rfl, growing⟩, writes⟩
    · left
      simp only [step, refused]
    · right
      refine ⟨t, new, rest, by simp only [step, run], valid', ?_, ?_⟩
      · simp only [State.record, finished, growing]
        exact .blank added
      · intro w stored
        cases writes w stored with
        | inl old => cases old
        | inr inside => exact inside
  | finish =>
    right
    exact ⟨_, c, cs, rfl, finish_spec fresh, .finish _, nofun⟩
  | alloc length =>
    rcases blank_spec a fresh fits with
      refused | ⟨t, new, rest, run, valid', finished, ⟨added, rfl, growing⟩, writes⟩
    · left
      simp only [step, refused, bind, Except.bind]
    · right
      refine ⟨t.finish, new, rest, by simp only [step, run, bind, Except.bind], finish_spec valid', ?_, ?_⟩
      · simp only [State.record, State.finish, finished, growing]
        exact .alloc _ added
      · intro w stored
        cases writes w stored with
        | inl old => cases old
        | inr inside => exact inside
  | free index =>
    right
    cases object : s.finished[index]? with
    | none =>
      refine ⟨_, c, cs, by simp only [step, object], fresh, .missing ?_, nofun⟩
      exact List.getElem?_eq_none_iff.mp object
    | some o =>
      obtain ⟨bound, here⟩ := List.getElem?_eq_some_iff.mp object
      have split : s.finished = s.finished.take index ++ o :: s.finished.drop (index + 1) := by
        rw [← here, List.getElem_cons_drop, List.take_append_drop]
      obtain ⟨heap, h, new, rest, run, valid', writes⟩ := free_spec fresh split
      refine ⟨_, new, rest, by simp only [step, object, run, bind, Except.bind], valid', ?_, ?_⟩
      · have length : (s.finished.take index).length = index := List.length_take_of_le (by omega)
        have freed : Stack.Step ⟨s.finished.take index ++ o :: s.finished.drop (index + 1), s.growing⟩
            (.free (s.finished.take index).length) ⟨s.finished.drop (index + 1), []⟩ := .free
        rw [length, ← split] at freed
        exact freed
      · intro w stored
        simp only [writes] at stored
        cases stored

/-- The block that answers the first request has room for its header and the alignment. -/
def FirstChunkFits (a : Allocator) (heap : Heap) (size alignment : ℕ) : Prop :=
  let mask := (if alignment = 0 then defaultAlignment else alignment) - 1
  let size := if size = 0 then defaultChunkSize else size
  ∀ addr, a.place heap.calls heap.blocks size = some addr →
    addr + contents ≤ floor mask ⟨addr, size⟩ ∧ floor mask ⟨addr, size⟩ ≤ addr + size

/-- A chunk of the default size has it. -/
theorem defaultChunkFits (a : Allocator) (heap : Heap) : FirstChunkFits a heap 0 0 := by
  intro addr placed
  have bound : (Block.mk addr defaultChunkSize).limit < 2 ^ 64 := (a.sound placed).2.2.1
  have enough : 15 + 100 ≤ defaultChunkSize := by decide
  obtain ⟨low, high⟩ := floor_bounds ⟨4, by decide, (rfl : 15 = 2 ^ 4 - 1)⟩ bound enough
  refine ⟨low, Nat.le_trans high ?_⟩
  change addr + contents + 15 ≤ addr + defaultChunkSize
  simp only [contents, defaultChunkSize, defaultRounding]
  omega

/-- With such a block, `_obstack_begin` makes an empty stack, and writes to the block alone. -/
theorem begin_spec (a : Allocator) {heap : Heap} (wf : heap.WellFormed) {size alignment : ℕ}
    (aligned : alignment = 0 ∨ ∃ k < 64, alignment = 2 ^ k) (fits : FirstChunkFits a heap size alignment) :
    obstackBegin a heap size alignment = .error .refused ∨
    ∃ heap' h c, obstackBegin a heap size alignment = .ok (heap', h) ∧
      State.Valid ⟨heap', h, [], []⟩ c [] ∧
      h.alignmentMask = (if alignment = 0 then defaultAlignment else alignment) - 1 ∧
      ∃ v w, heap'.writes = w :: v :: heap.writes ∧ Inside c v ∧ Inside c w := by
  have power : ∃ k < 64, (if alignment = 0 then defaultAlignment else alignment) - 1 = 2 ^ k - 1 := by
    rcases aligned with rfl | ⟨k, small, rfl⟩
    · exact ⟨4, by decide, rfl⟩
    · exact ⟨k, small, by rw [if_neg (Nat.ne_of_gt (Nat.two_pow_pos k))]⟩
  simp only [FirstChunkFits] at fits
  generalize masked : (if alignment = 0 then defaultAlignment else alignment) - 1 = mask at power fits ⊢
  generalize sized : (if size = 0 then defaultChunkSize else size) = size' at fits
  rcases Heap.malloc_cases a wf size' with ⟨addr, placed, granted, wf', -, -⟩ | ⟨-, refused⟩
  · right
    obtain ⟨low, high⟩ := fits addr placed
    let c : Block := ⟨addr, size'⟩
    let g := heap.grant (a.holds heap.calls) c
    have member : c ∈ g.blocks := List.mem_cons_self ..
    have bound : c.limit < 2 ^ 64 := (wf'.placed c member).2.2
    have limit : sizeT (addr + size') = c.limit := sizeT_of_lt bound
    have taken : heap.malloc a size' = (some addr, g) := granted
    have header : addr + 16 ≤ c.limit := Nat.le_trans low high
    have store₁ : g.storeWord (addr + limitField) c.limit =
        .ok (g.stored (addr + limitField) (wordBytes c.limit)) :=
      Heap.write_of_mem member (Nat.le_add_right _ _)
        (by simp only [limitField, length_wordBytes]; omega)
    have store₂ : (g.stored (addr + limitField) (wordBytes c.limit)).storeWord (addr + prevField) 0 =
        .ok ((g.stored (addr + limitField) (wordBytes c.limit)).stored (addr + prevField)
          (wordBytes 0)) :=
      Heap.write_of_mem (b := c) member (Nat.le_add_right _ _)
        (by simp only [prevField, length_wordBytes]; omega)
    let h : Obstack := {
      chunkSize := size'
      chunk := addr
      objectBase := floor mask c
      nextFree := floor mask c
      chunkLimit := c.limit
      alignmentMask := mask
      maybeEmptyObject := false }
    refine ⟨(g.stored (addr + limitField) (wordBytes c.limit)).stored (addr + prevField) (wordBytes 0),
      h, c, ?_, ⟨⟨(wf'.stored _ _).stored _ _, power, ?_, ?_, ?_⟩, ⟨rfl, ?_, ?_⟩, rfl,
      Nat.le_refl _, Nat.le_refl _, high, rfl, rfl, .nil _ _, nofun, nofun⟩, rfl, _, _, rfl, ?_, ?_⟩
    · simp only [obstackBegin, sized, masked, taken, limit, store₁, store₂, bind, Except.bind]
      rfl
    · intro d listed
      exact List.mem_singleton.mp listed ▸ member
    · exact List.pairwise_singleton _ _
    · intro d listed
      cases List.mem_singleton.mp listed
      exact ⟨low, high⟩
    · change wordOf (((g.bytes.write (addr + limitField) (wordBytes c.limit)).write (addr + prevField)
        (wordBytes 0)).read (addr + limitField) 8) = c.limit
      rw [Memory.read_write_apart (by simp only [limitField, prevField]; omega)]
      exact (congrArg wordOf (Memory.read_write_same _ _ (wordBytes _))).trans (wordOf_wordBytes bound)
    · exact (congrArg wordOf (Memory.read_write_same _ _ (wordBytes 0))).trans
        (wordOf_wordBytes (by decide))
    · exact ⟨Nat.le_add_right _ _, by simp only [Block.limit, limitField, length_wordBytes] at header ⊢; omega⟩
    · exact ⟨Nat.le_add_right _ _, by simp only [Block.limit, prevField, length_wordBytes] at header ⊢; omega⟩
  · left
    simp only [obstackBegin, sized, refused]

/-- So a client starts with an empty stack. -/
theorem start_spec (a : Allocator) {heap : Heap} (wf : heap.WellFormed) {size alignment : ℕ}
    (aligned : alignment = 0 ∨ ∃ k < 64, alignment = 2 ^ k) (fits : FirstChunkFits a heap size alignment) :
    start a heap size alignment = .error .refused ∨
    ∃ s c, start a heap size alignment = .ok s ∧ s.Valid c [] ∧ s.record = ⟨[], []⟩ ∧
      ∀ w ∈ s.heap.writes, Inside c w := by
  have fresh : Heap.WellFormed { heap with writes := [] } := ⟨wf.placed, wf.apart⟩
  rcases begin_spec a fresh aligned fits with
    refused | ⟨heap', h, c, begun, valid, -, v, w, writes, first, second⟩
  · left
    rw [start, refused]
    rfl
  · refine .inr ⟨⟨heap', h, [], []⟩, c, ?_, valid, rfl, fun x stored => ?_⟩
    · rw [start, begun]
      rfl
    · rw [writes] at stored
      simp only [List.mem_cons, List.not_mem_nil, or_false] at stored
      rcases stored with rfl | rfl
      · exact second
      · exact first

/-- The run so far is one of the stack, and the invariant holds. -/
def State.Follows (past : List Event) (s : State) : Prop :=
  Run objectStack ⟨[], []⟩ past s.record ∧
    ∃ c cs, s.Valid c cs ∧ ∀ w ∈ s.heap.writes, Inside c w

theorem State.Follows.step (a : Allocator) {t : State} {past : List Event} {e : Event}
    (follows : s.Follows past) (fits : e.Fits s) (done : step a s e = .ok t) :
    t.Follows (past ++ [e]) := by
  obtain ⟨stack, c, cs, valid, -⟩ := follows
  rcases step_spec a valid fits with refused | ⟨u, new, rest, next, valid', follows, stores⟩
  · rw [refused] at done
    cases done
  · rw [done] at next
    cases next
    exact ⟨stack.trans (.step follows (.done _)), new, rest, valid', stores⟩

/-- In every state of every run after such a start, the objects are intact and no call faults. -/
theorem client_intact (a : Allocator) {heap : Heap} (wf : heap.WellFormed) (size alignment : ℕ)
    (aligned : alignment = 0 ∨ ∃ k < 64, alignment = 2 ^ k) (fits : FirstChunkFits a heap size alignment) :
    start a heap size alignment = .error .refused ∨
    ∃ s, start a heap size alignment = .ok s ∧
      ∀ events t, Run (client a) s events t →
        Run objectStack ⟨[], []⟩ events t.record ∧ t.Intact ∧
        ∀ e : Event, e.Fits t → step a t e = .error .refused ∨ ∃ u, step a t e = .ok u := by
  rcases start_spec a wf aligned fits with refused | ⟨s, c, begun, valid, empty, stores⟩
  · exact .inl refused
  refine .inr ⟨s, begun, fun events t run => ?_⟩
  have initial : s.Follows [] := ⟨empty ▸ .done _, c, [], valid, stores⟩
  have follows : t.Follows ([] ++ events) :=
    Run.history (m := client a) (fun past u => State.Follows past u)
      (fun follows taken => State.Follows.step a follows taken.1 taken.2) run initial
  obtain ⟨stack, c, cs, valid, stores⟩ := follows
  refine ⟨stack, valid.intact stores, fun e fits => ?_⟩
  rcases step_spec a valid fits with refused | ⟨u, new, rest, next, -⟩
  · exact .inl refused
  · exact .inr ⟨u, next⟩

/-- With the default sizes the condition is met. -/
theorem client_intact_default :
    start .upward .empty 0 0 = .error .refused ∨
    ∃ s, start .upward .empty 0 0 = .ok s ∧
      ∀ events t, Run (client .upward) s events t →
        Run objectStack ⟨[], []⟩ events t.record ∧ t.Intact ∧
        ∀ e : Event, e.Fits t → step .upward t e = .error .refused ∨ ∃ u, step .upward t e = .ok u :=
  client_intact .upward Heap.wellFormed_empty 0 0 (.inl rfl) (defaultChunkFits _ _)

/-- The fault a call ends in. -/
def faultOf {α : Type} : Except Fault α → Option Fault
  | .ok _ => none
  | .error fault => some fault

/-- `_obstack_begin (h, 8, 0, …)`: the header does not fit the chunk, and is written all the same. -/
theorem begin_writes_outside :
    ¬ (start .upward .empty 8 0 = .error .refused ∨
      ∃ s, start .upward .empty 8 0 = .ok s ∧
        ∀ events t, Run (client .upward) s events t →
          Run objectStack ⟨[], []⟩ events t.record ∧ t.Intact ∧
          ∀ e : Event, e.Fits t → step .upward t e = .error .refused ∨ ∃ u, step .upward t e = .ok u) := by
  have outside : faultOf (start .upward .empty 8 0) = some .outOfBounds := by decide +kernel
  rintro (refused | ⟨s, begun, -⟩)
  · rw [refused] at outside
    cases outside
  · rw [begun] at outside
    cases outside

end Yalibct.Obstack

import Yalibct.Machine.Run
import Yalibct.Machine.Stacked

/-! # Object stacks

An obstack hands out objects one behind the other from chunks of the heap. The object at the top
grows; it moves to a new chunk when its own has no room, and stays where it is once finished. Each
chunk starts with its limit and the address of the chunk before it.
-/

namespace Yalibct

open Machine

/-- The difference of two pointers, as a `size_t`. -/
def ptrSub (p q : ℕ) : ℕ := if q ≤ p then p - q else 2 ^ 64 - (q - p)

/-- `__PTR_ALIGN`, relative to address zero. -/
def ptrAlign (p mask : ℕ) : ℕ := sizeT (p + mask) &&& (2 ^ 64 - (mask + 1))

structure Obstack where
  /-- Preferred size of the chunks. -/
  chunkSize : ℕ
  chunk : ℕ
  objectBase : ℕ
  nextFree : ℕ
  chunkLimit : ℕ
  alignmentMask : ℕ
  /-- The current chunk may hold a finished object without bytes. -/
  maybeEmptyObject : Bool
deriving DecidableEq

/-- Offsets of the fields of `struct _obstack_chunk`. -/
def Obstack.limitField : ℕ := 0
def Obstack.prevField : ℕ := 8
def Obstack.contents : ℕ := 16

open Obstack

def defaultAlignment : ℕ := 16
def defaultRounding : ℕ := 16

/-- What fits in a block of 4096 bytes. -/
def defaultChunkSize : ℕ :=
  let extra := ((12 + defaultRounding - 1) / defaultRounding * defaultRounding + 4 + defaultRounding - 1)
    / defaultRounding * defaultRounding
  4096 - extra

/-- `_obstack_begin`; a refused request ends in `obstack_alloc_failed_handler`. -/
def obstackBegin (a : Allocator) (heap : Heap) (size alignment : ℕ) : Except Fault (Heap × Obstack) :=
  let alignment := if alignment = 0 then defaultAlignment else alignment
  let size := if size = 0 then defaultChunkSize else size
  match heap.malloc a size with
  | (none, _) => .error .refused
  | (some chunk, heap) => do
    let base := ptrAlign (chunk + contents) (alignment - 1)
    let limit := sizeT (chunk + size)
    let heap ← heap.storeWord (chunk + limitField) limit
    let heap ← heap.storeWord (chunk + prevField) 0
    .ok (heap, {
      chunkSize := size
      chunk := chunk
      objectBase := base
      nextFree := base
      chunkLimit := limit
      alignmentMask := alignment - 1
      maybeEmptyObject := false })

def obstackInit (a : Allocator) (heap : Heap) : Except Fault (Heap × Obstack) := obstackBegin a heap 0 0

/-- The size that `_obstack_newchunk` asks for, or nothing when the sums overflow. -/
def newchunkSize (h : Obstack) (objSize length : ℕ) : Option ℕ :=
  let sum1 := sizeT (objSize + length)
  let sum2 := sizeT (sum1 + h.alignmentMask)
  let newSize := sizeT (sum2 + objSize / 8 + 100)
  let newSize := if newSize < sum2 then sum2 else newSize
  let newSize := if newSize < h.chunkSize then h.chunkSize else newSize
  if objSize ≤ sum1 ∧ sum1 ≤ sum2 then some newSize else none

/-- `_obstack_newchunk`: the growing object moves to a new chunk with room for `length` more bytes,
and the old chunk is freed when it held nothing else. -/
def obstackNewchunk (a : Allocator) (heap : Heap) (h : Obstack) (length : ℕ) :
    Except Fault (Heap × Obstack) :=
  let oldChunk := h.chunk
  let objSize := ptrSub h.nextFree h.objectBase
  match newchunkSize h objSize length with
  | none => .error .refused
  | some newSize =>
    match heap.malloc a newSize with
    | (none, _) => .error .refused
    | (some newChunk, heap) => do
      let heap ← heap.storeWord (newChunk + prevField) oldChunk
      let limit := sizeT (newChunk + newSize)
      let heap ← heap.storeWord (newChunk + limitField) limit
      let base := ptrAlign (newChunk + contents) h.alignmentMask
      let object ← heap.read h.objectBase objSize
      let heap ← heap.write base object
      let heap ←
        if h.maybeEmptyObject = false ∧ h.objectBase = ptrAlign (oldChunk + contents) h.alignmentMask then do
          let prev ← heap.loadWord (oldChunk + prevField)
          let heap ← heap.storeWord (newChunk + prevField) prev
          heap.free oldChunk
        else .ok heap
      .ok (heap, { h with
        chunk := newChunk
        chunkLimit := limit
        objectBase := base
        nextFree := sizeT (base + objSize)
        maybeEmptyObject := false })

/-- Room left in the current chunk. -/
def obstackRoom (h : Obstack) : ℕ := ptrSub h.chunkLimit h.nextFree

/-- The room check of the growing macros. -/
def obstackEnsureRoom (a : Allocator) (heap : Heap) (h : Obstack) (length : ℕ) :
    Except Fault (Heap × Obstack) :=
  if obstackRoom h < length then obstackNewchunk a heap h length else .ok (heap, h)

def obstackBlankFast (h : Obstack) (length : ℕ) : Obstack :=
  { h with nextFree := sizeT (h.nextFree + length) }

def obstackGrow (a : Allocator) (heap : Heap) (h : Obstack) (data : List UInt8) :
    Except Fault (Heap × Obstack) := do
  let (heap, h) ← obstackEnsureRoom a heap h data.length
  let heap ← heap.write h.nextFree data
  .ok (heap, obstackBlankFast h data.length)

def obstackBlank (a : Allocator) (heap : Heap) (h : Obstack) (length : ℕ) :
    Except Fault (Heap × Obstack) := do
  let (heap, h) ← obstackEnsureRoom a heap h length
  .ok (heap, obstackBlankFast h length)

/-- The finished object, and the stack with the next one starting behind it. -/
def obstackFinish (h : Obstack) : ℕ × Obstack :=
  let maybeEmpty := if h.nextFree = h.objectBase then true else h.maybeEmptyObject
  let aligned := ptrAlign h.nextFree h.alignmentMask
  let next := if ptrSub aligned h.chunk > ptrSub h.chunkLimit h.chunk then h.chunkLimit else aligned
  (h.objectBase, { h with objectBase := next, nextFree := next, maybeEmptyObject := maybeEmpty })

def obstackAlloc (a : Allocator) (heap : Heap) (h : Obstack) (length : ℕ) :
    Except Fault (ℕ × Heap × Obstack) := do
  let (heap, h) ← obstackBlank a heap h length
  let (object, h) := obstackFinish h
  .ok (object, heap, h)

/-- The loop of `_obstack_free`: chunks are freed down to the one that holds the object. -/
def freeChunks (heap : Heap) (lp obj : ℕ) (maybeEmpty : Bool) : Except Fault (Heap × ℕ × Bool) :=
  if lp = 0 then .ok (heap, 0, maybeEmpty)
  else
    let elsewhere :=
      if obj ≤ lp then .ok true
      else (heap.loadWord (lp + limitField)).map fun limit => decide (limit < obj)
    match elsewhere with
    | .error fault => .error fault
    | .ok false => .ok (heap, lp, maybeEmpty)
    | .ok true =>
      match heap.loadWord (lp + prevField) with
      | .error fault => .error fault
      | .ok plp =>
        match _ : heap.free lp with
        | .error fault => .error fault
        | .ok heap' => freeChunks heap' plp obj true
termination_by heap.blocks.length
decreasing_by exact Heap.length_free ‹_›

/-- `_obstack_free` -/
def obstackFreeSlow (heap : Heap) (h : Obstack) (obj : ℕ) : Except Fault (Heap × Obstack) := do
  let (heap, lp, maybeEmpty) ← freeChunks heap h.chunk obj h.maybeEmptyObject
  if lp ≠ 0 then
    let limit ← heap.loadWord (lp + limitField)
    .ok (heap, { h with
      objectBase := obj
      nextFree := obj
      chunkLimit := limit
      chunk := lp
      maybeEmptyObject := maybeEmpty })
  else if obj ≠ 0 then .error .aborted
  else .ok (heap, { h with maybeEmptyObject := maybeEmpty })

def obstackFree (heap : Heap) (h : Obstack) (obj : ℕ) : Except Fault (Heap × Obstack) :=
  if h.chunk < obj ∧ obj < h.chunkLimit then .ok (heap, { h with nextFree := obj, objectBase := obj })
  else obstackFreeSlow heap h obj

namespace Obstack

/-! ## Runs of a client -/

/-- A heap with an obstack, and what its client knows: the live finished objects, the latest first,
and the bytes put in the growing object. -/
structure State where
  heap : Heap
  obstack : Obstack
  finished : List Object
  growing : List UInt8

inductive Event where
  | grow (data : List UInt8)
  | blank (length : ℕ)
  | finish
  | alloc (length : ℕ)
  /-- `obstack_free` of a live object, the latest being number zero. -/
  | free (index : ℕ)
deriving DecidableEq

/-- The client's record of a finished object. -/
def State.finish (s : State) : State :=
  let (addr, h) := obstackFinish s.obstack
  { s with obstack := h, finished := ⟨addr, s.growing⟩ :: s.finished, growing := [] }

/-- Blank bytes hold what the chunk held there. -/
def State.blank (a : Allocator) (s : State) (length : ℕ) : Except Fault State := do
  let (heap, h) ← obstackBlank a s.heap s.obstack length
  let added ← heap.read (ptrSub h.nextFree length) length
  .ok { s with heap := heap, obstack := h, growing := s.growing ++ added }

/-- One call of the client. The log of writes holds those of the last call. -/
def step (a : Allocator) (s : State) (e : Event) : Except Fault State :=
  let s := { s with heap := { s.heap with writes := [] } }
  match e with
  | .grow data => do
    let (heap, h) ← obstackGrow a s.heap s.obstack data
    .ok { s with heap := heap, obstack := h, growing := s.growing ++ data }
  | .blank length => s.blank a length
  | .finish => .ok s.finish
  | .alloc length => do
    let s ← s.blank a length
    .ok s.finish
  | .free index =>
    match s.finished[index]? with
    | none => .ok s
    | some object => do
      let (heap, h) ← obstackFree s.heap s.obstack object.addr
      .ok { s with heap := heap, obstack := h, finished := s.finished.drop (index + 1), growing := [] }

/-- A heap with a new obstack in it, and no object. -/
def start (a : Allocator) (heap : Heap) (size alignment : ℕ) : Except Fault State := do
  let (heap, h) ← obstackBegin a { heap with writes := [] } size alignment
  .ok ⟨heap, h, [], []⟩

/-- No sum of a request overflows. -/
def Event.Fits (s : State) : Event → Prop
  | .grow data => requested s data.length < 2 ^ 64
  | .blank length => requested s length < 2 ^ 64
  | .alloc length => requested s length < 2 ^ 64
  | .finish => True
  | .free _ => True
where
  requested (s : State) (length : ℕ) : ℕ :=
    let objSize := ptrSub s.obstack.nextFree s.obstack.objectBase
    objSize + length + s.obstack.alignmentMask + objSize / 8 + 100

/-- The runs of a client whose requests do not overflow. -/
def client (a : Allocator) : System where
  State := State
  Event := Event
  Step s e t := e.Fits s ∧ step a s e = .ok t

end Obstack

end Yalibct

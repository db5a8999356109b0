import Yalibct.Machine.Heap
import Yalibct.Model.Write

/-! # `alignalloc` and `alignfree`

A block of `malloc` with room for the alignment holds the aligned storage. In the byte before the
storage is its offset in the block; where that is no byte, a zero is, and the address of the block is
kept in a pointer before it.
-/

namespace Yalibct.Alignalloc

open Machine

/-- `align_down`; the alignment should be a power of two. -/
def alignDown (p alignment : ℕ) : ℕ := p - (p &&& (alignment - 1))

def ucharMax : ℕ := 255

def sizeofPointer : ℕ := 8
def alignofPointer : ℕ := 8

/-- `address_of_pointer_to_malloced`: the last aligned address that leaves room for the zero byte. -/
def addressOfPointerToMalloced (r : ℕ) : ℕ := alignDown (r - 1 - sizeofPointer) alignofPointer

/-- The offset, or a zero and the address of the block. -/
def keepBase (heap : Heap) (q r : ℕ) : Except Fault Heap :=
  let offset := r - q
  if offset ≤ ucharMax then heap.write (r - 1) [UInt8.ofNat offset]
  else do
    let heap ← heap.write (r - 1) [0]
    heap.storeWord (addressOfPointerToMalloced r) q

/-- `alignalloc`: the storage or `NULL`, with the value of `errno`. -/
def alignalloc (a : Allocator) (heap : Heap) (errno : Errno) (alignment size : ℕ) :
    Except Fault (Option ℕ × Heap × Errno) :=
  let (q, heap) := if size + alignment < 2 ^ 64 then heap.malloc a (size + alignment) else (none, heap)
  match q with
  | none => .ok (none, heap, .ENOMEM)
  | some q => do
    let r := alignDown (q + alignment) alignment
    let heap ← keepBase heap q r
    .ok (some r, heap, errno)

/-- `alignfree` -/
def alignfree (heap : Heap) : Option ℕ → Except Fault Heap
  | none => .ok heap
  | some r => do
    let offset ← heap.loadByte (r - 1)
    let q ← if offset ≠ 0 then .ok (r - offset) else heap.loadWord (addressOfPointerToMalloced r)
    heap.free q

end Yalibct.Alignalloc

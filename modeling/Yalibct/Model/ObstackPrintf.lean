import Yalibct.Model.Obstack
import Yalibct.Model.Vasnprintf

/-! # `obstack_vprintf` and `obstack_printf`

The text is printed in place when the chunk has room for 1024 bytes, and into a buffer on the stack
otherwise; a text that does not fit there goes through a buffer on the heap. Then the growing
object takes as many bytes as `vasnprintf` reports.
-/

namespace Yalibct.Obstack

open Machine

def cutoff : ℕ := 1024

/-- The bytes at the returned pointer, where it does not point into the chunk. -/
def returnedBytes (buf : Vector UInt8 1024) (v : Vasnprintf) : List UInt8 :=
  match v.returned with
  | .block bytes => bytes
  | _ => overwrite buf.toList 0 v.stored

/-- The object takes what was printed: in place, or by `obstack_grow`. -/
def takePrinted (a : Allocator) (buf : Vector UInt8 1024) (inPlace : Bool) (v : Vasnprintf)
    (heap : Heap) (obs : Obstack) : Except Fault (ℤ × Heap × Obstack) :=
  if inPlace = true ∧ v.returned = .caller then .ok (v.length, heap, obstackBlankFast obs v.length)
  else do
    let (heap, obs) ← obstackGrow a heap obs ((returnedBytes buf v).take v.length)
    .ok (v.length, heap, obs)

/-- `obstack_vprintf`. A failed conversion leaves `EOVERFLOW` in errno, so no handler is called. -/
def obstackVprintf (a : Allocator) (m : Malloc) (p : Printf) (r : Requests) (buf : Vector UInt8 1024)
    (heap : Heap) (obs : Obstack) (format : p.Format) (args : p.Args) :
    Except (Stop ⊕ Fault) (ℤ × Heap × Obstack) := do
  let len := obstackRoom obs
  let inPlace := decide (¬ len < cutoff)
  let size := if len < cutoff then cutoff else len
  let (v, _) ← (vasnprintf m p r (some size) format args).mapError .inl
  let heap ← (if inPlace then heap.write obs.nextFree v.stored else .ok heap).mapError .inr
  if v.returned = .null then .ok (-1, heap, obs)
  else (takePrinted a buf inPlace v heap obs).mapError .inr

/-- `obstack_printf` starts its argument list and hands it on. -/
def obstackPrintf (a : Allocator) (m : Malloc) (p : Printf) (r : Requests) (buf : Vector UInt8 1024)
    (heap : Heap) (obs : Obstack) (format : p.Format) (args : p.Args) :
    Except (Stop ⊕ Fault) (ℤ × Heap × Obstack) :=
  obstackVprintf a m p r buf heap obs format args

/-- The bytes of the growing object. -/
def growingBytes (heap : Heap) (h : Obstack) : List UInt8 :=
  heap.bytes.read h.objectBase (ptrSub h.nextFree h.objectBase)

/-- The growing object is extended by exactly the text, its length is returned, and the finished
objects keep their bytes. -/
structure ExtendsBy (s : State) (text : List UInt8) (ret : ℤ) (heap : Heap) (h : Obstack) : Prop where
  ret : ret = text.length
  object : growingBytes heap h = growingBytes s.heap s.obstack ++ text
  held : ∀ o ∈ s.finished, o.Held heap.bytes

end Yalibct.Obstack

import Yalibct.Machine.Fallible
import Yalibct.Model.ObstackPrintf
import Yalibct.Soundness.Obstack

/-! # What `obstack_vprintf` adds

The length that `vasnprintf` hands back counts the NUL, and the growing object is extended by that
many bytes on every path. So a NUL is added behind the text, and the value returned is one too
large.
-/

namespace Yalibct.Obstack

open Machine

variable {m : Malloc} {p : Printf} {format : p.Format} {args : p.Args} {s : State} {c : Block}
variable {cs : List Block}

private theorem takePrinted_ret {a : Allocator} {buf : Vector UInt8 1024} {inPlace : Bool} {v : Vasnprintf}
    {heap heap' : Heap} {h h' : Obstack} {ret : ℤ}
    (ran : takePrinted a buf inPlace v heap h = .ok (ret, heap', h')) : ret = v.length := by
  unfold takePrinted at ran
  split_ifs at ran
  · cases ran
    rfl
  · obtain ⟨⟨grown, taken⟩, -, result⟩ := bind_eq_ok.mp ran
    cases result
    rfl

/-- A text shorter than `INT_MAX` is never refused as such, and the value returned counts the NUL. -/
theorem obstackVprintf_ret (a : Allocator) (r : Requests) (buf : Vector UInt8 1024) {heap heap' : Heap}
    {h h' : Obstack} {ret : ℤ} (bound : (p.text format args).length < intMax)
    (ran : obstackVprintf a m p r buf heap h format args = .ok (ret, heap', h')) :
    ret = (p.text format args).length + 1 := by
  obtain ⟨⟨v, r'⟩, formatted, ran⟩ := bind_eq_ok.mp ran
  obtain ⟨length, returned⟩ :=
    vasnprintf_length r r' bound (mapError_eq_ok.mp formatted)
  obtain ⟨printed, -, ran⟩ := bind_eq_ok.mp ran
  have present : v.returned ≠ .null := by
    rcases returned with ⟨caller, -⟩ | ⟨bytes, block, -⟩
    · rw [caller]
      exact nofun
    · rw [block]
      exact nofun
  rw [if_neg present] at ran
  rw [takePrinted_ret (mapError_eq_ok.mp ran), length]
  rfl

/-- A text that fits the first buffer with its NUL is added with the NUL, in place or by way of the
stack buffer; a refusal can only come from a new chunk. -/
theorem obstackVprintf_short_text (a : Allocator) (r : Requests) (buf : Vector UInt8 1024)
    (valid : s.Valid c cs) (bound : (p.text format args).length < intMax)
    (short : (p.text format args).length < max (obstackRoom s.obstack) cutoff)
    (fits : Fits s ((p.text format args).length + 1)) :
    obstackVprintf a m p r buf s.heap s.obstack format args = .error (.inr .refused) ∨
    ∃ heap h new rest,
      obstackVprintf a m p r buf s.heap s.obstack format args =
        .ok ((p.text format args).length + 1, heap, h) ∧
      State.Valid { s with
        heap := heap
        obstack := h
        growing := s.growing ++ (p.text format args ++ [0]) } new rest := by
  have length : (p.text format args ++ [0]).length = (p.text format args).length + 1 := by simp
  have nonnull : Returned.caller ≠ .null := nofun
  by_cases near : obstackRoom s.obstack < cutoff
  · -- The stack buffer.
    have room : (p.text format args).length < cutoff := by omega
    have taken : (overwrite buf.toList 0 (p.text format args ++ [0])).take
        ((p.text format args).length + 1) = p.text format args ++ [0] := by
      have stored := take_overwrite buf.toList (Nat.zero_le _)
        ((p.text format args).length + 1) (Nat.le_of_eq length.symm)
      rw [Nat.zero_add, List.take_zero, List.nil_append, ← length, List.take_length] at stored
      rw [← length]
      exact stored
    have ran : obstackVprintf a m p r buf s.heap s.obstack format args =
        (takePrinted a buf false ⟨.caller, (p.text format args).length + 1, p.text format args ++ [0]⟩
          s.heap s.obstack).mapError .inr := by
      simp only [obstackVprintf, near, ↓reduceIte, vasnprintf_fits r bound room]
      rfl
    rcases grow_spec a valid (length ▸ fits) with refused | ⟨heap, h, new, rest, run, valid', -⟩
    · left
      rw [ran, takePrinted, if_neg (by simp)]
      simp only [returnedBytes, taken, refused]
      rfl
    · right
      refine ⟨heap, _, new, rest, ?_, valid'⟩
      rw [ran, takePrinted, if_neg (by simp)]
      simp only [returnedBytes, taken, run]
      rfl
  · -- In the chunk.
    right
    have room : (p.text format args).length < obstackRoom s.obstack := by omega
    have left := room
    rw [valid.roomLeft] at left
    have low := (valid.roomy c (List.mem_cons_self ..)).1
    have base := valid.base
    have next := valid.next
    have inside : s.obstack.nextFree + (p.text format args ++ [0]).length ≤ c.limit := by omega
    have write : s.heap.write s.obstack.nextFree (p.text format args ++ [0]) =
        .ok (s.heap.stored s.obstack.nextFree (p.text format args ++ [0])) :=
      Heap.write_of_mem valid.current (by omega) inside
    have extended := valid.extend _ (p.text format args ++ [0]) inside (valid.wf.stored _ _) rfl
      (fun i outside => Memory.write_outside outside) (Memory.read_write_same _ _ _)
    rw [length] at extended
    refine ⟨_, _, c, cs, ?_, extended⟩
    simp only [obstackVprintf, near, ↓reduceIte, vasnprintf_fits r bound room]
    simp only [bind, Except.bind, Except.mapError, not_false_eq_true, decide_true, ↓reduceIte, write,
      nonnull, takePrinted, and_self]
    rfl

/-- No call extends the object by the text alone and returns its length, on any path. -/
theorem obstackVprintf_never_exact (a : Allocator) (m : Malloc) (p : Printf) (r : Requests)
    (buf : Vector UInt8 1024) (s : State) (format : p.Format) (args : p.Args)
    (bound : (p.text format args).length < intMax) :
    (¬ ∃ ret heap h, obstackVprintf a m p r buf s.heap s.obstack format args = .ok (ret, heap, h) ∧
      ExtendsBy s (p.text format args) ret heap h) ∧
    ¬ ∃ ret heap h, obstackPrintf a m p r buf s.heap s.obstack format args = .ok (ret, heap, h) ∧
      ExtendsBy s (p.text format args) ret heap h := by
  have never : ¬ ∃ ret heap h,
      obstackVprintf a m p r buf s.heap s.obstack format args = .ok (ret, heap, h) ∧
      ExtendsBy s (p.text format args) ret heap h := by
    rintro ⟨ret, heap, h, ran, exactly⟩
    have counted := obstackVprintf_ret a r buf bound ran
    have claimed := exactly.ret
    omega
  exact ⟨never, never⟩

/-- A stack with a default chunk at address 4096. -/
def fresh : State where
  heap := { Heap.empty with blocks := [⟨4096, 4064⟩] }
  obstack := {
    chunkSize := 4064
    chunk := 4096
    objectBase := 4112
    nextFree := 4112
    chunkLimit := 8160
    alignmentMask := 15
    maybeEmptyObject := false }
  finished := []
  growing := []

/-- The text `hi` in such a stack. -/
theorem obstackVprintf_hi_never_exact :
    (¬ ∃ ret heap h, obstackVprintf .upward .generous .string .none (Vector.replicate 1024 0) fresh.heap
        fresh.obstack () [[104, 105]] = .ok (ret, heap, h) ∧ ExtendsBy fresh [104, 105] ret heap h) ∧
    ¬ ∃ ret heap h, obstackPrintf .upward .generous .string .none (Vector.replicate 1024 0) fresh.heap
        fresh.obstack () [[104, 105]] = .ok (ret, heap, h) ∧ ExtendsBy fresh [104, 105] ret heap h :=
  obstackVprintf_never_exact .upward .generous .string .none _ fresh () [[104, 105]] (by decide)

/-- `obstack_printf (&obs, "%s", "hi")` adds three bytes and returns 3. -/
theorem obstackPrintf_adds_nul :
    ((obstackPrintf .upward .generous .string .none (Vector.replicate 1024 0) fresh.heap fresh.obstack ()
      [[104, 105]]).toOption.map fun result => (result.1, growingBytes result.2.1 result.2.2)) =
        some (3, [104, 105, 0]) ∧
    (3, [104, 105, 0]) ≠ ((2, [104, 105]) : ℤ × List UInt8) := by
  constructor
  · decide +kernel
  · decide

end Yalibct.Obstack

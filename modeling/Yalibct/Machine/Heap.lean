import Mathlib.Data.List.Basic
import Mathlib.Tactic.SplitIfs
import Yalibct.Machine.Bytes

/-! # A byte-addressed heap of blocks

A heap has live blocks, and memory that maps every address to a byte. Loads and stores outside
the live blocks and releases of anything but a live block are faults. The allocator chooses the
addresses of new blocks, apart from all live ones, and what they hold. The ranges that were
stored to are logged.
-/

namespace Yalibct.Machine

/-- Why a program stops: a bad access, a bad release, a refused request that it does not survive,
`abort`, or arithmetic without a defined result. The last is a loop that has not ended yet. -/
inductive Fault where
  | outOfBounds
  | invalidFree
  | refused
  | aborted
  | undefined
  | unfinished
deriving DecidableEq

/-! ## Memory -/

abbrev Memory := ℕ → UInt8

namespace Memory

def read (mem : Memory) (addr count : ℕ) : List UInt8 :=
  (List.range count).map fun i => mem (addr + i)

def write (mem : Memory) (addr : ℕ) (run : List UInt8) : Memory :=
  fun i => if addr ≤ i ∧ i < addr + run.length then run.getD (i - addr) 0 else mem i

variable {mem mem' : Memory} {addr count : ℕ} {run : List UInt8}

@[simp] theorem length_read : (mem.read addr count).length = count := by simp [read]

/-- Equal bytes read equal. -/
theorem read_congr (same : ∀ i, addr ≤ i → i < addr + count → mem' i = mem i) :
    mem'.read addr count = mem.read addr count := by
  apply List.map_congr_left
  intro i member
  have bound := List.mem_range.mp member
  exact same (addr + i) (by omega) (by omega)

theorem read_add (mem : Memory) (addr count more : ℕ) :
    mem.read addr (count + more) = mem.read addr count ++ mem.read (addr + count) more := by
  simp only [read, List.range_add, List.map_append, List.map_map]
  congr 1
  apply List.map_congr_left
  intro i _
  simp only [Function.comp_apply, Nat.add_assoc]

theorem write_outside {i : ℕ} (outside : i < addr ∨ addr + run.length ≤ i) :
    mem.write addr run i = mem i := if_neg (by omega)

theorem read_write_same (mem : Memory) (addr : ℕ) (run : List UInt8) :
    (mem.write addr run).read addr run.length = run := by
  apply List.ext_getElem (by simp)
  intro i _ bound
  simp only [read, List.getElem_map, List.getElem_range, write]
  rw [if_pos (by omega), Nat.add_sub_cancel_left, List.getD_eq_getElem?_getD,
    List.getElem?_eq_getElem bound, Option.getD_some]

theorem write_byte_same (mem : Memory) (addr : ℕ) (byte : UInt8) : mem.write addr [byte] addr = byte := by
  simp [write]

theorem read_write_apart {from_ : ℕ}
    (apart : from_ + count ≤ addr ∨ addr + run.length ≤ from_) :
    (mem.write addr run).read from_ count = mem.read from_ count := by
  apply read_congr
  intro i lower upper
  exact write_outside (by omega)

end Memory

/-! ## Words in memory -/

/-- A word of eight bytes, the lowest first. -/
def wordBytes (n : ℕ) : List UInt8 := (List.range 8).map fun i => UInt8.ofNat (n / 256 ^ i)

def wordOf (run : List UInt8) : ℕ := run.foldr (fun byte n => byte.toNat + 256 * n) 0

@[simp] theorem length_wordBytes (n : ℕ) : (wordBytes n).length = 8 := rfl

theorem wordOf_wordBytes {n : ℕ} (bound : n < 2 ^ 64) : wordOf (wordBytes n) = n := by
  have digits : wordBytes n = [UInt8.ofNat (n / 1), UInt8.ofNat (n / 256), UInt8.ofNat (n / 65536),
      UInt8.ofNat (n / 16777216), UInt8.ofNat (n / 4294967296), UInt8.ofNat (n / 1099511627776),
      UInt8.ofNat (n / 281474976710656), UInt8.ofNat (n / 72057594037927936)] := rfl
  rw [digits]
  simp only [wordOf, List.foldr_cons, List.foldr_nil, UInt8.toNat_ofNat']
  omega

/-! ## Blocks and heaps -/

structure Block where
  addr : ℕ
  size : ℕ
deriving DecidableEq

/-- One past the end. -/
def Block.limit (b : Block) : ℕ := b.addr + b.size

/-- No common byte. -/
def Block.Apart (b c : Block) : Prop := b.limit ≤ c.addr ∨ c.limit ≤ b.addr

theorem Block.Apart.symm {b c : Block} (apart : b.Apart c) : c.Apart b := Or.symm apart

/-- The address of the block that answers a request, and what it holds. A block lies in the
address space and apart from every live block. -/
structure Allocator where
  place : ℕ → List Block → ℕ → Option ℕ
  holds : ℕ → Memory
  sound : ∀ {call live size addr}, place call live size = some addr →
    0 < addr ∧ 0 < size ∧ addr + size < 2 ^ 64 ∧ ∀ b ∈ live, b.Apart ⟨addr, size⟩

/-- One past every live block, on a multiple of sixteen. -/
def Allocator.above (live : List Block) : ℕ :=
  (live.foldr (fun b top => max b.limit top) 4096 + 15) / 16 * 16

theorem Allocator.limit_le_above {live : List Block} {b : Block} (member : b ∈ live) :
    b.limit ≤ Allocator.above live := by
  have below : b.limit ≤ live.foldr (fun b top => max b.limit top) 4096 := by
    induction live with
    | nil => cases member
    | cons c live ih =>
      rw [List.foldr_cons]
      cases List.mem_cons.mp member with
      | inl here => exact here ▸ Nat.le_max_left _ _
      | inr there => exact Nat.le_trans (ih there) (Nat.le_max_right _ _)
  rw [Allocator.above]
  omega

/-- An allocator that never uses an address twice while a block above it lives, and clears its
blocks. -/
def Allocator.upward : Allocator where
  place _ live size :=
    if 0 < size ∧ Allocator.above live + size < 2 ^ 64 ∧ 0 < Allocator.above live then
      some (Allocator.above live)
    else none
  holds _ _ := 0
  sound {call live size addr} placed := by
    split_ifs at placed with fits
    cases placed
    exact ⟨fits.2.2, fits.1, fits.2.1, fun b member => .inl (Allocator.limit_le_above member)⟩

structure Heap where
  blocks : List Block
  bytes : Memory
  /-- How many requests were made. -/
  calls : ℕ
  /-- The ranges stored to, the latest first. -/
  writes : List Block

namespace Heap

def empty : Heap := ⟨[], fun _ => 0, 0, []⟩

def covers (heap : Heap) (addr count : ℕ) : Bool :=
  heap.blocks.any fun b => b.addr ≤ addr && addr + count ≤ b.limit

def read (heap : Heap) (addr count : ℕ) : Except Fault (List UInt8) :=
  if count = 0 ∨ heap.covers addr count then .ok (heap.bytes.read addr count)
  else .error .outOfBounds

/-- The heap after a store that was not out of bounds. -/
def stored (heap : Heap) (addr : ℕ) (run : List UInt8) : Heap :=
  { heap with bytes := heap.bytes.write addr run, writes := ⟨addr, run.length⟩ :: heap.writes }

def write (heap : Heap) (addr : ℕ) (run : List UInt8) : Except Fault Heap :=
  if run = [] ∨ heap.covers addr run.length then .ok (heap.stored addr run)
  else .error .outOfBounds

def loadByte (heap : Heap) (addr : ℕ) : Except Fault ℕ := (heap.read addr 1).map wordOf

def loadWord (heap : Heap) (addr : ℕ) : Except Fault ℕ := (heap.read addr 8).map wordOf

def storeWord (heap : Heap) (addr n : ℕ) : Except Fault Heap := heap.write addr (wordBytes n)

/-- The heap with a new block, which holds what the allocator left there. -/
def grant (heap : Heap) (holds : Memory) (b : Block) : Heap where
  blocks := b :: heap.blocks
  bytes i := if b.addr ≤ i ∧ i < b.limit then holds i else heap.bytes i
  calls := heap.calls + 1
  writes := heap.writes

def malloc (a : Allocator) (heap : Heap) (size : ℕ) : Option ℕ × Heap :=
  match a.place heap.calls heap.blocks size with
  | some addr => (some addr, heap.grant (a.holds heap.calls) ⟨addr, size⟩)
  | none => (none, { heap with calls := heap.calls + 1 })

/-- The heap without the block at an address. -/
def released (heap : Heap) (addr : ℕ) : Heap :=
  { heap with blocks := heap.blocks.filter fun b => b.addr ≠ addr }

def free (heap : Heap) (addr : ℕ) : Except Fault Heap :=
  if heap.blocks.any fun b => b.addr = addr then .ok (heap.released addr)
  else .error .invalidFree

/-- Live blocks lie in the address space, apart from each other. -/
structure WellFormed (heap : Heap) : Prop where
  placed : ∀ b ∈ heap.blocks, 0 < b.addr ∧ 0 < b.size ∧ b.limit < 2 ^ 64
  apart : ∀ b ∈ heap.blocks, ∀ c ∈ heap.blocks, b = c ∨ b.Apart c

theorem wellFormed_empty : empty.WellFormed := ⟨nofun, nofun⟩

variable {heap heap' : Heap} {b c : Block} {addr count : ℕ} {run : List UInt8}

theorem covers_of_mem (member : b ∈ heap.blocks) (lower : b.addr ≤ addr)
    (upper : addr + count ≤ b.limit) : heap.covers addr count = true := by
  rw [covers, List.any_eq_true]
  exact ⟨b, member, by simp [lower, upper]⟩

theorem read_of_mem (member : b ∈ heap.blocks) (lower : b.addr ≤ addr)
    (upper : addr + count ≤ b.limit) : heap.read addr count = .ok (heap.bytes.read addr count) :=
  if_pos (.inr (covers_of_mem member lower upper))

theorem loadByte_of_mem (member : b ∈ heap.blocks) (lower : b.addr ≤ addr) (upper : addr < b.limit) :
    heap.loadByte addr = .ok (heap.bytes addr).toNat := by
  rw [loadByte, read_of_mem member lower upper]
  rfl

theorem loadWord_of_mem (member : b ∈ heap.blocks) (lower : b.addr ≤ addr)
    (upper : addr + 8 ≤ b.limit) : heap.loadWord addr = .ok (wordOf (heap.bytes.read addr 8)) := by
  rw [loadWord, read_of_mem member lower upper]
  rfl

@[simp] theorem stored_bytes : (heap.stored addr run).bytes = heap.bytes.write addr run := rfl

@[simp] theorem stored_writes :
    (heap.stored addr run).writes = ⟨addr, run.length⟩ :: heap.writes := rfl

theorem write_of_mem (member : b ∈ heap.blocks) (lower : b.addr ≤ addr)
    (upper : addr + run.length ≤ b.limit) : heap.write addr run = .ok (heap.stored addr run) :=
  if_pos (.inr (covers_of_mem member lower upper))

theorem WellFormed.stored (wf : heap.WellFormed) (addr : ℕ) (run : List UInt8) :
    (heap.stored addr run).WellFormed := ⟨wf.placed, wf.apart⟩

/-- A request is refused, or granted with a block that keeps the heap well formed. -/
theorem malloc_cases (a : Allocator) (wf : heap.WellFormed) (size : ℕ) :
    (∃ addr, a.place heap.calls heap.blocks size = some addr ∧
      heap.malloc a size = (some addr, heap.grant (a.holds heap.calls) ⟨addr, size⟩) ∧
      (heap.grant (a.holds heap.calls) ⟨addr, size⟩).WellFormed ∧ 0 < size ∧
      ∀ b ∈ heap.blocks, b.Apart ⟨addr, size⟩) ∨
    (a.place heap.calls heap.blocks size = none ∧
      heap.malloc a size = (none, { heap with calls := heap.calls + 1 })) := by
  cases placed : a.place heap.calls heap.blocks size with
  | none => exact .inr ⟨rfl, by simp only [malloc, placed]⟩
  | some addr =>
    obtain ⟨positive, nonempty, bound, apart⟩ := a.sound placed
    refine .inl ⟨addr, rfl, by simp only [malloc, placed], ⟨?_, ?_⟩, nonempty, apart⟩
    · intro b member
      cases List.mem_cons.mp member with
      | inl new =>
        subst new
        exact ⟨positive, nonempty, bound⟩
      | inr old => exact wf.placed b old
    · intro b left c right
      rcases List.mem_cons.mp left with rfl | left <;> rcases List.mem_cons.mp right with rfl | right
      · exact .inl rfl
      · exact .inr (apart c right).symm
      · exact .inr (apart b left)
      · exact wf.apart b left c right

@[simp] theorem released_bytes : (heap.released addr).bytes = heap.bytes := rfl

@[simp] theorem released_writes : (heap.released addr).writes = heap.writes := rfl

theorem mem_released : b ∈ (heap.released addr).blocks ↔ b ∈ heap.blocks ∧ b.addr ≠ addr := by
  simp [released]

theorem free_of_mem (member : b ∈ heap.blocks) : heap.free b.addr = .ok (heap.released b.addr) :=
  if_pos (List.any_eq_true.mpr ⟨b, member, by simp⟩)

theorem WellFormed.released (wf : heap.WellFormed) (addr : ℕ) : (heap.released addr).WellFormed :=
  ⟨fun b member => wf.placed b (mem_released.mp member).1, fun b left c right =>
    wf.apart b (mem_released.mp left).1 c (mem_released.mp right).1⟩

/-- Blocks apart from a live block stay when that is released. -/
theorem mem_released_of_apart (wf : heap.WellFormed) (member : b ∈ heap.blocks)
    (apart : b.Apart c) (live : c ∈ heap.blocks) : b ∈ (heap.released c.addr).blocks := by
  refine mem_released.mpr ⟨member, ?_⟩
  have left := wf.placed b member
  have right := wf.placed c live
  simp only [Block.Apart, Block.limit] at apart
  omega

/-- A release leaves fewer blocks. -/
theorem length_free (done : heap.free addr = .ok heap') :
    heap'.blocks.length < heap.blocks.length := by
  unfold free at done
  split_ifs at done with live
  obtain ⟨b, member, same⟩ := List.any_eq_true.mp live
  cases done
  refine List.length_filter_lt_length_iff_exists.mpr ⟨b, member, ?_⟩
  simpa using same

end Heap

end Yalibct.Machine

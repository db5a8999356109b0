import Mathlib.Data.Nat.Bitwise
import Yalibct.Model.Alignalloc

/-! # Aligned storage and its block

The aligned storage lies in the block behind what is kept about it, and from that the block is found
again, whatever was stored in the storage.
-/

namespace Yalibct.Alignalloc

open Machine

variable {heap heap' : Heap} {q r k size : ℕ}

/-! ## Aligning down -/

private theorem alignDown_eq (p k : ℕ) : alignDown p (2 ^ k) = p / 2 ^ k * 2 ^ k := by
  rw [alignDown, Nat.and_two_pow_sub_one_eq_mod]
  have split := Nat.div_add_mod p (2 ^ k)
  rw [Nat.mul_comm] at split
  omega

private theorem dvd_alignDown (p k : ℕ) : 2 ^ k ∣ alignDown p (2 ^ k) := by
  rw [alignDown_eq]
  exact Nat.dvd_mul_left ..

/-- One alignment further on, the last aligned address lies behind the first one. -/
theorem alignDown_bounds (q k : ℕ) :
    q < alignDown (q + 2 ^ k) (2 ^ k) ∧ alignDown (q + 2 ^ k) (2 ^ k) ≤ q + 2 ^ k := by
  have positive : 0 < 2 ^ k := Nat.two_pow_pos k
  have rest := Nat.mod_lt q positive
  have split := Nat.div_add_mod q (2 ^ k)
  rw [Nat.mul_comm] at split
  rw [alignDown_eq, Nat.add_div_right q positive, Nat.succ_mul]
  omega

/-- The pointer has room before the marker, and no more than sixteen bytes before the storage. -/
theorem addressOfPointerToMalloced_bounds (far : 16 ≤ r) :
    r ≤ addressOfPointerToMalloced r + 16 ∧ addressOfPointerToMalloced r + 8 ≤ r - 1 := by
  have address : addressOfPointerToMalloced r = (r - 9) / 8 * 8 := alignDown_eq (r - 1 - 8) 3
  rw [address]
  omega

/-! ## What is kept -/

/-- What is kept in a block before the storage: it is stored there, each part apart from the others,
and leads back to the block for as long as nothing else is stored there. -/
structure Keeps (heap heap' : Heap) (b : Block) (r : ℕ) : Prop where
  blocks : heap'.blocks = heap.blocks
  slots : ∃ slots, heap'.writes = slots ++ heap.writes ∧ (∀ s ∈ slots, b.addr ≤ s.addr ∧ s.limit ≤ r) ∧
    slots.Pairwise Block.Apart
  found : ∀ later : Heap, b ∈ later.blocks → (∀ i, b.addr ≤ i → i < r → later.bytes i = heap'.bytes i) →
    alignfree later (some r) = later.free b.addr

/-- A short distance is kept in the marker. -/
theorem keepBase_near (member : ⟨q, size⟩ ∈ heap.blocks) (behind : q < r) (inside : r ≤ q + size)
    (near : r - q ≤ ucharMax) : ∃ heap', keepBase heap q r = .ok heap' ∧ Keeps heap heap' ⟨q, size⟩ r := by
  have room : r - 1 + [UInt8.ofNat (r - q)].length ≤ (⟨q, size⟩ : Block).limit := by
    simp only [List.length_singleton, Block.limit]
    omega
  have lower : q ≤ r - 1 := by omega
  refine ⟨heap.stored (r - 1) [UInt8.ofNat (r - q)], ?_, rfl, ⟨[⟨r - 1, 1⟩], rfl, ?_, List.pairwise_singleton ..⟩, ?_⟩
  · rw [keepBase, if_pos near]
    exact Heap.write_of_mem member lower room
  · intro s among
    rw [List.mem_singleton.mp among]
    simp only [Block.limit]
    omega
  · intro later live same
    have offset : later.loadByte (r - 1) = .ok (r - q) := by
      rw [Heap.loadByte_of_mem live lower (by simp only [Block.limit]; omega), same (r - 1) lower (by omega)]
      rw [Heap.stored_bytes, Memory.write_byte_same, UInt8.toNat_ofNat']
      rw [ucharMax] at near
      exact congrArg _ (Nat.mod_eq_of_lt (by omega))
    have some : r - q ≠ 0 := by omega
    simp only [alignfree, offset, bind, Except.bind, ne_eq, some, not_false_eq_true, ↓reduceIte]
    rw [Nat.sub_sub_self (Nat.le_of_lt behind)]

/-- Over a longer distance, the address of the block is kept. -/
theorem keepBase_far (member : ⟨q, size⟩ ∈ heap.blocks) (inside : r ≤ q + size)
    (bound : q < 2 ^ 64) (far : ucharMax < r - q) :
    ∃ heap', keepBase heap q r = .ok heap' ∧ Keeps heap heap' ⟨q, size⟩ r := by
  rw [ucharMax] at far
  obtain ⟨first, last⟩ := addressOfPointerToMalloced_bounds (r := r) (by omega)
  generalize slot : addressOfPointerToMalloced r = pointer at first last
  have marked : heap.write (r - 1) [0] = .ok (heap.stored (r - 1) [0]) :=
    Heap.write_of_mem member (by simp only; omega) (by simp only [List.length_singleton, Block.limit]; omega)
  have kept : (heap.stored (r - 1) [0]).storeWord pointer q =
      .ok ((heap.stored (r - 1) [0]).stored pointer (wordBytes q)) :=
    Heap.write_of_mem member (by simp only; omega) (by simp only [length_wordBytes, Block.limit]; omega)
  refine ⟨(heap.stored (r - 1) [0]).stored pointer (wordBytes q), ?_, rfl,
    ⟨[⟨pointer, 8⟩, ⟨r - 1, 1⟩], rfl, ?_, ?_⟩, ?_⟩
  · rw [keepBase, if_neg (by rw [ucharMax]; omega), marked, slot]
    exact kept
  · intro s among
    rcases List.mem_cons.mp among with rfl | among
    · simp only [Block.limit]
      omega
    · rw [List.mem_singleton.mp among]
      simp only [Block.limit]
      omega
  · refine List.pairwise_pair.mpr (.inl ?_)
    simp only [Block.limit]
    omega
  · intro later live same
    have marker : later.loadByte (r - 1) = .ok 0 := by
      rw [Heap.loadByte_of_mem live (by simp only; omega) (by simp only [Block.limit]; omega),
        same (r - 1) (by simp only; omega) (by omega), Heap.stored_bytes,
        Memory.write_outside (.inr (by rw [length_wordBytes]; omega)), Heap.stored_bytes, Memory.write_byte_same]
      rfl
    have base : later.loadWord pointer = .ok q := by
      rw [Heap.loadWord_of_mem live (by simp only; omega) (by simp only [Block.limit]; omega)]
      have read : later.bytes.read pointer 8 =
          ((heap.stored (r - 1) [0]).stored pointer (wordBytes q)).bytes.read pointer 8 :=
        Memory.read_congr fun i lower upper => same i (by simp only; omega) (by omega)
      rw [read, Heap.stored_bytes, ← length_wordBytes q, Memory.read_write_same, wordOf_wordBytes bound]
    simp only [alignfree, marker, slot, base, bind, Except.bind, ne_eq, not_true_eq_false, ↓reduceIte]

theorem keepBase_spec (member : ⟨q, size⟩ ∈ heap.blocks) (behind : q < r) (inside : r ≤ q + size)
    (bound : q < 2 ^ 64) : ∃ heap', keepBase heap q r = .ok heap' ∧ Keeps heap heap' ⟨q, size⟩ r := by
  rcases Nat.lt_or_ge ucharMax (r - q) with far | near
  · exact keepBase_far member inside bound far
  · exact keepBase_near member behind inside near

/-! ## The round trip -/

/-- When the request is granted, the storage is aligned and lies in the block, behind what is kept
before it; and whatever is stored there later, `alignfree` releases the block. -/
theorem alignalloc_round_trip (a : Allocator) (heap : Heap) (errno : Errno) {k size : ℕ} (power : k < 63)
    (bound : size ≤ ptrdiffMax) :
    a.place heap.calls heap.blocks (size + 2 ^ k) = none ∧
      (∃ heap', alignalloc a heap errno (2 ^ k) size = .ok (none, heap', .ENOMEM)) ∨
    ∃ q r heap', a.place heap.calls heap.blocks (size + 2 ^ k) = some q ∧
      alignalloc a heap errno (2 ^ k) size = .ok (some r, heap', errno) ∧
      2 ^ k ∣ r ∧ q < r ∧ r + size ≤ q + (size + 2 ^ k) ∧
      heap'.blocks = ⟨q, size + 2 ^ k⟩ :: heap.blocks ∧
      (∃ slots, heap'.writes = slots ++ heap.writes ∧ (∀ s ∈ slots, q ≤ s.addr ∧ s.limit ≤ r) ∧
        slots.Pairwise Block.Apart) ∧
      ∀ later : Heap, ⟨q, size + 2 ^ k⟩ ∈ later.blocks → (∀ i, q ≤ i → i < r → later.bytes i = heap'.bytes i) →
        alignfree later (some r) = later.free q := by
  have alignment : 2 ^ k ≤ 2 ^ 62 := Nat.pow_le_pow_right (by decide) (Nat.le_of_lt_succ power)
  have sum : size + 2 ^ k < 2 ^ 64 := by
    rw [ptrdiffMax] at bound
    omega
  cases placed : a.place heap.calls heap.blocks (size + 2 ^ k) with
  | none =>
    refine .inl ⟨rfl, { heap with calls := heap.calls + 1 }, ?_⟩
    simp only [alignalloc, sum, ↓reduceIte, Heap.malloc, placed]
  | some q =>
    obtain ⟨-, -, limit, -⟩ := a.sound placed
    obtain ⟨behind, inside⟩ := alignDown_bounds q k
    have member : ⟨q, size + 2 ^ k⟩ ∈ (heap.grant (a.holds heap.calls) ⟨q, size + 2 ^ k⟩).blocks :=
      List.mem_cons_self ..
    obtain ⟨heap', kept, keeps⟩ := keepBase_spec member behind (by omega) (by omega)
    refine .inr ⟨q, _, heap', rfl, ?_, dvd_alignDown _ k, behind, by omega, keeps.blocks, keeps.slots, keeps.found⟩
    simp only [alignalloc, sum, ↓reduceIte, Heap.malloc, placed, kept, bind, Except.bind]

/-- Three bytes, aligned to 512, in an empty heap: the distance is kept as a pointer. -/
theorem three_round_trip :
    (Allocator.upward.place 0 [] (3 + 2 ^ 9) = none ∧
      (∃ heap', alignalloc .upward .empty .EINTR (2 ^ 9) 3 = .ok (none, heap', .ENOMEM)) ∨
    ∃ q r heap', Allocator.upward.place 0 [] (3 + 2 ^ 9) = some q ∧
      alignalloc .upward .empty .EINTR (2 ^ 9) 3 = .ok (some r, heap', .EINTR) ∧
      2 ^ 9 ∣ r ∧ q < r ∧ r + 3 ≤ q + (3 + 2 ^ 9) ∧ heap'.blocks = [⟨q, 3 + 2 ^ 9⟩] ∧
      (∃ slots, heap'.writes = slots ++ [] ∧ (∀ s ∈ slots, q ≤ s.addr ∧ s.limit ≤ r) ∧
        slots.Pairwise Block.Apart) ∧
      ∀ later : Heap, ⟨q, 3 + 2 ^ 9⟩ ∈ later.blocks → (∀ i, q ≤ i → i < r → later.bytes i = heap'.bytes i) →
        alignfree later (some r) = later.free q) ∧
    Allocator.upward.place 0 [] (3 + 2 ^ 9) = some 4096 :=
  ⟨alignalloc_round_trip .upward .empty .EINTR (by decide) (by decide), by decide⟩

end Yalibct.Alignalloc

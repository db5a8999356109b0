import Mathlib.Data.List.Range
import Yalibct.Model.MemchrInv

/-! # What memchr_inv finds

It finds the first byte that differs among those it looks at, and looks at nothing outside the
range. It looks at the whole range unless there are too many words for an `unsigned int`.
-/

namespace Yalibct.MemchrInv

open Machine

/-- The address of the first byte that differs. -/
def firstDiffering (mem : Memory) (value : UInt8) (start bytes : ℕ) : Option ℕ :=
  (List.range' start bytes).find? fun addr => mem addr ≠ value

variable {heap : Heap} {mem : Memory} {value : UInt8} {start bytes : ℕ} {b : Block}

private theorem firstDiffering_add (mem : Memory) (value : UInt8) (start bytes more : ℕ) :
    firstDiffering mem value start (bytes + more) =
      (firstDiffering mem value start bytes).or (firstDiffering mem value (start + bytes) more) := by
  rw [firstDiffering, ← List.range'_append_1, List.find?_append]
  rfl

private theorem firstDiffering_one (mem : Memory) (value : UInt8) (start : ℕ) :
    firstDiffering mem value start 1 = if mem start ≠ value then some start else none := by
  simp only [firstDiffering, List.range'_one, List.find?_cons, List.find?_nil]
  split_ifs with differs
  · simp [differs]
  · simp [differs]

private theorem firstDiffering_eq_none :
    firstDiffering mem value start bytes = none ↔
      ∀ addr, start ≤ addr → addr < start + bytes → mem addr = value := by
  simp only [firstDiffering, List.find?_eq_none, List.mem_range'_1, decide_eq_true_eq, not_not,
    ne_eq, and_imp]

/-! ## Bytes and words -/

theorem checkBytes8_spec (member : b ∈ heap.blocks) (lower : b.addr ≤ start)
    (upper : start + bytes ≤ b.limit) :
    checkBytes8 heap value start bytes = .ok (firstDiffering heap.bytes value start bytes) := by
  induction bytes generalizing start with
  | zero => rfl
  | succ bytes ih =>
    have read : heap.read start 1 = .ok [heap.bytes start] :=
      Heap.read_of_mem member lower (by omega)
    rw [checkBytes8, read, Nat.add_comm bytes 1, firstDiffering_add, firstDiffering_one]
    by_cases same : heap.bytes start = value
    · simp only [same, bind, Except.bind, ne_eq, not_true_eq_false, ↓reduceIte, Option.none_or]
      exact ih (by omega) (by omega)
    · simp [same, bind, Except.bind]

private theorem wordOf_injective : ∀ {xs ys : List UInt8}, xs.length = ys.length → wordOf xs = wordOf ys → xs = ys
  | [], [], _, _ => rfl
  | x :: xs, y :: ys, length, same => by
    have low : x.toNat < 256 := x.toNat_lt
    have low' : y.toNat < 256 := y.toNat_lt
    simp only [wordOf, List.foldr_cons] at same
    have head : x = y := UInt8.toNat_inj.mp (by omega)
    have tail : xs = ys := wordOf_injective (Nat.succ.inj length) (by rw [wordOf, wordOf]; omega)
    rw [head, tail]

private theorem replicated_toNat (bitsPerLong : ℕ) (value : UInt8) :
    (replicated bitsPerLong value).toNat = wordOf (List.replicate 8 value) := by
  have bound : value.toNat < 256 := value.toNat_lt
  have eight : wordOf (List.replicate 8 value) = value.toNat * 0x0101010101010101 := by
    simp only [wordOf, List.replicate, List.foldr_cons, List.foldr_nil]
    omega
  simp only [eight, replicated]
  split_ifs
  · rw [UInt64.toNat_mul, UInt8.toNat_toUInt64]
    exact Nat.mod_eq_of_lt (by simp only [UInt64.toNat_ofNat]; omega)
  · -- The two halves have no bit in common.
    have half : (value.toUInt64 * (0x01010101 : UInt64)).toNat = value.toNat * 0x01010101 := by
      rw [UInt64.toNat_mul, UInt8.toNat_toUInt64]
      exact Nat.mod_eq_of_lt (by simp only [UInt64.toNat_ofNat]; omega)
    have low : value.toNat * 0x01010101 < 2 ^ 32 := by omega
    rw [UInt64.toNat_or, UInt64.toNat_shiftLeft, half, Nat.shiftLeft_eq, Nat.or_comm]
    have shifted : value.toNat * 0x01010101 * 2 ^ ((32 : UInt64).toNat % 64) % 2 ^ 64 =
        2 ^ 32 * (value.toNat * 0x01010101) := by
      rw [show (32 : UInt64).toNat % 64 = 32 from rfl]
      omega
    rw [shifted, ← Nat.two_pow_add_eq_or_of_lt low]
    omega

theorem read_eq_replicate (mem : Memory) (value : UInt8) (start bytes : ℕ) :
    mem.read start bytes = List.replicate bytes value ↔
      firstDiffering mem value start bytes = none := by
  rw [firstDiffering_eq_none, List.eq_replicate_iff]
  simp only [Memory.read, List.length_map, List.length_range, true_and, List.mem_map, List.mem_range,
    forall_exists_index, and_imp, forall_apply_eq_imp_iff₂]
  constructor
  · intro same addr lower upper
    have here := same (addr - start) (by omega)
    rwa [Nat.add_sub_cancel' lower] at here
  · intro same i bound
    exact same _ (Nat.le_add_right _ _) (by omega)

/-- A word differs from the repeated byte if and only if one of its bytes differs. -/
theorem word_eq_iff (bitsPerLong : ℕ) (mem : Memory) (value : UInt8) (start : ℕ) :
    wordOf (mem.read start 8) = (replicated bitsPerLong value).toNat ↔
      firstDiffering mem value start 8 = none := by
  rw [replicated_toNat, ← read_eq_replicate]
  constructor
  · exact wordOf_injective (by simp)
  · exact congrArg wordOf

theorem checkWords_spec (bitsPerLong words : ℕ) (member : b ∈ heap.blocks) (lower : b.addr ≤ start)
    (upper : start + (8 * words + bytes % 8) ≤ b.limit) :
    checkWords heap value (replicated bitsPerLong value) bytes start words =
      .ok (firstDiffering heap.bytes value start (8 * words + bytes % 8)) := by
  induction words generalizing start with
  | zero =>
    rw [Nat.mul_zero, Nat.zero_add] at upper ⊢
    exact checkBytes8_spec member lower upper
  | succ words ih =>
    have read := Heap.loadWord_of_mem member lower (show start + 8 ≤ b.limit by omega)
    have rest : checkWords heap value (replicated bitsPerLong value) bytes (start + 8) words =
        .ok (firstDiffering heap.bytes value (start + 8) (8 * words + bytes % 8)) :=
      ih (by omega) (by omega)
    rw [checkWords, read, show 8 * (words + 1) + bytes % 8 = 8 + (8 * words + bytes % 8) by omega,
      firstDiffering_add]
    have same := word_eq_iff bitsPerLong heap.bytes value start
    simp only [bind, Except.bind]
    cases first : firstDiffering heap.bytes value start 8 with
    | none => rw [if_neg (not_not_intro (same.mpr first)), rest, Option.none_or]
    | some r =>
      have differs : wordOf (heap.bytes.read start 8) ≠ (replicated bitsPerLong value).toNat :=
        fun equal => by
          rw [same.mp equal] at first
          cases first
      rw [if_pos differs, checkBytes8_spec member lower (by omega), first, Option.some_or]

/-! ## The search -/

/-- How many bytes from the start come before an address that is a multiple of eight. -/
def unaligned (start : ℕ) : ℕ := if start % 8 ≠ 0 then 8 - start % 8 else 0

/-- How many bytes are looked at if none differs. -/
def checked (start bytes : ℕ) : ℕ :=
  if bytes ≤ 16 then bytes
  else
    let rest := bytes - unaligned start
    unaligned start + (8 * (rest / 8 % 2 ^ 32) + rest % 8)

private theorem checked_le (start bytes : ℕ) : checked start bytes ≤ bytes := by
  simp only [checked, unaligned]
  split_ifs <;> omega

/-- The first byte that differs among those that are looked at. -/
theorem realMemchrInv_spec (bitsPerLong : ℕ) (c : ℤ) (member : b ∈ heap.blocks) (lower : b.addr ≤ start)
    (upper : start + bytes ≤ b.limit) :
    realMemchrInv bitsPerLong heap start c bytes =
      .ok (firstDiffering heap.bytes (UInt8.ofInt c) start (checked start bytes)) := by
  have inside := checked_le start bytes
  simp only [realMemchrInv, checked, unaligned] at inside ⊢
  split_ifs at inside ⊢ with short odd
  · exact checkBytes8_spec member lower upper
  · rw [checkBytes8_spec member lower (by omega), firstDiffering_add]
    simp only [bind, Except.bind]
    cases firstDiffering heap.bytes (UInt8.ofInt c) start (8 - start % 8) with
    | some r => rfl
    | none =>
      simp only [Option.none_or, checkAligned]
      exact checkWords_spec bitsPerLong _ member (by omega) (by omega)
  · rw [Nat.sub_zero, Nat.zero_add] at inside ⊢
    exact checkWords_spec bitsPerLong _ member lower (by omega)

/-- The words fit in the counter. -/
def Fits (start bytes : ℕ) : Prop := (bytes - unaligned start) / 8 < 2 ^ 32

theorem checked_of_fits (fits : Fits start bytes) : checked start bytes = bytes := by
  simp only [Fits, checked, unaligned] at *
  split_ifs at * <;> omega

/-- The search reads only the range. It answers with the first byte that differs, unless the words do
not fit in their counter, and bytes differ, but none that is looked at. -/
theorem finds_first_iff (bitsPerLong : ℕ) {heap : Heap} {start bytes : ℕ} (c : ℤ)
    (member : ⟨start, bytes⟩ ∈ heap.blocks) :
    (∃ r, realMemchrInv bitsPerLong heap start c bytes = .ok r) ∧
    (realMemchrInv bitsPerLong heap start c bytes =
        .ok (firstDiffering heap.bytes (UInt8.ofInt c) start bytes) ↔
      Fits start bytes ∨
      (∃ addr, start ≤ addr ∧ addr < start + checked start bytes ∧
        heap.bytes addr ≠ UInt8.ofInt c) ∨
      ∀ addr, start ≤ addr → addr < start + bytes → heap.bytes addr = UInt8.ofInt c) := by
  rw [realMemchrInv_spec bitsPerLong c member (Nat.le_refl _) (Nat.le_refl _)]
  refine ⟨⟨_, rfl⟩, ?_⟩
  have split := firstDiffering_add heap.bytes (UInt8.ofInt c) start (checked start bytes)
    (bytes - checked start bytes)
  rw [Nat.add_sub_cancel' (checked_le start bytes)] at split
  rw [Except.ok.injEq]
  constructor
  · intro same
    cases all : firstDiffering heap.bytes (UInt8.ofInt c) start (checked start bytes) with
    | none => exact .inr (.inr (firstDiffering_eq_none.mp (same.symm.trans all)))
    | some r =>
      refine .inr (.inl ?_)
      by_contra none
      push Not at none
      rw [firstDiffering_eq_none.mpr none] at all
      cases all
  · rintro (fits | ⟨addr, lower, upper, differs⟩ | same)
    · rw [checked_of_fits fits]
    · cases all : firstDiffering heap.bytes (UInt8.ofInt c) start (checked start bytes) with
      | none => exact absurd (firstDiffering_eq_none.mp all addr lower upper) differs
      | some r =>
        rw [split, all]
        rfl
    · rw [firstDiffering_eq_none.mpr same, firstDiffering_eq_none.mpr]
      intro addr lower upper
      exact same addr lower (Nat.lt_of_lt_of_le upper (Nat.add_le_add_left (checked_le _ _) _))

/-- One block of 32 GiB, which is zero but for its first byte. -/
def wideHeap : Heap := ⟨[⟨8, 2 ^ 35⟩], fun i => if i = 8 then 1 else 0, 0, []⟩

/-- Zeros from an unaligned address on, with other bytes in the first whole word and behind the last one. -/
def zerosHeap : Heap := ⟨[⟨13, 21⟩], fun i => if i = 20 then 7 else if i = 33 then 9 else 0, 0, []⟩

/-- A search of 21 bytes finds the first other byte in a word. -/
theorem first_of_words : (∃ r, realMemchrInv 64 zerosHeap 13 0 21 = .ok r) ∧
    realMemchrInv 64 zerosHeap 13 0 21 = .ok (some 20) := by
  obtain ⟨reads, finds⟩ := @finds_first_iff 64 zerosHeap 13 21 0 (List.mem_singleton.mpr rfl)
  have fits : Fits 13 21 := by
    unfold Fits
    decide
  have first : firstDiffering zerosHeap.bytes (UInt8.ofInt 0) 13 21 = some 20 := by
    decide +kernel
  exact ⟨reads, first ▸ finds.mpr (.inl fits)⟩

/-- With 2³² words the counter is zero, and no byte is looked at. -/
theorem misses_first_byte : realMemchrInv 64 wideHeap 8 0 (2 ^ 35) = .ok none ∧
    firstDiffering wideHeap.bytes 0 8 (2 ^ 35) = some 8 := by
  refine ⟨rfl, ?_⟩
  have first := firstDiffering_add wideHeap.bytes 0 8 1 (2 ^ 35 - 1)
  rw [firstDiffering_one] at first
  exact first

end Yalibct.MemchrInv

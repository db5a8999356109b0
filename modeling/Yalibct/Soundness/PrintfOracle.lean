import Yalibct.Model.PrintfOracle
import Yalibct.Soundness.MemchrInv

/-! # What the oracle accepts

The ranges that are looked at lie one after the other, and together they are the whole buffer with its
pads. So one image is accepted for each size, and no other.
-/

namespace Yalibct.PrintfOracle

open Machine MemchrInv

variable {bitsPerLong : ℕ} {heap : Heap} {b : Block} {addr alloced size elen : ℕ} {expect : List UInt8}
variable {x y : Except Fault Bool} {p q : Prop}

/-! ## Checks -/

/-- A check comes to an end, and fails unless the property holds. -/
def Checks (x : Except Fault Bool) (p : Prop) : Prop := x = .ok false ∧ p ∨ x = .ok true ∧ ¬ p

theorem Checks.iff (checks : Checks x p) (same : p ↔ q) : Checks x q := by
  rwa [Checks, ← same]

/-- What is only looked at if the first check does not fail. -/
theorem Checks.and (first : Checks x p) (second : Checks y q) :
    Checks (do if ← x then .ok true else y) (p ∧ q) := by
  rcases first with ⟨passes, holds⟩ | ⟨fails, fails'⟩
  · rw [passes]
    exact second.iff (by simp only [holds, true_and])
  · rw [fails]
    exact .inr ⟨rfl, fun both => fails' both.1⟩

/-! ## Ranges -/

/-- The byte that the buffer is filled with. -/
def fill : UInt8 := UInt8.ofInt fillChar

private theorem toSize_natCast (bound : size < 2 ^ 64) : toSize (size : ℤ) = size := by
  rw [toSize]
  omega

private theorem ptrAdd_natCast (p n : ℕ) : ptrAdd p (n : ℤ) = p + n := by
  rw [ptrAdd]
  omega

private theorem found_checks (bitsPerLong : ℕ) (member : b ∈ heap.blocks) (lower : b.addr ≤ addr)
    (upper : addr + size ≤ b.limit)
    (bound : size < 2 ^ 32) :
    Checks (found bitsPerLong heap addr size) (heap.bytes.read addr size = List.replicate size fill) := by
  have fits : Fits addr size := by
    unfold Fits
    omega
  have search := realMemchrInv_spec bitsPerLong fillChar member lower upper
  rw [checked_of_fits fits] at search
  rw [found, toSize_natCast (by omega), search, read_eq_replicate]
  cases first : firstDiffering heap.bytes fill addr size with
  | none =>
    left
    rw [fill] at first
    simp [first, bind, Except.bind]
  | some r =>
    right
    rw [fill] at first
    simp [first, bind, Except.bind]

private theorem loadByte_checks (member : b ∈ heap.blocks) (lower : b.addr ≤ addr) (upper : addr < b.limit)
    (second : Checks y q) :
    Checks (do if (← heap.loadByte addr) ≠ 0 then .ok true else y) (heap.bytes.read addr 1 = [0] ∧ q) := by
  have byte : heap.bytes.read addr 1 = [heap.bytes addr] := rfl
  rw [Heap.loadByte_of_mem member lower upper, byte]
  by_cases zero : heap.bytes addr = 0
  · rw [zero]
    exact second.iff (by simp)
  · right
    have nonzero : (heap.bytes addr).toNat ≠ 0 := fun same => zero (UInt8.toNat_inj.mp same)
    refine ⟨if_pos nonzero, fun both => zero ?_⟩
    exact List.singleton_inj.mp both.1

private theorem memcmp_checks (member : b ∈ heap.blocks) (lower : b.addr ≤ addr) (upper : addr + size ≤ b.limit)
    (inside : size ≤ expect.length) :
    Checks (do
      let equal ← memcmpEqual heap addr expect size
      .ok (!equal)) (heap.bytes.read addr size = expect.take size) := by
  rw [memcmpEqual, Heap.read_of_mem member lower upper]
  simp only [bind, Except.bind]
  rw [if_pos inside]
  by_cases same : heap.bytes.read addr size = expect.take size
  · left
    simp [same]
  · right
    simp [same]

/-! ## The image -/

/-- The pads and the buffer as they should be: what fits of the text, then a NUL, and otherwise nothing but
the byte of before. -/
def image (bufsize : ℕ) (expect : List UInt8) : List UInt8 :=
  List.replicate 16 fill ++
    if bufsize = 0 then List.replicate 272 fill
    else expect.take (bufsize - 1) ++ [0] ++ List.replicate (271 - min (bufsize - 1) expect.length) fill

private theorem append_eq_iff {first second first' second' : List UInt8} (length : first.length = first'.length) :
    first ++ second = first' ++ second' ↔ first = first' ∧ second = second' := by
  constructor
  · exact fun same => List.append_inj same length
  · rintro ⟨rfl, rfl⟩
    rfl

/-- Without room, the checks look for the fill byte everywhere. -/
theorem read_eq_image_zero (mem : Memory) (alloced : ℕ) (expect : List UInt8) :
    mem.read alloced 288 = image 0 expect ↔
      mem.read alloced 16 = List.replicate 16 fill ∧ mem.read (alloced + 16) 272 = List.replicate 272 fill := by
  rw [image, if_pos rfl, Memory.read_add mem alloced 16 272]
  exact append_eq_iff (by simp)

/-- With room, they look at the pad, the text, its NUL, the rest of the buffer and the second pad. -/
theorem read_eq_image_succ (mem : Memory) (alloced : ℕ) (text : List UInt8) {last written : ℕ} (inside : last < 256)
    (fits : written = min last text.length) :
    mem.read alloced 288 = image (last + 1) text ↔
      mem.read alloced 16 = List.replicate 16 fill ∧
      mem.read (alloced + 16 + written) 1 = [0] ∧
      mem.read (alloced + 16 + (written + 1)) (last - written) = List.replicate (last - written) fill ∧
      mem.read (alloced + 16 + (last + 1)) (271 - last) = List.replicate (271 - last) fill ∧
      mem.read (alloced + 16) written = text.take written := by
  have whole : (288 : ℕ) = 16 + (written + (1 + ((last - written) + (271 - last)))) := by omega
  have taken : text.take last = text.take written := by
    rw [fits, ← List.take_eq_take_min]
  have behind : 271 - min last text.length = (last - written) + (271 - last) := by omega
  have length : (text.take written).length = written := by
    rw [List.length_take]
    omega
  rw [image, if_neg (Nat.succ_ne_zero _), Nat.add_sub_cancel, taken, behind, ← List.replicate_append_replicate, whole]
  simp only [Memory.read_add, List.append_assoc]
  rw [append_eq_iff (by simp), append_eq_iff (by simp [length]), append_eq_iff (by simp), append_eq_iff (by simp)]
  have third : alloced + 16 + written + 1 + (last - written) = alloced + 16 + (last + 1) := by omega
  rw [third, Nat.add_assoc (alloced + 16) written 1]
  tauto

/-! ## The verdict -/

private theorem checkBuffer_zero (bitsPerLong : ℕ) (member : ⟨alloced, 288⟩ ∈ heap.blocks)
    (expect text : List UInt8) (elen : ℤ) :
    Checks (checkBuffer bitsPerLong heap alloced 0 expect elen) (heap.bytes.read alloced 288 = image 0 text) := by
  have buffer : ptrAdd alloced padSize = alloced + 16 := ptrAdd_natCast alloced 16
  have pad := @found_checks _ _ alloced 16 bitsPerLong member (Nat.le_refl _) (by simp [Block.limit]) (by decide)
  have rest := @found_checks _ _ (alloced + 16) 272 bitsPerLong member (Nat.le_add_right ..) (by simp [Block.limit]) (by decide)
  rw [checkBuffer, buffer, if_pos rfl]
  apply (pad.and rest).iff
  exact (read_eq_image_zero ..).symm

private theorem checkBuffer_succ (bitsPerLong : ℕ) (member : ⟨alloced, 288⟩ ∈ heap.blocks)
    (expected : elen ≤ expect.length)
    {last : ℕ} (inside : last < 256) :
    Checks (checkBuffer bitsPerLong heap alloced (last + 1 : ℕ) expect elen)
      (heap.bytes.read alloced 288 = image (last + 1) (expect.take elen)) := by
  have length : (expect.take elen).length = elen := List.length_take_of_le expected
  have buffer : ptrAdd alloced padSize = alloced + 16 := ptrAdd_natCast alloced 16
  obtain ⟨written, fits⟩ : ∃ written, written = min last (expect.take elen).length := ⟨_, rfl⟩
  have compared : (expect.take elen).take written = expect.take written := by
    rw [List.take_take, Nat.min_eq_left (by omega)]
  have limit : Block.limit ⟨alloced, 288⟩ = alloced + 288 := rfl
  have int : min (((last + 1 : ℕ) : ℤ) - 1) (elen : ℤ) = (written : ℕ) := by omega
  have next : (written : ℤ) + 1 = (written + 1 : ℕ) := by omega
  have rest : ((last + 1 : ℕ) : ℤ) - (written + 1 : ℕ) = (last - written : ℕ) := by omega
  have behind : bufSize + padSize - (last + 1 : ℕ) = (271 - last : ℕ) := by
    rw [bufSize, padSize]
    omega
  have size : toSize (written : ℤ) = written := toSize_natCast (by omega)
  rw [checkBuffer, buffer, if_neg (by omega)]
  dsimp only
  rw [int, next, rest, behind, size, ptrAdd_natCast, ptrAdd_natCast, ptrAdd_natCast]
  apply Checks.iff _ (read_eq_image_succ _ _ _ inside fits).symm
  rw [compared]
  apply Checks.and
  · exact @found_checks _ _ alloced 16 bitsPerLong member (Nat.le_refl _) (by rw [limit]; omega) (by decide)
  · apply loadByte_checks member
    · dsimp only
      omega
    · omega
    · apply Checks.and
      · apply found_checks bitsPerLong member
        · dsimp only
          omega
        · omega
        · omega
      · apply Checks.and
        · apply found_checks bitsPerLong member
          · dsimp only
            omega
          · omega
          · omega
        · apply memcmp_checks member
          · dsimp only
            omega
          · omega
          · omega

/-- A test passes if and only if the length was returned and the image is in the buffer. The expected
text is any bytes, as many of them as the length says. -/
theorem doTest_passes_iff (bitsPerLong : ℕ) (vsnprintf : Vsnprintf) (member : ⟨alloced, 288⟩ ∈ heap.blocks)
    (expected : elen ≤ expect.length) {bufsize : ℤ} (positive : 0 ≤ bufsize) (bound : bufsize ≤ bufSize) :
    let printed := vsnprintf (heap.bytes.write alloced (List.replicate 288 fill)) (alloced + 16) bufsize.toNat
    ∃ verdict heap', doTest bitsPerLong vsnprintf heap alloced bufsize expect elen = .ok (verdict, heap') ∧
      heap'.bytes = printed.2 ∧ (verdict = 0 ∨ verdict = 1) ∧
      (verdict = 0 ↔ printed.1 = elen ∧
        printed.2.read alloced 288 = image bufsize.toNat (expect.take elen)) := by
  obtain ⟨size, rfl⟩ := Int.eq_ofNat_of_zero_le positive
  rw [bufSize] at bound
  have whole : toSize (bufSize + 2 * padSize) = 288 := by decide
  have filled : memset heap alloced fillChar 288 = .ok (heap.stored alloced (List.replicate 288 fill)) :=
    Heap.write_of_mem member (Nat.le_refl _) (by rw [List.length_replicate]; exact Nat.le_refl _)
  have buffer : ptrAdd alloced padSize = alloced + 16 := ptrAdd_natCast alloced 16
  rw [doTest, whole, filled, buffer, toSize_natCast (by omega), Int.toNat_natCast]
  intro printed
  change ∃ verdict heap', (if printed.1 ≠ elen then _ else _) = _ ∧ _
  let after : Heap := { heap.stored alloced (List.replicate 288 fill) with bytes := printed.2 }
  have checks : Checks (checkBuffer bitsPerLong after alloced size expect elen)
      (printed.2.read alloced 288 = image size (expect.take elen)) := by
    cases size with
    | zero => exact @checkBuffer_zero after alloced bitsPerLong member expect _ _
    | succ last => exact @checkBuffer_succ after alloced elen expect bitsPerLong member expected last (by omega)
  by_cases same : printed.1 = elen
  · rw [if_neg (not_not.mpr same)]
    rcases checks with ⟨passes, holds⟩ | ⟨fails, differs⟩
    · refine ⟨0, after, ?_, rfl, .inl rfl, ?_⟩
      · exact congrArg (· >>= fun failed => .ok (if failed then (1 : ℤ) else 0, after)) passes
      · simp only [same, holds, true_and]
    · refine ⟨1, after, ?_, rfl, .inr rfl, ?_⟩
      · exact congrArg (· >>= fun failed => .ok (if failed then (1 : ℤ) else 0, after)) fails
      · simp only [same, differs, true_and, Int.one_ne_zero]
  · rw [if_pos same]
    refine ⟨1, after, rfl, rfl, .inr rfl, ?_⟩
    simp only [same, false_and, Int.one_ne_zero]

/-- `"xxx\0yyy"`, with the NUL at its end -/
def nulInside : List UInt8 := [120, 120, 120, 0, 121, 121, 121, 0]

/-- A `vsnprintf` that prints seven bytes of it as far as there is room. -/
def printsNul : Vsnprintf := fun mem addr size =>
  (7, mem.write addr ((nulInside.take 7).take (size - 1) ++ List.replicate (min size 1) 0))

/-- With room for five bytes and the NUL, its test passes. -/
theorem printsNul_passes :
    ∃ heap', doTest 64 printsNul ⟨[⟨16, 288⟩], fun _ => 0, 0, []⟩ 16 6 nulInside 7 = .ok (0, heap') := by
  obtain ⟨verdict, heap', run, -, -, passes⟩ := @doTest_passes_iff ⟨[⟨16, 288⟩], fun _ => 0, 0, []⟩ 16 7 nulInside 64
    printsNul (List.mem_singleton.mpr rfl) (by decide) 6 (by decide) (by decide)
  have right : verdict = 0 := by
    apply passes.mpr
    decide +kernel
  rw [right] at run
  exact ⟨heap', run⟩

/-- A random number below the length is drawn from a product that has twice as many bits. -/
theorem prandomU32Max_lt (random epRo : UInt32) (positive : 0 < epRo.toNat) :
    (prandomU32Max random epRo).toNat < epRo.toNat := by
  have low := random.toNat_lt
  have bound : random.toNat * epRo.toNat < 2 ^ 32 * epRo.toNat := Nat.mul_lt_mul_of_pos_right low positive
  have product : random.toNat * epRo.toNat < 2 ^ 64 := by
    have high := epRo.toNat_lt
    omega
  rw [prandomU32Max, UInt64.toNat_toUInt32, UInt64.toNat_shiftRight, UInt64.toNat_mul, UInt32.toNat_toUInt64,
    UInt32.toNat_toUInt64, Nat.mod_eq_of_lt product, Nat.shiftRight_eq_div_pow]
  exact Nat.lt_of_le_of_lt (Nat.mod_le ..) (Nat.div_lt_of_lt_mul bound)

/-- The tests of a text have sizes that fit in the buffer. -/
theorem sizes_inside (random : UInt32) {elen : ℤ} (positive : 0 ≤ elen) (short : elen < bufSize) :
    ∀ size ∈ sizes random elen, 0 ≤ size ∧ size ≤ bufSize := by
  rw [bufSize] at short
  have ep : (UInt32.ofInt (elen + 1)).toNat = (elen + 1).toNat := by
    rw [UInt32.ofInt, UInt32.toNat_ofNat']
    omega
  have drawn := prandomU32Max_lt random (UInt32.ofInt (elen + 1)) (by omega)
  intro size member
  rw [sizes, List.mem_cons, List.mem_cons, List.mem_singleton] at member
  rcases member with rfl | rfl | rfl
  · decide
  · rw [rand, bufSize]
    omega
  · decide

end Yalibct.PrintfOracle

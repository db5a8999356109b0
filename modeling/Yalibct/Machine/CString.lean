import Yalibct.Machine.Bytes

/-! # Strings

A string is the bytes before its NUL. With the NUL it is an object, so it has no more than
`PTRDIFF_MAX` bytes.
-/

namespace Yalibct.Machine

def slash : UInt8 := 47

@[ext]
structure CString where
  bytes : List UInt8
  noNul : 0 ∉ bytes
  bound : bytes.length < ptrdiffMax
deriving DecidableEq

namespace CString

/-- `strlen` -/
def length (s : CString) : ℕ := s.bytes.length

def empty : CString := ⟨[], List.not_mem_nil, by decide⟩

/-- The string from a position on. -/
def drop (s : CString) (pos : ℕ) : CString where
  bytes := s.bytes.drop pos
  noNul member := s.noNul (List.mem_of_mem_drop member)
  bound := by
    rw [List.length_drop]
    exact Nat.lt_of_le_of_lt (Nat.sub_le ..) s.bound

/-- `strndup` -/
def take (s : CString) (count : ℕ) : CString where
  bytes := s.bytes.take count
  noNul member := s.noNul (List.mem_of_mem_take member)
  bound := Nat.lt_of_le_of_lt (List.length_take_le' ..) s.bound

@[simp] theorem bytes_drop (s : CString) (pos : ℕ) : (s.drop pos).bytes = s.bytes.drop pos := rfl

@[simp] theorem bytes_take (s : CString) (count : ℕ) : (s.take count).bytes = s.bytes.take count := rfl

theorem length_lt (s : CString) : s.length < 2 ^ 63 := by
  have bound := s.bound
  rw [ptrdiffMax] at bound
  exact Nat.lt_of_lt_of_le bound (Nat.sub_le ..)

end CString

/-- `strspn`, for a set of one byte. -/
def strspn (bytes : List UInt8) (accept : UInt8) : ℕ := (bytes.takeWhile (· == accept)).length

theorem strspn_le (bytes : List UInt8) (accept : UInt8) : strspn bytes accept ≤ bytes.length :=
  (List.takeWhile_prefix _).length_le

theorem le_strspn {bytes : List UInt8} {accept : UInt8} {count : ℕ} (inside : count ≤ bytes.length) :
    count ≤ strspn bytes accept ↔ ∀ c ∈ bytes.take count, c = accept := by
  induction bytes generalizing count with
  | nil =>
    rw [Nat.le_zero.mp inside]
    simp
  | cons byte bytes ih =>
    cases count with
    | zero => simp
    | succ count =>
      have rest := ih (Nat.le_of_succ_le_succ inside)
      unfold strspn at rest ⊢
      by_cases same : byte = accept
      · simp [same, rest]
      · simp [same]

end Yalibct.Machine

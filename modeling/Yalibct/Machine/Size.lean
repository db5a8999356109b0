import Yalibct.Machine.Fallible
import Yalibct.Machine.Heap

/-! # Differences of `size_t`

A difference below zero wraps. A `Size` remembers whether that has happened to it, and is then no length
and no index.
-/

namespace Yalibct.Machine

/-- `a - b` -/
def difference (a b : ℕ) : ℕ := sizeT (a + 2 ^ 64 - b)

theorem difference_of_le {a b : ℕ} (less : b ≤ a) (bound : a < 2 ^ 64) : difference a b = a - b := by
  have shifted : a + 2 ^ 64 - b = a - b + 2 ^ 64 := by omega
  rw [difference, sizeT_eq, shifted, Nat.add_mod_right, Nat.mod_eq_of_lt (Nat.lt_of_le_of_lt (Nat.sub_le ..) bound)]

theorem difference_of_lt {a b : ℕ} (less : a < b) : difference a b = a + 2 ^ 64 - b := by
  rw [difference, sizeT_of_lt (by omega)]

structure Size where
  value : ℕ
  wrapped : Bool
deriving DecidableEq

namespace Size

/-- A value that no difference went into. -/
def exact (n : ℕ) : Size := ⟨n, false⟩

instance : Add Size := ⟨fun a b => ⟨sizeT (a.value + b.value), a.wrapped || b.wrapped⟩⟩

instance : Sub Size :=
  ⟨fun a b => ⟨difference a.value b.value, a.wrapped || b.wrapped || decide (a.value < b.value)⟩⟩

/-- Use a value as a length or an index. -/
def use (n : Size) : Except Fault ℕ := if n.wrapped then .error .undefined else .ok n.value

theorem use_exact (n : ℕ) : (exact n).use = .ok n := rfl

theorem exact_add {a b : ℕ} (bound : a + b < 2 ^ 64) : exact a + exact b = exact (a + b) := by
  change Size.mk (sizeT (a + b)) false = _
  rw [sizeT_of_lt bound]
  rfl

theorem exact_sub {a b : ℕ} (less : b ≤ a) (bound : a < 2 ^ 64) : exact a - exact b = exact (a - b) := by
  change Size.mk (difference a b) (decide (a < b)) = _
  rw [difference_of_le less bound, decide_eq_false (Nat.not_lt.mpr less)]
  rfl

end Size

end Yalibct.Machine

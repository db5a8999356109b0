import Mathlib.Data.List.TakeWhile
import Mathlib.Logic.Basic

/-! # Strings in arrays and their order

A string ends before its NUL, whatever the array holds behind it. Strings are compared by their first
different characters, where the end of a string is less than any character.
-/

namespace Yalibct.Machine

variable {α : Type} [DecidableEq α]

/-- The string at the beginning of an array. -/
def text (nul : α) (cells : List α) : List α := cells.takeWhile (· ≠ nul)

variable {nul : α} {s t run : List α}

theorem text_cons (nul c : α) (cells : List α) :
    text nul (c :: cells) = if c = nul then [] else c :: text nul cells := by
  unfold text
  split_ifs with ended
  · rw [List.takeWhile_cons_of_neg (by simpa using ended)]
  · rw [List.takeWhile_cons_of_pos (by simpa using ended)]

theorem text_append (free : nul ∉ run) (cells : List α) : text nul (run ++ cells) = run ++ text nul cells := by
  induction run with
  | nil => rfl
  | cons c run ih =>
    rw [List.mem_cons, not_or] at free
    rw [List.cons_append, text_cons, if_neg (Ne.symm free.1), ih free.2, List.cons_append]

/-- A run without a NUL, and then a NUL. -/
theorem text_of_run (free : nul ∉ run) (rest : List α) : text nul (run ++ nul :: rest) = run := by
  rw [text_append free, text_cons, if_pos rfl, List.append_nil]

theorem not_mem_text (nul : α) (cells : List α) : nul ∉ text nul cells := by
  intro member
  simpa using List.mem_takeWhile_imp member

/-- The string of an array, up to a position and there. -/
theorem text_at {cells : List α} {k : ℕ} {a : α} (held : cells[k]? = some a) (free : nul ∉ cells.take k) :
    (text nul cells).take k = cells.take k ∧ (text nul cells).getD k nul = a := by
  induction k generalizing cells with
  | zero =>
    cases cells with
    | nil => cases held
    | cons c cells =>
      cases held
      refine ⟨rfl, ?_⟩
      rw [text_cons]
      split_ifs with last
      · exact last.symm
      · rfl
  | succ k ih =>
    cases cells with
    | nil => cases held
    | cons c cells =>
      rw [List.take_succ_cons, List.mem_cons, not_or] at free
      obtain ⟨taken, there⟩ := ih held free.2
      rw [text_cons, if_neg (Ne.symm free.1), List.take_succ_cons, List.take_succ_cons, taken]
      exact ⟨rfl, there⟩

/-- A position decides how two strings compare: there they differ for the first time, or both end. -/
structure Decides (nul : α) (s t : List α) (k : ℕ) (a b : α) : Prop where
  left : s[k]? = some a
  right : t[k]? = some b
  same : s.take k = t.take k
  free : nul ∉ s.take k
  stop : a ≠ b ∨ a = nul

omit [DecidableEq α] in
theorem Decides.cons {k : ℕ} {a b c : α} (decides : Decides nul s t k a b) (other : c ≠ nul) :
    Decides nul (c :: s) (c :: t) (k + 1) a b where
  left := decides.left
  right := decides.right
  same := by rw [List.take_succ_cons, List.take_succ_cons, decides.same]
  free := by
    rw [List.take_succ_cons, List.mem_cons, not_or]
    exact ⟨Ne.symm other, decides.free⟩
  stop := decides.stop

variable [Ord α] [Std.LawfulEqOrd α] [Std.OrientedOrd α]

/-- Strings compare as their characters at the position that decides. -/
theorem compare_text (least : ∀ c : α, c ≠ nul → compare nul c = .lt) {k : ℕ} {a b : α}
    (decides : Decides nul s t k a b) : compare (text nul s) (text nul t) = compare a b := by
  obtain ⟨left, right, same, free, stop⟩ := decides
  induction k generalizing s t with
  | zero =>
    cases s with
    | nil => cases left
    | cons c s =>
      cases t with
      | nil => cases right
      | cons d t =>
        cases left
        cases right
        rw [text_cons, text_cons]
        split_ifs with leftEnd rightEnd rightEnd
        · have self : compare nul nul = .eq := Std.ReflCmp.compare_self
          rw [leftEnd, rightEnd, self, List.compare_nil_nil]
        · rw [leftEnd, least b rightEnd, List.compare_nil_cons]
        · rw [rightEnd, Std.OrientedCmp.gt_of_lt (least a leftEnd), List.compare_cons_nil]
        · rw [List.compare_cons_cons]
          cases order : compare a b with
          | lt => rfl
          | gt => rfl
          | eq =>
            have equal := Std.LawfulEqCmp.eq_of_compare order
            exact absurd equal (stop.resolve_right leftEnd)
  | succ k ih =>
    cases s with
    | nil => cases left
    | cons c s =>
      cases t with
      | nil => cases right
      | cons d t =>
        rw [List.getElem?_cons_succ] at left right
        rw [List.take_succ_cons, List.take_succ_cons, List.cons.injEq] at same
        rw [List.take_succ_cons, List.mem_cons, not_or] at free
        obtain ⟨rfl, same⟩ := same
        have self : compare c c = .eq := Std.ReflCmp.compare_self
        rw [text_cons, text_cons, if_neg (Ne.symm free.1), if_neg (Ne.symm free.1), List.compare_cons_cons, self]
        exact ih left right same free.2

/-- The same, character by character. -/
theorem compare_text_at (least : ∀ c : α, c ≠ nul → compare nul c = .lt) {k : ℕ} {a b : α}
    (left : s[k]? = some a) (right : t[k]? = some b) (same : ∀ i < k, s[i]? = t[i]?)
    (free : ∀ i < k, s[i]? ≠ some nul) (stop : a ≠ b ∨ a = nul) :
    compare (text nul s) (text nul t) = compare a b := by
  refine compare_text least ⟨left, right, ?_, ?_, stop⟩
  · apply List.ext_getElem?
    intro i
    rw [List.getElem?_take, List.getElem?_take]
    split_ifs with before
    · exact same i before
    · rfl
  · intro member
    obtain ⟨i, held⟩ := List.mem_iff_getElem?.mp member
    rw [List.getElem?_take] at held
    split_ifs at held with before
    exact free i before held

/-- The NUL is the least byte. -/
theorem compare_zero_of_ne {c : UInt8} (other : c ≠ 0) : compare 0 c = .lt :=
  Std.compare_eq_lt.mpr (UInt8.pos_iff_ne_zero.mpr other)

end Yalibct.Machine

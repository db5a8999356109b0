import Mathlib.Data.List.GetD
import Yalibct.Machine.Comparison
import Yalibct.Machine.Fallible
import Yalibct.Model.Casecmp

/-! # The signs of `strcasecmp` and `wcscasecmp`

The last two characters are the first ones that differ, so their order is the order of the folded strings.
The difference of two `unsigned char`s has its sign as an `int`; that of two `wint_t`s has it when they are
close enough.
-/

namespace Yalibct.Casecmp

open Machine

/-! ## The loop -/

variable {α : Type} [DecidableEq α] {nul : α} {fold : α → α}

/-- The folded string at the beginning of an array. -/
def folded (fold : α → α) (nul : α) (cells : List α) : List α := (text nul cells).map fold

private theorem text_map (law : ∀ c, fold c = nul ↔ c = nul) (cells : List α) :
    text nul (cells.map fold) = folded fold nul cells := by
  unfold folded
  induction cells with
  | nil => rfl
  | cons c cells ih =>
    rw [List.map_cons, text_cons, text_cons]
    split_ifs with ended last last
    · rfl
    · exact absurd ((law c).mp ended) last
    · exact absurd ((law c).mpr last) ended
    · rw [List.map_cons, ih]

theorem foldLoop_spec (law : ∀ c, fold c = nul ↔ c = nul) {s t : List α} (ended1 : nul ∈ s) (ended2 : nul ∈ t) :
    ∃ k a b, foldLoop fold nul s t = .ok (a, b) ∧ Decides nul (s.map fold) (t.map fold) k a b := by
  induction s generalizing t with
  | nil => cases ended1
  | cons p1 s ih =>
    cases t with
    | nil => cases ended2
    | cons p2 t =>
      simp only [foldLoop]
      split_ifs with last same
      · exact ⟨0, fold p1, fold p2, rfl, rfl, rfl, rfl, List.not_mem_nil, .inr last⟩
      · have other1 : p1 ≠ nul := fun nul => last ((law p1).mpr nul)
        have other2 : p2 ≠ nul := fun nul => last (same.trans ((law p2).mpr nul))
        obtain ⟨k, a, b, run, decides⟩ := ih ((List.mem_cons.mp ended1).resolve_left (Ne.symm other1))
          ((List.mem_cons.mp ended2).resolve_left (Ne.symm other2))
        refine ⟨k + 1, a, b, run, ?_⟩
        rw [List.map_cons, List.map_cons, ← same]
        exact decides.cons last
      · exact ⟨0, fold p1, fold p2, rfl, rfl, rfl, rfl, List.not_mem_nil, .inl same⟩

/-! ## The order of results -/

/-- The results order the strings among which they are. -/
structure Ordered [Ord α] (cmp : ℕ → ℕ → Except Fault ℤ) (string : ℕ → List α) (among : ℕ → Prop) : Prop where
  sign : ∀ s t, among s → among t → ∃ r, cmp s t = .ok r ∧ compare r 0 = compare (string s) (string t)
  antisymm : ∀ s t r r', among s → among t → cmp s t = .ok r → cmp t s = .ok r' →
    compare r' 0 = (compare r 0).swap
  trans : ∀ s t u r r' r'', among s → among t → among u → cmp s t = .ok r → cmp t u = .ok r' →
    cmp s u = .ok r'' → r ≤ 0 → r' ≤ 0 → r'' ≤ 0

private theorem isLE_compare_zero (r : ℤ) : (compare r 0).isLE = true ↔ r ≤ 0 := Std.isLE_compare

omit [DecidableEq α] in
theorem Ordered.of_sign [Ord α] [Std.TransOrd α] {cmp : ℕ → ℕ → Except Fault ℤ} {string : ℕ → List α}
    {among : ℕ → Prop}
    (sign : ∀ s t, among s → among t → ∃ r, cmp s t = .ok r ∧ compare r 0 = compare (string s) (string t)) :
    Ordered cmp string among := by
  have signs : ∀ s t r, among s → among t → cmp s t = .ok r → compare r 0 = compare (string s) (string t) := by
    intro s t r here there run
    obtain ⟨r', run', law⟩ := sign s t here there
    rw [run] at run'
    cases run'
    exact law
  refine ⟨sign, ?_, ?_⟩
  · intro s t r r' here there run run'
    rw [signs s t r here there run, signs t s r' there here run']
    exact Std.OrientedCmp.eq_swap
  · intro s t u r r' r'' first second third run run' run'' less less'
    rw [← isLE_compare_zero, signs s t r first second run] at less
    rw [← isLE_compare_zero, signs t u r' second third run'] at less'
    rw [← isLE_compare_zero, signs s u r'' first third run'']
    exact Std.TransCmp.isLE_trans less less'

/-! ## `strcasecmp` -/

private theorem toLower_eq_zero {isupper : UInt8 → Bool} {tolower : UInt8 → UInt8} (law : ∀ c, tolower c = 0 ↔ c = 0)
    (c : UInt8) : toLower isupper tolower c = 0 ↔ c = 0 := by
  unfold toLower
  split_ifs with upper
  · exact law c
  · exact Iff.rfl

private theorem compare_ucharDifference (a b : UInt8) : compare (ucharDifference a b) 0 = compare a b := by
  rw [ucharDifference, if_pos (by decide)]
  cases order : compare a b with
  | lt =>
    have less := UInt8.lt_iff_toNat_lt.mp (Std.compare_eq_lt.mp order)
    exact Std.compare_eq_lt.mpr (by omega)
  | eq =>
    rw [Std.LawfulEqCmp.eq_of_compare order, sub_self]
    rfl
  | gt =>
    have less := UInt8.lt_iff_toNat_lt.mp (Std.compare_eq_gt.mp order)
    exact Std.compare_eq_gt.mpr (by omega)

private theorem strcasecmp_sign {isupper : UInt8 → Bool} {tolower : UInt8 → UInt8} (law : ∀ c, tolower c = 0 ↔ c = 0)
    (chars : ℕ → List UInt8) (s t : ℕ) (ended1 : 0 ∈ chars s) (ended2 : 0 ∈ chars t) :
    ∃ r, strcasecmp isupper tolower chars s t = .ok r ∧
      compare r 0 = compare (folded (toLower isupper tolower) 0 (chars s)) (folded (toLower isupper tolower) 0 (chars t)) := by
  unfold strcasecmp
  split_ifs with same
  · subst same
    have equal : compare (folded (toLower isupper tolower) 0 (chars s)) (folded (toLower isupper tolower) 0 (chars s)) = .eq :=
      Std.ReflCmp.compare_self
    exact ⟨0, rfl, equal.symm⟩
  · obtain ⟨k, a, b, run, decides⟩ := foldLoop_spec (toLower_eq_zero law) ended1 ended2
    refine ⟨ucharDifference a b, by rw [run]; rfl, ?_⟩
    rw [compare_ucharDifference, ← text_map (toLower_eq_zero law), ← text_map (toLower_eq_zero law),
      compare_text (fun _ => compare_zero_of_ne) decides]

/-! ## `wcscasecmp` -/

/-- The difference of two `wint_t`s is no further from zero than an `int`. -/
def Near (a b : UInt32) : Prop :=
  (b < a → a.toNat - b.toNat < 2 ^ 31) ∧ (a < b → b.toNat - a.toNat ≤ 2 ^ 31)

instance (a b : UInt32) : Decidable (Near a b) := inferInstanceAs (Decidable (_ ∧ _))

private theorem near_self (a : UInt32) : Near a a :=
    ⟨fun less => absurd less (UInt32.lt_irrefl a), fun less => absurd less (UInt32.lt_irrefl a)⟩

/-- Where the folded strings differ for the first time, or one of them ends, their characters are near. -/
def Close (s t : List UInt32) : Prop := ∀ k, s.take k = t.take k → Near (s.getD k 0) (t.getD k 0)

private theorem compare_wintToInt (a b : UInt32) : compare (wintToInt (a - b)) 0 = compare a b ↔ Near a b := by
  have bound := a.toNat_lt
  have bound' := b.toNat_lt
  have value := UInt32.toNat_sub a b
  unfold wintToInt Near
  rw [UInt32.lt_iff_toNat_lt, UInt32.lt_iff_toNat_lt]
  cases order : compare a b with
  | lt =>
    have less := UInt32.lt_iff_toNat_lt.mp (Std.compare_eq_lt.mp order)
    rw [Std.compare_eq_lt]
    omega
  | eq =>
    have equal := Std.LawfulEqCmp.eq_of_compare order
    rw [Std.LawfulEqCmp.compare_eq_iff_eq]
    subst equal
    omega
  | gt =>
    have less := UInt32.lt_iff_toNat_lt.mp (Std.compare_eq_gt.mp order)
    rw [Std.compare_eq_gt]
    omega

private theorem getD_of_take_eq {s t : List UInt32} {k i : ℕ} (same : s.take k = t.take k) (before : i < k) :
    s.getD i 0 = t.getD i 0 := by
  rw [List.getD_eq_getElem?_getD, List.getD_eq_getElem?_getD, ← List.getElem?_take_of_lt before, same,
    List.getElem?_take_of_lt before]

private theorem getD_of_ended {cells : List UInt32} {k i : ℕ} (ended : (text 0 cells).getD k 0 = 0) (behind : k ≤ i) :
    (text 0 cells).getD i 0 = 0 := by
  have short : (text 0 cells).length ≤ k := by
    rcases Nat.lt_or_ge k (text 0 cells).length with inside | short
    · have member := List.getElem_mem inside
      rw [List.getD_eq_getElem _ _ inside] at ended
      rw [ended] at member
      exact absurd member (not_mem_text 0 cells)
    · exact short
  exact List.getD_eq_default _ _ (Nat.le_trans short behind)

/-- Only the position that decides counts. -/
theorem close_iff {s t : List UInt32} {k : ℕ} {a b : UInt32} (decides : Decides 0 s t k a b) :
    Close (text 0 s) (text 0 t) ↔ Near a b := by
  obtain ⟨taken1, there1⟩ := text_at decides.left decides.free
  obtain ⟨taken2, there2⟩ := text_at decides.right (decides.same ▸ decides.free)
  have same : (text 0 s).take k = (text 0 t).take k := by rw [taken1, taken2, decides.same]
  constructor
  · intro close
    have near := close k same
    rwa [there1, there2] at near
  · intro near i equal
    rcases lt_trichotomy i k with before | rfl | behind
    · rw [getD_of_take_eq same before]
      exact near_self _
    · rwa [there1, there2]
    · have both := getD_of_take_eq equal behind
      rw [there1, there2] at both
      have nul : a = 0 := decides.stop.resolve_left (not_not.mpr both)
      rw [getD_of_ended (there1.trans nul) (Nat.le_of_lt behind),
        getD_of_ended (there2.trans (both ▸ nul)) (Nat.le_of_lt behind)]
      exact near_self 0

private theorem wcscasecmp_sign {towlower : UInt32 → UInt32} (law : ∀ c, towlower c = 0 ↔ c = 0)
    (chars : ℕ → List UInt32)
    (s t : ℕ) (ended1 : 0 ∈ chars s) (ended2 : 0 ∈ chars t) :
    ∃ r, wcscasecmp towlower chars s t = .ok r ∧
      (compare r 0 = compare (folded towlower 0 (chars s)) (folded towlower 0 (chars t)) ↔
        Close (folded towlower 0 (chars s)) (folded towlower 0 (chars t))) := by
  unfold wcscasecmp
  split_ifs with same
  · subst same
    have equal : compare (folded towlower 0 (chars s)) (folded towlower 0 (chars s)) = .eq := Std.ReflCmp.compare_self
    exact ⟨0, rfl, fun _ _ _ => near_self _, fun _ => equal.symm⟩
  · obtain ⟨k, a, b, run, decides⟩ := foldLoop_spec law ended1 ended2
    refine ⟨wintToInt (a - b), by rw [run]; rfl, ?_⟩
    have least : ∀ c : UInt32, c ≠ 0 → compare 0 c = .lt := fun c other =>
      Std.compare_eq_lt.mpr (UInt32.pos_iff_ne_zero.mpr other)
    rw [← text_map law, ← text_map law, close_iff decides, compare_text least decides, compare_wintToInt]

/-- `strcasecmp` orders all strings; `wcscasecmp` has the right sign exactly for close strings, and orders
the strings among which all are close. -/
theorem casecmp_orders (isupper : UInt8 → Bool) (tolower : UInt8 → UInt8) (towlower : UInt32 → UInt32)
    (bytes : ℕ → List UInt8) (chars : ℕ → List UInt32) (law : ∀ c, tolower c = 0 ↔ c = 0)
    (wideLaw : ∀ c, towlower c = 0 ↔ c = 0) :
    Ordered (strcasecmp isupper tolower bytes) (fun s => folded (toLower isupper tolower) 0 (bytes s))
      (fun s => 0 ∈ bytes s) ∧
    (∀ s t, 0 ∈ chars s → 0 ∈ chars t → ∃ r, wcscasecmp towlower chars s t = .ok r ∧
      (compare r 0 = compare (folded towlower 0 (chars s)) (folded towlower 0 (chars t)) ↔
        Close (folded towlower 0 (chars s)) (folded towlower 0 (chars t)))) ∧
    ∀ among : ℕ → Prop, (∀ s, among s → 0 ∈ chars s) →
      (∀ s t, among s → among t → Close (folded towlower 0 (chars s)) (folded towlower 0 (chars t))) →
      Ordered (wcscasecmp towlower chars) (fun s => folded towlower 0 (chars s)) among := by
  refine ⟨.of_sign (strcasecmp_sign law bytes), wcscasecmp_sign wideLaw chars, ?_⟩
  intro among ended close
  apply Ordered.of_sign
  intro s t here there
  obtain ⟨r, run, sign⟩ := wcscasecmp_sign wideLaw chars s t (ended s here) (ended t there)
  exact ⟨r, run, sign.mpr (close s t here there)⟩

/-- `towlower` on the letters of ASCII. -/
def asciiLower (c : UInt32) : UInt32 := if 65 ≤ c ∧ c ≤ 90 then c + 32 else c

private theorem asciiLower_eq_zero (c : UInt32) : asciiLower c = 0 ↔ c = 0 := by
  unfold asciiLower
  split_ifs with letter
  · constructor
    · intro wrapped
      have value := congrArg UInt32.toNat wrapped
      have last : c.toNat ≤ 90 := letter.2
      rw [UInt32.toNat_add, UInt32.toNat_zero] at value
      change (c.toNat + 32) % 2 ^ 32 = 0 at value
      omega
    · rintro rfl
      exact absurd letter.1 (by decide)
  · exact Iff.rfl

/-- `"Ax"` and `"ay"`, which differ in case before they differ. -/
theorem two_strings_ordered :
    ∃ r, wcscasecmp asciiLower (fun s => if s = 0 then [65, 120, 0] else [97, 121, 0]) 0 1 = .ok r ∧ compare r 0 = .lt := by
  obtain ⟨r, run, sign⟩ := (casecmp_orders (fun _ => false) id asciiLower (fun _ => [0])
    (fun s => if s = 0 then [65, 120, 0] else [97, 121, 0]) (fun _ => Iff.rfl) asciiLower_eq_zero).2.1 0 1 (by decide) (by decide)
  have close : Close (folded asciiLower 0 [65, 120, 0]) (folded asciiLower 0 [97, 121, 0]) := by
    intro i _
    rcases i with _ | _ | i
    · exact near_self _
    · decide +kernel
    · exact near_self 0
  refine ⟨r, run, (sign.mpr close).trans ?_⟩
  decide +kernel

/-- The character -1 is the greatest `wint_t`, but the result is negative. -/
theorem greatest_less_than_a : ¬ ∀ (towlower : UInt32 → UInt32) (chars : ℕ → List UInt32) (s t : ℕ),
    (∀ c, towlower c = 0 ↔ c = 0) → 0 ∈ chars s → 0 ∈ chars t → ∃ r, wcscasecmp towlower chars s t = .ok r ∧
      compare r 0 = compare (folded towlower 0 (chars s)) (folded towlower 0 (chars t)) := by
  intro claimed
  obtain ⟨r, run, sign⟩ := claimed id (fun s => if s = 0 then [2 ^ 32 - 1, 0] else [97, 0]) 0 1 (fun _ => Iff.rfl)
    (by decide) (by decide)
  have value : wcscasecmp id (fun s => if s = 0 then [2 ^ 32 - 1, 0] else [97, 0]) 0 1 = .ok (-98) := by decide +kernel
  rw [run] at value
  cases value
  revert sign
  decide +kernel

end Yalibct.Casecmp

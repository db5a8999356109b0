import Yalibct.Machine.Comparison
import Yalibct.Model.StrcmpFuzz

/-! # What the fuzz test of `strcmp` accepts

The scan stops where the two strings first differ or end, so the two characters there order the strings.
A result is then wrong exactly when its sign is not the one of that order.
-/

namespace Yalibct.StrcmpFuzz

open Machine

/-! ## The arrays -/

/-- One more byte of a run replaces the first of what is behind it. -/
theorem set_take_append {source dest : List UInt8} {i : ℕ} (inside : i < source.length) (room : i < dest.length) :
    (source.take i ++ dest.drop i).set i source[i] = source.take (i + 1) ++ dest.drop (i + 1) := by
  have length : (source.take i).length = i := List.length_take_of_le (Nat.le_of_lt inside)
  rw [List.set_append_right _ _ (Nat.le_of_eq length), length, Nat.sub_self, List.drop_eq_getElem_cons room,
    List.set_cons_zero, List.take_succ_eq_append_getElem inside, List.append_assoc, List.singleton_append]

private theorem copyLoop_eq {data dest : List UInt8} {from_ count : ℕ} (source : from_ + count ≤ data.length)
    (room : count ≤ dest.length) :
    copyLoop data from_ count dest = .ok ((data.drop from_).take count ++ dest.drop count) := by
  have loop : ∃ d, copyLoop data from_ count dest = .ok d ∧ d = (data.drop from_).take count ++ dest.drop count := by
    refine forCount_ok (fun i d => d = (data.drop from_).take i ++ dest.drop i) rfl count ?_
    rintro i less d rfl
    have inside : i < (data.drop from_).length := by
      rw [List.length_drop]
      omega
    have held : data[from_ + i]? = some (data.drop from_)[i] := by
      rw [← List.getElem?_drop, List.getElem?_eq_getElem inside]
    have length : i < ((data.drop from_).take i ++ dest.drop i).length := by
      rw [List.length_append, List.length_take_of_le (Nat.le_of_lt inside), List.length_drop]
      omega
    refine ⟨_, bind_eq_ok.mpr ⟨_, load_of_getElem? held, put_of_lt length⟩, ?_⟩
    exact set_take_append inside (by omega)
  obtain ⟨d, run, rfl⟩ := loop
  exact run

private theorem build_eq (a : Allocations) {data : List UInt8} {size1 : ℕ} (inside : size1 ≤ data.length) :
    build a data size1 (data.length - size1) = .ok (data.take size1 ++ [0], data.drop size1) := by
  have length : ((List.range (size1 + 1)).map a.holds).length = size1 + 1 := by
    rw [List.length_map, List.length_range]
  have first := @copyLoop_eq data ((List.range (size1 + 1)).map a.holds) 0 size1 (by omega) (by omega)
  have second := @copyLoop_eq data (List.replicate (data.length - size1) 0) size1 (data.length - size1) (by omega)
    (by rw [List.length_replicate])
  rw [List.drop_zero] at first
  have none : (List.replicate (data.length - size1) (0 : UInt8)).drop (data.length - size1) = [] :=
    List.drop_of_length_le (by rw [List.length_replicate])
  rw [none, List.append_nil, List.take_of_length_le (by rw [List.length_drop])] at second
  have nul : put (data.take size1 ++ ((List.range (size1 + 1)).map a.holds).drop size1) size1 0 =
      .ok (data.take size1 ++ [0]) := by
    have taken : (data.take size1).length = size1 := List.length_take_of_le inside
    obtain ⟨c, last⟩ : ∃ c, ((List.range (size1 + 1)).map a.holds).drop size1 = [c] :=
      List.length_eq_one_iff.mp (by rw [List.length_drop]; omega)
    rw [last, put_of_lt (by rw [List.length_append, taken]; exact Nat.lt_succ_self _),
      List.set_append_right _ _ (Nat.le_of_eq taken), taken, Nat.sub_self, List.set_cons_zero]
  exact bind_eq_ok.mpr ⟨_, first, bind_eq_ok.mpr ⟨_, nul, bind_eq_ok.mpr ⟨_, second, rfl⟩⟩⟩

/-! ## The scan -/

/-- The scan ends at the position that decides. -/
theorem scanLoop_spec {s1 s2 : List UInt8} (ended1 : 0 ∈ s1) (ended2 : 0 ∈ s2) (k : ℕ) :
    ∃ n a b, scanLoop s1 s2 k = .ok (k + n) ∧ Decides 0 s1 s2 n a b := by
  induction s1 generalizing s2 k with
  | nil => cases ended1
  | cons c1 s1 ih =>
    cases s2 with
    | nil => cases ended2
    | cons c2 s2 =>
      simp only [scanLoop]
      split_ifs with nul1 nul2 same
      · exact ⟨0, c1, c2, rfl, rfl, rfl, rfl, List.not_mem_nil, .inr nul1⟩
      · refine ⟨0, c1, c2, rfl, rfl, rfl, rfl, List.not_mem_nil, .inl ?_⟩
        rw [nul2]
        exact nul1
      · obtain ⟨n, a, b, run, decides⟩ := ih ((List.mem_cons.mp ended1).resolve_left (Ne.symm nul1))
          ((List.mem_cons.mp ended2).resolve_left (Ne.symm nul2)) (k + 1)
        refine ⟨n + 1, a, b, ?_, ?_⟩
        · rw [run, Nat.add_assoc, Nat.add_comm 1]
        · rw [← same]
          exact decides.cons nul1
      · exact ⟨0, c1, c2, rfl, rfl, rfl, rfl, List.not_mem_nil, .inl same⟩

/-! ## The checks -/

private theorem wrongSign_iff (r : ℤ) (a b : UInt8) : wrongSign r a b = true ↔ compare r 0 ≠ compare a b := by
  unfold wrongSign
  rw [decide_eq_true_iff]
  rcases lt_trichotomy r 0 with negative | rfl | positive
  · have sign : compare r 0 = .lt := Std.compare_eq_lt.mpr negative
    have reach : Ordering.lt ≠ compare a b ↔ b ≤ a := by rw [ne_comm, ne_eq, Std.compare_eq_lt, UInt8.not_lt]
    have other : ¬ (r = 0 ∧ a ≠ b) ∧ ¬ (0 < r ∧ a ≤ b) := by omega
    rw [sign, reach]
    simp only [negative, true_and, other.1, other.2, or_false]
  · have sign : compare (0 : ℤ) 0 = .eq := rfl
    have reach : Ordering.eq ≠ compare a b ↔ a ≠ b := by
      rw [ne_comm, ne_eq, Std.LawfulEqCmp.compare_eq_iff_eq]
    rw [sign, reach]
    simp only [lt_irrefl, false_and, false_or, or_false, true_and]
  · have sign : compare r 0 = .gt := Std.compare_eq_gt.mpr positive
    have reach : Ordering.gt ≠ compare a b ↔ a ≤ b := by rw [ne_comm, ne_eq, Std.compare_eq_gt, UInt8.not_lt]
    have other : ¬ (r < 0 ∧ b ≤ a) ∧ ¬ (r = 0 ∧ a ≠ b) := by omega
    rw [sign, reach]
    simp only [positive, true_and, other.1, other.2, false_or]

private theorem wrongReversed_iff (r : ℤ) (a b : UInt8) :
    wrongReversed r a b = true ↔ compare r 0 ≠ (compare a b).swap := by
  have same : wrongReversed r a b = wrongSign r b a := by
    unfold wrongReversed wrongSign
    simp only [ne_comm]
  have swapped : compare b a = (compare a b).swap := Std.OrientedCmp.eq_swap
  rw [same, wrongSign_iff, swapped]

variable (strcmp : Strcmp)

/-- The signs of both results are right. -/
def Correct (s1 s2 : List UInt8) : Prop :=
  compare (strcmp s1 s2) 0 = compare (text 0 s1) (text 0 s2) ∧
    compare (strcmp s2 s1) 0 = (compare (text 0 s1) (text 0 s2)).swap

private theorem checkStrcmp_cases {s1 s2 : List UInt8} (ended1 : 0 ∈ s1) (ended2 : 0 ∈ s2) :
    Correct strcmp s1 s2 ∧ checkStrcmp strcmp s1 s2 = .ok 0 ∨
      ¬ Correct strcmp s1 s2 ∧ checkStrcmp strcmp s1 s2 = .error .aborted := by
  obtain ⟨n, a, b, run, decides⟩ := scanLoop_spec ended1 ended2 0
  rw [Nat.zero_add] at run
  have order : compare (text 0 s1) (text 0 s2) = compare a b :=
    compare_text (fun _ => compare_zero_of_ne) decides
  have checked : checkStrcmp strcmp s1 s2 =
      if wrongSign (strcmp s1 s2) a b then .error .aborted
      else if wrongReversed (strcmp s2 s1) a b then .error .aborted else .ok 0 := by
    unfold checkStrcmp
    rw [bind_of_ok run, bind_of_ok (load_of_getElem? decides.left), bind_of_ok (load_of_getElem? decides.right)]
  rw [Correct, order, checked]
  split_ifs with wrong reversed
  · exact .inr ⟨fun correct => (wrongSign_iff _ a b).mp wrong correct.1, rfl⟩
  · exact .inr ⟨fun correct => (wrongReversed_iff _ a b).mp reversed correct.2, rfl⟩
  · rw [wrongSign_iff, not_not] at wrong
    rw [wrongReversed_iff, not_not] at reversed
    exact .inl ⟨⟨wrong, reversed⟩, rfl⟩

/-! ## The inputs -/

/-- The length of the first string, by the first byte. -/
def firstLength (data : List UInt8) : ℕ := (data.headD 0).toNat

/-- The two strings of an input, with their NULs. -/
def string1 (data : List UInt8) : List UInt8 := data.take (firstLength data) ++ [0]
def string2 (data : List UInt8) : List UInt8 := data.drop (firstLength data)

/-- An input that is not skipped ends with a NUL behind its first string. -/
structure Split (data : List UInt8) : Prop where
  ended : data.getLast? = some 0
  room : firstLength data < data.length

theorem Split.nul_mem {data : List UInt8} (split : Split data) : 0 ∈ string2 data := by
  apply List.mem_of_getLast?
  rw [string2, List.getLast?_drop, if_neg (Nat.not_le.mpr split.room), split.ended]

private theorem nul_mem_string1 (data : List UInt8) : 0 ∈ string1 data :=
  List.mem_append_right _ (List.mem_singleton_self 0)

private theorem split_of_size {first : UInt8} {rest : List UInt8} (ended : (first :: rest).getLast nofun = 0)
    (room : (first :: rest).length - size1 first (first :: rest).length ≠ 0) : Split (first :: rest) := by
  constructor
  · rw [List.getLast?_eq_some_getLast (List.cons_ne_nil first rest), ended]
  · unfold size1 at room
    change first.toNat < (first :: rest).length
    split_ifs at room with fits
    · omega
    · omega

/-- An input is skipped; or a request is refused; or the strings of the input are checked. -/
theorem testOneInput_cases (a : Allocations) (data : List UInt8) :
    ¬ Split data ∧ testOneInput a strcmp data = .ok 0 ∨
      Split data ∧ (a.data1 = false ∨ a.data2 = false) ∧ testOneInput a strcmp data = .error .aborted ∨
      Split data ∧ testOneInput a strcmp data = checkStrcmp strcmp (string1 data) (string2 data) := by
  cases data with
  | nil =>
    refine .inl ⟨?_, rfl⟩
    rintro ⟨ended, _⟩
    cases ended
  | cons first rest =>
    have nonempty : 0 < (first :: rest).length := Nat.succ_pos rest.length
    have last : load (first :: rest) ((first :: rest).length - 1) = .ok ((first :: rest).getLast nofun) := by
      rw [List.getLast_eq_getElem]
      exact load_of_lt (Nat.sub_lt nonempty Nat.one_pos)
    have front : load (first :: rest) 0 = .ok first := load_of_getElem? rfl
    unfold testOneInput
    dsimp only
    rw [if_neg (Nat.ne_of_gt nonempty), bind_of_ok last, bind_of_ok front]
    split_ifs with ended short refused
    · refine .inl ⟨fun split => ended ?_, rfl⟩
      have whole := split.ended
      rw [List.getLast?_eq_some_getLast (List.cons_ne_nil first rest), Option.some.injEq] at whole
      exact whole
    · refine .inl ⟨fun split => ?_, rfl⟩
      have room : first.toNat < (first :: rest).length := split.room
      rw [size1, if_pos (Nat.le_of_lt room)] at short
      omega
    · refine .inr (.inl ⟨split_of_size (not_not.mp ended) short, ?_, rfl⟩)
      simpa using refused
    · have split := split_of_size (not_not.mp ended) short
      have size : size1 first (first :: rest).length = firstLength (first :: rest) :=
        if_pos (Nat.le_of_lt split.room)
      refine .inr (.inr ⟨split, ?_⟩)
      rw [size, bind_of_ok (build_eq a (Nat.le_of_lt split.room))]
      rfl

variable (a : Allocations) (data : List UInt8)

/-- No input makes the test use an index outside of an array. -/
theorem testOneInput_inside : testOneInput a strcmp data ≠ .error .outOfBounds := by
  rcases testOneInput_cases strcmp a data with ⟨_, run⟩ | ⟨_, _, run⟩ | ⟨split, run⟩
  · rw [run]
    nofun
  · rw [run]
    nofun
  · rw [run]
    rcases checkStrcmp_cases strcmp (nul_mem_string1 data) split.nul_mem with ⟨_, checked⟩ | ⟨_, checked⟩
    · rw [checked]
      nofun
    · rw [checked]
      nofun

/-- An input traps exactly when the sign of a result is wrong; and no index is outside of an array. -/
theorem testOneInput_spec :
    testOneInput a strcmp data ≠ .error .outOfBounds ∧
      (¬ Split data → testOneInput a strcmp data = .ok 0) ∧
      (Split data → a.data1 → a.data2 →
        (testOneInput a strcmp data = .error .aborted ↔ ¬ Correct strcmp (string1 data) (string2 data)) ∧
        (testOneInput a strcmp data = .ok 0 ↔ Correct strcmp (string1 data) (string2 data))) := by
  refine ⟨testOneInput_inside strcmp a data, ?_, ?_⟩
  · intro whole
    rcases testOneInput_cases strcmp a data with ⟨_, run⟩ | ⟨split, _, _⟩ | ⟨split, _⟩
    · exact run
    · exact absurd split whole
    · exact absurd split whole
  · intro split granted1 granted2
    rcases testOneInput_cases strcmp a data with ⟨whole, _⟩ | ⟨_, refused, _⟩ | ⟨_, run⟩
    · exact absurd split whole
    · rw [granted1, granted2] at refused
      simp at refused
    · rw [run]
      rcases checkStrcmp_cases strcmp (nul_mem_string1 data) split.nul_mem with ⟨right, checked⟩ | ⟨wrong, checked⟩
      · rw [checked]
        exact ⟨⟨nofun, fun wrong => absurd right wrong⟩, ⟨fun _ => right, fun _ => rfl⟩⟩
      · rw [checked]
        exact ⟨⟨fun _ => wrong, fun _ => rfl⟩, ⟨nofun, fun right => absurd right wrong⟩⟩

/-- The input 2, 6, 4, 8, 0 makes the strings 2, 6 and 4, 8, which are not equal. -/
theorem equal_traps : testOneInput ⟨true, true, fun _ => 165⟩ (fun _ _ => 0) [2, 6, 4, 8, 0] = .error .aborted := by
  refine (((testOneInput_spec _ _ _).2.2 ⟨rfl, by decide⟩ rfl rfl).1).mpr ?_
  unfold Correct
  decide

end Yalibct.StrcmpFuzz

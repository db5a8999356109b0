import Yalibct.Model.StrcatTest

/-! # The random tests of `strcat` raise no false alarm

Whatever is drawn, the lengths fit into the windows, and no difference that went into them has wrapped. So
a function that appends what it should leaves all that is checked as the test expects it.
-/

namespace Yalibct.StrcatTest

open Machine TestString Size

/-! ## The lengths -/

/-- A difference with two subtrahends is exact, or has wrapped to a value that no window has room for. -/
theorem sub_sub_cases {a b c : ℕ} (bound : a < 2 ^ 32) (bounds : b + c < 2 ^ 32) :
    b + c ≤ a ∧ exact a - exact b - exact c = exact (a - b - c) ∨
      a < b + c ∧ 512 ≤ (exact a - exact b - exact c).value := by
  rcases Nat.lt_or_ge a b with less | more
  · refine .inr ⟨by omega, ?_⟩
    change 512 ≤ difference (difference a b) c
    rw [difference_of_lt less, difference_of_le (by omega) (by omega)]
    omega
  · rw [exact_sub more (by omega)]
    rcases Nat.lt_or_ge (a - b) c with less | fits
    · refine .inr ⟨by omega, ?_⟩
      change 512 ≤ difference (a - b) c
      rw [difference_of_lt less]
      omega
    · exact .inl ⟨by omega, exact_sub fits (by omega)⟩

private theorem value_exact_add {a b : ℕ} (bound : a + b < 2 ^ 64) : (exact a + exact b).value = a + b := by
  rw [exact_add bound]
  rfl

/-- The target string ends within the window, whatever its length. -/
theorem chooseLen2_always {len1 align2 : ℕ} (bound1 : len1 ≤ 511) (bound2 : align2 ≤ 55) :
    Always (fun len2 => ∃ n, len2 = exact n ∧ align2 + n ≤ 511) (chooseLen2 (exact len1) (exact align2)) := by
  unfold chooseLen2
  rw [value_exact_add (by omega)]
  refine Always.ite (fun _ => (Always.masked 7).map _ fun n few => ⟨n, rfl, by omega⟩) fun room => ?_
  refine (Always.masked _).bind fun n most => Always.pure ?_
  rw [exact_sub (by omega) (by omega), exact_sub (by omega) (by omega)]
  refine ⟨sizeT ((512 - len1 - align2) * n) / (1024 * 1024), rfl, ?_⟩
  have product : (512 - len1 - align2) * n ≤ (512 - len1 - align2) * (1024 * 1024 - 1) := Nat.mul_le_mul_left _ most
  rw [sizeT_of_lt (by omega)]
  omega

/-- A `len1` that fits with what was there before, or that is too long for any window. -/
def Clamped (j : ℕ) (len1 : Size) : Prop := (∃ n, len1 = exact n ∧ n + j ≤ 510) ∨ 512 ≤ len1.value

/-- `len1` is exact, and fits with what was there before unless it is zero. -/
theorem clampLen1_always {len1 j : ℕ} (bound : len1 ≤ 511) (most : j ≤ 511) :
    Always (fun len => ∃ n, len = exact n ∧ (n = 0 ∨ n + j ≤ 510)) (clampLen1 (exact len1) (exact j)) := by
  unfold clampLen1
  rw [value_exact_add (by omega)]
  have shortened : Always (Clamped j) (do
      let less ← masked 7
      return exact 510 - exact j - exact less) :=
    (Always.masked 7).bind fun less few => Always.pure (by
      rcases sub_sub_cases (by omega : 510 < 2 ^ 32) (by omega : j + less < 2 ^ 32) with ⟨fits, same⟩ | ⟨_, large⟩
      · exact .inl ⟨_, same, by omega⟩
      · exact .inr large)
  have clamped := Always.ite (fun _ => shortened) fun small : ¬ 511 ≤ len1 + j =>
    Always.pure (a := exact len1) (.inl ⟨len1, rfl, by omega⟩)
  refine clamped.bind fun len held => Always.pure ?_
  rcases held with ⟨n, rfl, fits⟩ | large
  · rw [if_neg (by change ¬ 512 ≤ n; omega)]
    exact ⟨n, rfl, .inr fits⟩
  · rw [if_pos large]
    exact ⟨0, rfl, .inl rfl⟩

/-- The source string ends before the last element. -/
theorem raiseAlign1_always {align1 len1 : ℕ} (bound : align1 + len1 ≤ 510) :
    Always (fun align => ∃ n, align = exact n ∧ n + len1 ≤ 510) (raiseAlign1 (exact align1) (exact len1)) := by
  unfold raiseAlign1
  rw [value_exact_add (by omega)]
  refine Always.ite (fun small => ?_) fun _ => Always.pure ⟨align1, rfl, bound⟩
  refine (Always.masked 31).bind fun less few => Always.pure ?_
  rw [exact_sub (by omega) (by omega)]
  rcases sub_sub_cases (a := 510 - align1) (by omega) (by omega : len1 + less < 2 ^ 32) with ⟨fits, same⟩ | ⟨_, large⟩
  · rw [same]
    split_ifs with raised
    · rw [exact_add (by omega)]
      exact ⟨_, rfl, by omega⟩
    · exact ⟨align1, rfl, bound⟩
  · rw [if_neg (by omega)]
    exact ⟨align1, rfl, bound⟩

/-- The strings fit into the windows. -/
structure Lengths.Fits (l : Lengths) : Prop where
  source : l.align1 + l.len1 ≤ 510
  target : l.align2 + l.len2 ≤ 511
  both : l.align2 + l.len2 + l.len1 ≤ 511

private theorem chooseLengths_always : Always Lengths.Fits chooseLengths := by
  refine randomAligns_always.bind fun (align1, align2) ⟨bound1, bound2, _⟩ => ?_
  dsimp only at bound1 bound2 ⊢
  have length : Always (fun len => ∃ n, len = exact n ∧ n ≤ 511) (exact <$> masked 511) :=
    (Always.masked 511).map exact fun n most => ⟨n, rfl, most⟩
  refine length.bind fun _ ⟨drawn, same, bound⟩ => ?_
  subst same
  refine (chooseLen2_always bound bound2).bind fun _ ⟨len2, same, target⟩ => ?_
  subst same
  obtain ⟨j, most, upper, lower⟩ : ∃ j, (if (exact align1).value < (exact align2 + exact len2).value then
      exact align2 + exact len2 else exact align1) = exact j ∧ align1 ≤ j ∧ align2 + len2 ≤ j ∧ j ≤ 511 := by
    rw [exact_add (by omega)]
    split_ifs with less
    · exact ⟨align2 + len2, rfl, Nat.le_of_lt less, Nat.le_refl _, target⟩
    · exact ⟨align1, rfl, Nat.le_refl _, Nat.le_of_not_lt less, by omega⟩
  rw [most]
  refine (clampLen1_always bound lower.2).bind fun _ ⟨len1, same, fits⟩ => ?_
  subst same
  refine (raiseAlign1_always (by omega)).bind fun _ ⟨raised, same, source⟩ => ?_
  subst same
  have both : align2 + len2 + len1 ≤ 511 := by omega
  exact Always.pure (show Lengths.Fits ⟨raised, align2, len1, len2⟩ from ⟨source, target, both⟩)

/-! ## The strings -/

theorem fillChar_always (bigChar : ℕ) (within : Bool) :
    Always (fun c => within = true → c ≠ 0) (fillChar bigChar within) := by
  refine (Always.masked bigChar).bind fun first _ => Always.ite (fun nul => ?_) fun other => Always.pure ?_
  · refine (Always.masked smallChar).bind fun second few => Always.pure fun _ zero => ?_
    have value := congrArg UInt8.toNat zero
    rw [smallChar] at few
    rw [uchar, UInt8.toNat_ofNat', UInt8.toNat_zero] at value
    omega
  · intro inString nul
    exact other ⟨inString, nul⟩

/-- An array that holds a string of a given length at an offset. -/
structure Holds (p : Chars) (offset len : ℕ) : Prop where
  noNul : ∀ i < len, p[offset + i]? ≠ some 0
  nul : p[offset + len]? = some 0

theorem Holds.split {p : Chars} {offset len : ℕ} (holds : Holds p offset len) :
    p.drop offset = (p.drop offset).take len ++ 0 :: p.drop (offset + len + 1) ∧
      0 ∉ (p.drop offset).take len ∧ ((p.drop offset).take len).length = len := by
  have inside : offset + len < p.length := (List.getElem?_eq_some_iff.mp holds.nul).1
  refine ⟨?_, ?_, ?_⟩
  · have last : p.drop (offset + len) = 0 :: p.drop (offset + len + 1) := by
      rw [List.drop_eq_getElem_cons inside]
      congr 1
      exact (List.getElem?_eq_some_iff.mp holds.nul).2
    rw [← last, ← List.drop_drop, List.take_append_drop]
  · intro member
    obtain ⟨i, held⟩ := List.mem_iff_getElem?.mp member
    rw [List.getElem?_take] at held
    split_ifs at held with before
    rw [List.getElem?_drop] at held
    exact holds.noNul i before held
  · rw [List.length_take, List.length_drop]
    omega

/-- The string with its NUL. -/
theorem Holds.take_succ {p : Chars} {offset len : ℕ} (holds : Holds p offset len) :
    (p.drop offset).take (len + 1) = (p.drop offset).take len ++ [0] := by
  have held : (p.drop offset)[len]? = some 0 := by rw [List.getElem?_drop, holds.nul]
  rw [List.take_add_one, held]
  rfl

private theorem fillSource_always (bigChar : ℕ) {l : Lengths} {p1 : Chars} (window : p1.length = 512)
    (fits : l.Fits) :
    Always (fun p => p.length = 512 ∧ Holds p l.align1 l.len1) (fillSource bigChar l p1) := by
  have source := fits.source
  unfold fillSource
  dsimp only
  obtain ⟨j, count, most, covered⟩ : ∃ j, (if 512 < l.len1 + l.align1 + 64 then 512 else l.len1 + l.align1 + 64) = j ∧
      j ≤ 512 ∧ l.len1 + l.align1 < j := by
    split_ifs with far
    · exact ⟨512, rfl, Nat.le_refl _, by omega⟩
    · exact ⟨_, rfl, Nat.le_of_not_lt far, by omega⟩
  rw [count]
  refine Always.mono (@Always.fill _ _ (fun i c => (i = l.len1 + l.align1 → c = 0) ∧
    (l.align1 ≤ i → i < l.len1 + l.align1 → c ≠ 0)) p1 j (by omega) ?_) ?_
  · intro i q inside
    refine Always.ite (fun last => ?_) fun other => (fillChar_always bigChar _).bind fun c inString => ?_
    · exact Always.lift (put_of_lt inside) ⟨0, ⟨fun _ => rfl, fun _ within => by omega⟩, rfl⟩
    · exact Always.lift (put_of_lt inside) ⟨c, ⟨fun last => absurd last other,
        fun behind within => inString (decide_eq_true ⟨behind, within⟩)⟩, rfl⟩
  rintro q ⟨same, stored⟩
  refine ⟨same.trans window, ?_, ?_⟩
  · intro i less nul
    obtain ⟨c, held, _, other⟩ := stored (l.align1 + i) (by omega)
    rw [held, Option.some.injEq] at nul
    exact other (Nat.le_add_right ..) (by omega) nul
  · obtain ⟨c, held, last, _⟩ := stored (l.len1 + l.align1) covered
    rw [Nat.add_comm, held, last rfl]

private theorem fillTarget_always (bigChar : ℕ) {len2 : ℕ} {p3 : Chars} (room : len2 < p3.length) :
    Always (fun p => p.length = p3.length ∧ Holds p 0 len2) (fillTarget bigChar len2 p3) := by
  have filled := @Always.fill _ _ (fun _ c => c ≠ 0) p3 len2 (Nat.le_of_lt room) (fun i q inside =>
    (fillChar_always bigChar true).bind fun c other => Always.lift (put_of_lt inside) ⟨c, other rfl, rfl⟩)
  refine filled.bind fun q ⟨same, stored⟩ => ?_
  have inside : len2 < q.length := by omega
  refine (Always.put inside 0).mono ?_
  rintro _ rfl
  refine ⟨List.length_set.trans same, ?_, ?_⟩
  · intro i less
    obtain ⟨c, held, other⟩ := stored i less
    rw [Nat.zero_add, List.getElem?_set_ne (Nat.ne_of_gt less), held, Ne, Option.some.injEq]
    exact other
  · rw [Nat.zero_add, List.getElem?_set_self inside]

/-! ## A call -/

/-- The elements `'\1'` before and behind a string. -/
def framed (l : Lengths) (string : Chars) : Chars :=
  List.replicate (l.align2 + 64) 1 ++ string ++ List.replicate (512 - l.align2 - string.length) 1

variable {l : Lengths} {b : Buffers}

/-- The buffers have the elements that the test uses. -/
structure Buffers.Sized (b : Buffers) : Prop where
  p1 : b.p1.length = 512
  p2 : b.p2.length = 576
  p3 : 512 ≤ b.p3.length

private theorem setUp_eq (fits : l.Fits) (sized : b.Sized) :
    setUp l b = .ok { b with p2 := framed l (b.p3.take (l.len2 + 1)) } := by
  have target := fits.target
  have long := sized.p3
  have whole := sized.p2
  have length : (b.p3.take (l.len2 + 1)).length = l.len2 + 1 := List.length_take_of_le (by omega)
  obtain ⟨x, y, z, parts, first, second⟩ : ∃ x y z, b.p2 = x ++ y ++ z ∧ x.length = l.align2 + 64 ∧
      y.length = l.len2 + 1 := exists_run (by omega)
  have third : z.length = 511 - l.align2 - l.len2 := by
    rw [parts, List.length_append, List.length_append] at whole
    omega
  have rest : exact 512 - exact l.align2 - exact l.len2 - exact 1 = exact (511 - l.align2 - l.len2) := by
    rw [exact_sub (by omega) (by omega), exact_sub (by omega) (by omega), exact_sub (by omega) (by omega)]
    congr 1
    omega
  set ones := List.replicate (l.align2 + 64) (1 : UInt8) with before
  set more := List.replicate (511 - l.align2 - l.len2) (1 : UInt8) with behind
  have start : ones.length = l.align2 + 64 := List.length_replicate
  have putBefore : putRun b.p2 0 ones = .ok (ones ++ y ++ z) := by
    have stored := @putRun_middle _ 0 ones [] x (y ++ z) rfl (start.trans first.symm)
    rw [List.nil_append, List.nil_append, ← List.append_assoc, ← List.append_assoc] at stored
    rw [parts]
    exact stored
  have putBehind : putRun (ones ++ y ++ z) (ofP2 (l.align2 + l.len2 + 1)) more = .ok (ones ++ y ++ more) := by
    have stored := @putRun_middle _ (ofP2 (l.align2 + l.len2 + 1)) more (ones ++ y) z []
      (by rw [List.length_append, start, second, ofP2]; omega) (by rw [behind, List.length_replicate, third])
    rw [List.append_nil, List.append_nil] at stored
    exact stored
  have putString : putRun (ones ++ y ++ more) (ofP2 l.align2) (b.p3.take (l.len2 + 1)) =
      .ok (framed l (b.p3.take (l.len2 + 1))) := by
    rw [putRun_middle (by rw [start, ofP2, Nat.add_comm]) (by rw [length, second]), framed, length, ← before, behind]
    congr 3
    omega
  unfold setUp
  rw [← before, bind_of_ok putBefore, rest, bind_of_ok (use_exact _), ← behind, bind_of_ok putBehind,
    bind_of_ok (loadRun_of_le (by omega)), List.drop_zero, bind_of_ok putString]
  rfl

private theorem drop_framed (l : Lengths) (string : Chars) :
    (framed l string).drop (ofP2 l.align2) = string ++ List.replicate (512 - l.align2 - string.length) 1 := by
  rw [framed, List.append_assoc, List.drop_left' (by rw [List.length_replicate, ofP2, Nat.add_comm])]

private theorem length_framed {string : Chars} (room : l.align2 + string.length ≤ 512) :
    (framed l string).length = 576 := by
  rw [framed, List.length_append, List.length_append, List.length_replicate, List.length_replicate]
  omega

/-- A function that appends what it should makes one string of the two. -/
theorem called_eq {strcat : Strcat} (appends : Appends strcat) {source target : Chars} (free1 : 0 ∉ source)
    (free2 : 0 ∉ target) (held1 : ∃ rest, b.p1.drop l.align1 = source ++ 0 :: rest)
    (held2 : b.p2 = framed l (target ++ [0])) (room : l.align2 + target.length + source.length ≤ 511) :
    strcat b l.align2 l.align1 = ((l.align2 : ℤ), { b with p2 := framed l (target ++ source ++ [0]) }) := by
  obtain ⟨rest, held1⟩ := held1
  have before : b.p2.drop (ofP2 l.align2) =
      target ++ 0 :: List.replicate (512 - l.align2 - (target ++ [0]).length) 1 := by
    rw [held2, drop_framed, List.append_assoc, List.singleton_append]
  have string1 : text 0 (b.p1.drop l.align1) = source := by rw [held1, text_of_run free1]
  have string2 : text 0 (b.p2.drop (ofP2 l.align2)) = target := by rw [before, text_of_run free2]
  have length : b.p2.length = 576 := by
    rw [held2, length_framed (by rw [List.length_append, List.length_singleton]; omega)]
  have called := appends b l.align2 l.align1 (by rw [before]; exact List.mem_append_right _ (List.mem_cons_self ..))
    (by rw [held1]; exact List.mem_append_right _ (List.mem_cons_self ..))
    (by rw [string1, string2, length, ofP2]; omega)
  rw [called, string1, string2, held2]
  have cut : framed l (target ++ [0]) = List.replicate (l.align2 + 64) 1 ++ target ++
      ([0] ++ List.replicate source.length 1) ++ List.replicate (511 - l.align2 - target.length - source.length) 1 := by
    have ones : 512 - l.align2 - (target ++ [0]).length =
        source.length + (511 - l.align2 - target.length - source.length) := by
      rw [List.length_append, List.length_singleton]
      omega
    have split : List.replicate (source.length + (511 - l.align2 - target.length - source.length)) (1 : UInt8) =
        List.replicate source.length 1 ++ List.replicate (511 - l.align2 - target.length - source.length) 1 :=
      List.replicate_add ..
    rw [framed, ones, split]
    simp only [List.append_assoc]
  have joined : overwrite (framed l (target ++ [0])) (ofP2 l.align2 + target.length) (source ++ [0]) =
      framed l (target ++ source ++ [0]) := by
    rw [cut, overwrite_middle (by rw [List.length_append, List.length_replicate, ofP2]; omega)
      (by simp only [List.length_append, List.length_singleton, List.length_replicate]; omega), framed]
    have ones : 512 - l.align2 - (target ++ source ++ [0]).length =
        511 - l.align2 - target.length - source.length := by
      simp only [List.length_append, List.length_singleton]
      omega
    rw [ones]
    simp only [List.append_assoc]
  rw [joined]

/-! ## The checks -/

private theorem garbage_of_ones {p2 : Chars} {index : ℕ → Except Fault ℕ} {j n : ℕ}
    (ones : ∀ k, j ≤ k → k < j + n → ∃ i, index k = .ok i ∧ p2[i]? = some 1) : garbage p2 index j n = .ok false := by
  induction n generalizing j with
  | zero => rfl
  | succ n ih =>
    obtain ⟨i, found, one⟩ := ones j (Nat.le_refl j) (by omega)
    unfold garbage
    rw [bind_of_ok found, bind_of_ok (load_of_getElem? one), if_neg (fun different => different rfl)]
    exact ih fun k lower upper => ones k (by omega) (by omega)

/-- In a flat address space the index that has wrapped is the one that is meant. -/
theorem flat_before {j : ℕ} (bound : j < 2 ^ 32) : flat (exact j - exact 64) = .ok j := by
  change Except.ok (sizeT (64 + difference j 64)) = _
  congr 1
  rcases Nat.lt_or_ge j 64 with less | more
  · rw [difference_of_lt less, sizeT_eq]
    omega
  · rw [difference_of_le more (by omega), sizeT_of_lt (by omega)]
    omega

private theorem getElem?_framed_before {string : Chars} {i : ℕ} (before : i < l.align2 + 64) :
    (framed l string)[i]? = some 1 := by
  rw [framed, List.append_assoc, List.getElem?_append_left (by rw [List.length_replicate]; exact before),
    List.getElem?_replicate, if_pos before]

private theorem getElem?_framed_after {string : Chars} {i : ℕ} (behind : l.align2 + string.length ≤ i)
    (inside : i < 512) :
    (framed l string)[ofP2 i]? = some 1 := by
  have length : (List.replicate (l.align2 + 64) 1 ++ string).length ≤ ofP2 i := by
    rw [List.length_append, List.length_replicate, ofP2]
    omega
  rw [framed, List.getElem?_append_right length, List.getElem?_replicate, if_pos]
  rw [List.length_append, List.length_replicate, ofP2]
  omega

private theorem differ_of_eq {s t : Chars} {from_ to_ count : ℕ} (room1 : from_ + count ≤ s.length)
    (room2 : to_ + count ≤ t.length) (same : (s.drop from_).take count = (t.drop to_).take count) :
    differ s from_ t to_ count = .ok false := by
  unfold differ
  rw [bind_of_ok (loadRun_of_le room1), bind_of_ok (loadRun_of_le room2), same]
  simp only [ne_eq, not_true_eq_false, decide_false]
  rfl

/-- After a right call there is nothing to report. -/
theorem checkCall_eq (fits : l.Fits) (sized : b.Sized) {source target : Chars} (length1 : source.length = l.len1)
    (length2 : target.length = l.len2) (held1 : (b.p1.drop l.align1).take (l.len1 + 1) = source ++ [0])
    (held2 : b.p3.take l.len2 = target) (joined : b.p2 = framed l (target ++ source ++ [0])) :
    checkCall flat l l.align2 b = .ok [] := by
  have fitsSource := fits.source
  have fitsTarget := fits.target
  have fitsBoth := fits.both
  have window1 := sized.p1
  have window3 := sized.p3
  have string : (target ++ source ++ [0]).length = l.len2 + l.len1 + 1 := by
    rw [List.length_append, List.length_append, length1, length2, List.length_singleton]
  have window2 : b.p2.length = 576 := by rw [joined, length_framed (by omega)]
  have before : garbage b.p2 (fun j => flat (exact j - exact 64)) 0 (l.align2 + 64) = .ok false := by
    apply garbage_of_ones
    intro k _ less
    refine ⟨k, flat_before (by omega), ?_⟩
    rw [joined]
    exact getElem?_framed_before (by omega)
  have after : garbage b.p2 (fun j => .ok (ofP2 j)) (l.align2 + l.len1 + l.len2 + 1)
      (512 - (l.align2 + l.len1 + l.len2 + 1)) = .ok false := by
    apply garbage_of_ones
    intro k lower upper
    refine ⟨ofP2 k, rfl, ?_⟩
    rw [joined]
    exact getElem?_framed_after (by omega) (by omega)
  have first : differ b.p2 (ofP2 l.align2) b.p3 0 l.len2 = .ok false := by
    apply differ_of_eq (by rw [ofP2]; omega) (by omega)
    rw [joined, drop_framed, List.drop_zero, held2, List.append_assoc, List.append_assoc, ← length2, List.take_left]
  have second : differ b.p1 l.align1 b.p2 (ofP2 (l.align2 + l.len2)) (l.len1 + 1) = .ok false := by
    apply differ_of_eq (by omega) (by rw [ofP2]; omega)
    have behind : ofP2 (l.align2 + l.len2) = ofP2 l.align2 + l.len2 := by
      rw [ofP2, ofP2]
      omega
    rw [held1, behind, ← List.drop_drop, joined, drop_framed, List.append_assoc target, List.append_assoc target,
      ← length2, List.drop_left, ← length1]
    exact (List.take_left' (by rw [List.length_append, List.length_singleton])).symm
  unfold checkCall
  dsimp only
  rw [bind_of_ok before, bind_of_ok first, bind_of_ok after, bind_of_ok second]
  simp
  rfl

/-! ## An iteration -/

variable {strcat : Strcat} {bigChar : ℕ}

/-- What is there before the call, and what the call does. -/
theorem called_of_holds (appends : Appends strcat) (fits : l.Fits) (sized : b.Sized) (source : Holds b.p1 l.align1 l.len1)
    (target : Holds b.p3 0 l.len2) :
    ∃ b', setUp l b = .ok b' ∧ (strcat b' l.align2 l.align1).1 = l.align2 ∧
      (strcat b' l.align2 l.align1).2.Sized ∧ checkCall flat l l.align2 (strcat b' l.align2 l.align1).2 = .ok [] := by
  have both := fits.both
  obtain ⟨split1, free1, length1⟩ := source.split
  obtain ⟨_, free2, length2⟩ := target.split
  have nul2 := target.take_succ
  rw [List.drop_zero] at free2 length2 nul2
  refine ⟨_, setUp_eq fits sized, ?_⟩
  rw [nul2]
  have called := @called_eq l { b with p2 := framed l (b.p3.take l.len2 ++ [0]) } strcat appends _ _ free1 free2
    ⟨_, split1⟩ rfl (by omega)
  rw [called]
  have window : (framed l (b.p3.take l.len2 ++ (b.p1.drop l.align1).take l.len1 ++ [0])).length = 576 := by
    rw [length_framed]
    rw [List.length_append, List.length_append, length1, length2, List.length_singleton]
    omega
  have after : Buffers.Sized { b with p2 := framed l (b.p3.take l.len2 ++ (b.p1.drop l.align1).take l.len1 ++ [0]) } :=
    ⟨sized.p1, window, sized.p3⟩
  exact ⟨rfl, after, checkCall_eq fits after length1 length2 source.take_succ rfl rfl⟩

theorem iteration_always (appends : Appends strcat) (sized : b.Sized) :
    Always (fun r => r.1 = [] ∧ r.2.Sized) (iteration flat bigChar strcat b) := by
  refine chooseLengths_always.bind fun l fits => ?_
  refine (fillSource_always bigChar sized.p1 fits).bind fun p1 ⟨length1, source⟩ => ?_
  have room : l.len2 < b.p3.length := by
    have target := fits.target
    have long := sized.p3
    omega
  refine (fillTarget_always bigChar room).bind fun p3 ⟨length3, target⟩ => ?_
  have filled : Buffers.Sized { b with p1 := p1, p3 := p3 } := ⟨length1, sized.p2, by rw [length3]; exact sized.p3⟩
  obtain ⟨b', set, returned, after, checked⟩ := called_of_holds appends fits filled source target
  refine (@Always.lift _ (fun c => c = b') _ _ set rfl).bind fun c same => ?_
  subst same
  have report : checkCall flat l (strcat c l.align2 l.align1).1 (strcat c l.align2 l.align1).2 = .ok [] := by
    rw [returned, checked]
  refine (@Always.lift _ (fun problems => problems = []) _ _ report rfl).bind fun problems quiet => ?_
  exact Always.pure ⟨quiet, after⟩

/-- No iteration of a run leaves the buffers or has anything to report, for a function that appends what
it should; the only index that wraps is the one before `p2`, and it wraps to the element that is meant. -/
theorem doRandomTests_silent (bigChar : ℕ) {strcat : Strcat} (appends : Appends strcat) (n : ℕ) {b : Buffers}
    (sized : b.Sized) : Always (fun problems => problems = []) (doRandomTests flat bigChar strcat n b) := by
  induction n generalizing b with
  | zero => exact Always.pure rfl
  | succ n ih =>
    refine (iteration_always appends sized).bind fun (problems, b') ⟨quiet, after⟩ => ?_
    refine (ih after).bind fun rest silent => Always.pure ?_
    dsimp only at quiet
    rw [quiet, silent]
    rfl

/-- The buffers with the two strings joined. -/
def simpleStrcat : Strcat := fun b dst src =>
  ((dst : ℤ), { b with
    p2 := overwrite b.p2 (ofP2 dst + (text 0 (b.p2.drop (ofP2 dst))).length) (text 0 (b.p1.drop src) ++ [0]) })

private theorem simpleStrcat_appends : Appends simpleStrcat := fun _ _ _ _ _ _ => rfl

/-- The buffers as `test_init` leaves them, with pages of 512 bytes. -/
def initial : Buffers := ⟨List.replicate 512 165, List.replicate 576 90, List.replicate 512 165⟩

private theorem initial_sized : initial.Sized :=
  ⟨List.length_replicate, List.length_replicate, Nat.le_of_eq List.length_replicate.symm⟩

theorem simpleStrcat_silent : Always (fun problems => problems = []) (doRandomTests flat 127 simpleStrcat 10000 initial) :=
  doRandomTests_silent 127 simpleStrcat_appends 10000 initial_sized

/-- The first check of every iteration indexes `p2` with a difference that has wrapped. -/
theorem checkCall_strict (l : Lengths) (res : ℤ) (b : Buffers) : checkCall strict l res b = .error .undefined := by
  have first : garbage b.p2 (fun j => strict (exact j - exact 64)) 0 (l.align2 + 64) = .error .undefined := rfl
  unfold checkCall
  dsimp only
  rw [first]
  rfl

theorem wrapped_index_used : ¬ ∀ (strcat : Strcat) (b : Buffers), Appends strcat → b.Sized →
    Always (fun problems => problems = []) (doRandomTests strict 127 strcat 1 b) := by
  intro claimed
  obtain ⟨problems, rest, run, _⟩ := claimed simpleStrcat initial simpleStrcat_appends initial_sized (fun _ => 0)
  obtain ⟨_, _, run, _⟩ := exists_of_run_bind run
  obtain ⟨l, _, _, run⟩ := exists_of_run_bind run
  obtain ⟨p1, _, _, run⟩ := exists_of_run_bind run
  obtain ⟨p3, _, _, run⟩ := exists_of_run_bind run
  obtain ⟨b, _, _, run⟩ := exists_of_run_bind run
  obtain ⟨_, _, run, _⟩ := exists_of_run_bind run
  rw [checkCall_strict] at run
  cases run

end Yalibct.StrcatTest

import Yalibct.Machine.Comparison
import Yalibct.Model.StrcmpTest

/-! # The strings of the `strcmp` test compare as the test says

An iteration of the random tests keeps its indices within windows of 512 elements, and its two strings
are equal up to the position that decides. `do_test` places its strings within the buffers unless both of
its guards wrap.
-/

namespace Yalibct.StrcmpTest

open Machine TestString

/-! ## The lengths -/

private theorem choosePos_always {j : ℕ} (bound : j ≤ 55) : Always (fun pos => pos + j ≤ 510) (choosePos j) := by
  refine (Always.masked 511).bind fun pos _ => Always.ite (fun _ => ?_) fun small => Always.pure (by omega)
  refine (Always.masked 7).bind fun less few => Always.pure ?_
  have room : difference 510 j = 510 - j := difference_of_le (by omega) (by omega)
  rw [room, difference_of_le (by omega) (by omega)]
  omega

private theorem chooseLen1_always (pos : ℕ) {j : ℕ} (bound : j ≤ 55) :
    Always (fun len1 => len1 + j ≤ 511) (chooseLen1 pos j) := by
  refine (Always.masked 511).bind fun _ _ => ?_
  refine @Always.bind _ _ (fun _ => True) _ _ _ ?_ fun _ _ => ?_
  · exact Always.ite (fun _ => (Always.masked 1).mono fun _ _ => trivial) fun _ => Always.pure trivial
  refine @Always.bind _ _ (fun _ => True) _ _ _ ?_ fun len1 _ => ?_
  · exact Always.ite (fun _ => (Always.masked 7).map _ fun _ _ => trivial) fun _ => Always.pure trivial
  refine Always.ite (fun _ => ?_) fun small => Always.pure (by omega)
  refine (Always.masked 7).bind fun less few => Always.pure ?_
  have room : difference 511 j = 511 - j := difference_of_le (by omega) (by omega)
  rw [room, difference_of_le (by omega) (by omega)]
  omega

/-- The second string is as long as the first one, or ends behind `pos`. -/
theorem chooseLen2_always {pos len1 j : ℕ} (bound : len1 + j ≤ 511) :
    Always (fun len2 => len2 + j ≤ 511 ∧ (len1 ≤ pos ∧ len2 = len1 ∨ pos < len1 ∧ len1 ≤ len2))
      (chooseLen2 pos len1 j) := by
  have room : difference 511 j = 511 - j := difference_of_le (by omega) (by omega)
  have left : difference (511 - j) len1 = 511 - j - len1 := difference_of_le (by omega) (by omega)
  refine Always.ite (fun short => Always.pure ⟨bound, .inl ⟨short, rfl⟩⟩) fun long => ?_
  rw [room, left]
  refine Always.ite (fun more => ?_) fun _ => Always.pure ⟨bound, .inr ⟨Nat.lt_of_not_le long, Nat.le_refl _⟩⟩
  refine Always.random.bind fun n _ => ?_
  have divisor : 511 - j - len1 ≠ 0 := by omega
  have less := Nat.mod_lt n (Nat.pos_of_ne_zero divisor)
  refine Always.bind (Always.lift (if_neg divisor) (rfl : n % (511 - j - len1) = _)) fun r same => Always.pure ?_
  rw [← same]
  exact ⟨by omega, .inr ⟨Nat.lt_of_not_le long, Nat.le_add_right ..⟩⟩

/-! ## The windows -/

/-- A window of the elements before `j` and with a string up to `stop`. -/
structure Filled (stop j : ℕ) (p : Chars) : Prop where
  length : p.length = 512
  noNul : ∀ i < j, i < stop → p[i]? ≠ some 0

theorem fillChar_always (within : Bool) : Always (fun c => within = true → c ≠ 0) (fillChar within) := by
  refine (Always.masked 255).bind fun first _ => Always.ite (fun nul => ?_) fun other => Always.pure ?_
  · refine (Always.masked 255).bind fun second _ => Always.ite (fun _ => ?_) fun other => Always.pure fun _ => other
    refine (Always.masked 127).bind fun last few => Always.pure fun _ zero => ?_
    have value := congrArg UInt8.toNat zero
    rw [uchar, UInt8.toNat_ofNat', UInt8.toNat_zero] at value
    omega
  · intro inString nul
    exact other ⟨inString, nul⟩

private theorem fillLoop_always {j stop : ℕ} {p : Chars} (length : p.length = 512) (bound : j ≤ 512) :
    Always (Filled stop j) (fillLoop j stop p) := by
  have filled : Always (fun q => q.length = p.length ∧ ∀ i < j, ∃ c, q[i]? = some c ∧ (i < stop → c ≠ 0))
      (fillLoop j stop p) :=
    Always.fill (by omega) fun i q inside => (fillChar_always _).bind fun c inString =>
      Always.lift (put_of_lt inside) ⟨c, fun within => inString (decide_eq_true within), rfl⟩
  refine filled.mono ?_
  rintro q ⟨same, stored⟩
  refine ⟨same.trans length, ?_⟩
  intro i less within nul
  obtain ⟨c, held, other⟩ := stored i less
  rw [held, Option.some.injEq] at nul
  exact other within nul

/-! ## The character that decides -/

/-- Three to 130 more is another character. -/
theorem add_ne (c : UInt8) {more : ℕ} (few : more ≤ 127) : c + 3 + uchar more ≠ c := by
  intro same
  have value := congrArg UInt8.toNat same
  rw [UInt8.toNat_add, UInt8.toNat_add, uchar, UInt8.toNat_ofNat'] at value
  have three : (3 : UInt8).toNat = 3 := rfl
  have bound := c.toNat_lt
  omega

/-- The other elements stay, and at the index is another character. -/
structure Differs (p q : Chars) (i : ℕ) (c1 : UInt8) : Prop where
  length : q.length = p.length
  others : ∀ k, k ≠ i → q[k]? = p[k]?
  other : ∃ c2, q[i]? = some c2 ∧ c1 ≠ c2

theorem Differs.of_set {p : Chars} {i : ℕ} {c1 c2 : UInt8} (inside : i < p.length) (other : c2 ≠ c1) :
    Differs p (p.set i c2) i c1 := by
  constructor
  · exact List.length_set
  · intro k different
    exact List.getElem?_set_ne (Ne.symm different)
  · exact ⟨c2, List.getElem?_set_self inside, Ne.symm other⟩

theorem Differs.of_set_twice {p : Chars} {i : ℕ} {c1 c2 c3 : UInt8} (inside : i < p.length) (other : c3 ≠ c1) :
    Differs p ((p.set i c2).set i c3) i c1 := by
  rw [List.set_set]
  exact .of_set inside other

private theorem differAt_always {p : Chars} {i : ℕ} (c1 : UInt8) (inside : i < p.length) :
    Always (fun q => Differs p q i c1) (differAt p i c1) := by
  refine (Always.load inside).bind fun c2 held => ?_
  refine Always.ite (fun _ => ?_) fun different => Always.pure ?_
  · refine (Always.masked 255).bind fun other _ => ?_
    refine (Always.put inside (uchar other)).bind fun q stored => ?_
    subst stored
    refine Always.ite (fun _ => ?_) fun different => Always.pure (.of_set inside different)
    refine (Always.masked 127).bind fun more few => ?_
    refine Always.lift (put_of_lt ?_) (.of_set_twice inside (add_ne c1 few))
    rwa [List.length_set]
  · exact ⟨rfl, fun _ _ => rfl, c2, held, Ne.symm different⟩

/-- The sign of a comparison of characters. -/
theorem compare_sign {c1 c2 : UInt8} (different : c1 ≠ c2) :
    compare (if c1 < c2 then (-1 : ℤ) else 1) 0 = compare c1 c2 := by
  split_ifs with less
  · rw [Std.compare_eq_lt.mpr less]
    rfl
  · have greater : c2 < c1 := by
      rcases UInt8.lt_or_lt_of_ne different with lower | higher
      · exact absurd lower less
      · exact higher
    rw [Std.compare_eq_gt.mpr greater]
    rfl

/-- Either the first string ends before `pos` and nothing is patched; or the characters at `pos` differ, and
the result has the sign of their comparison. -/
def Patched (p1 p2 : Chars) (align1 align2 pos len1 : ℕ) (r : Chars × ℤ) : Prop :=
  len1 ≤ pos ∧ r = (p2, 0) ∨
    pos < len1 ∧ ∃ c1 c2, p1[align1 + pos]? = some c1 ∧ r.1[align2 + pos]? = some c2 ∧ c1 ≠ c2 ∧
      r.1.length = p2.length ∧ (∀ k, k ≠ align2 + pos → r.1[k]? = p2[k]?) ∧ compare r.2 0 = compare c1 c2

private theorem patch_always {p1 p2 : Chars} {align1 align2 pos : ℕ} (len1 : ℕ) (inside1 : align1 + pos < p1.length)
    (inside2 : align2 + pos < p2.length) :
    Always (Patched p1 p2 align1 align2 pos len1) (patch p1 p2 align1 align2 pos len1) := by
  refine Always.ite (fun short => ?_) fun long => Always.pure (.inl ⟨Nat.le_of_not_lt long, rfl⟩)
  refine (Always.load inside1).bind fun c1 held => ?_
  refine (differAt_always c1 inside2).bind fun q differs => ?_
  obtain ⟨c2, stored, different⟩ := differs.other
  refine (Always.lift (load_of_getElem? stored) (rfl : c2 = _)).bind fun c same => Always.pure (.inr ⟨short, ?_⟩)
  subst same
  exact ⟨c1, c2, held, stored, different, differs.length, differs.others, compare_sign different⟩

/-! ## An iteration -/

/-- In windows of 512 elements are two strings, and the result has the sign of their comparison. -/
structure Iteration.Right (it : Iteration) : Prop where
  window1 : it.p1.length = 512
  window2 : it.p2.length = 512
  ended1 : 0 ∈ it.p1.drop it.align1
  ended2 : 0 ∈ it.p2.drop it.align2
  order : compare it.result 0 = compare (text 0 (it.p1.drop it.align1)) (text 0 (it.p2.drop it.align2))

/-- The lengths and alignments that are chosen fit into the windows. -/
structure Fits (align1 align2 pos len1 len2 : ℕ) : Prop where
  first : len1 + align1 ≤ 511
  second : len2 + align2 ≤ 511
  decides1 : align1 + pos ≤ 510
  decides2 : align2 + pos ≤ 510
  ends : len1 ≤ pos ∧ len2 = len1 ∨ pos < len1 ∧ len1 ≤ len2

/-- The terminated strings, when the equal run and the deciding character are there. -/
theorem right_of_patched {align1 align2 pos len1 len2 : ℕ} {p1 p2 : Chars} {r : Chars × ℤ}
    (fits : Fits align1 align2 pos len1 len2) (window1 : p1.length = 512) (window2 : p2.length = 512)
    (free : ∀ i < len1 + align1, p1[i]? ≠ some 0) (same : ∀ i < pos, p2[align2 + i]? = p1[align1 + i]?)
    (patched : Patched p1 p2 align1 align2 pos len1 r) :
    Iteration.Right ⟨align1, align2, p1.set (len1 + align1) 0, r.1.set (len2 + align2) 0, r.2⟩ := by
  have first := fits.first
  have second := fits.second
  have length : r.1.length = 512 := by
    rcases patched with ⟨_, rfl⟩ | ⟨_, _, _, _, _, _, kept, _⟩
    · exact window2
    · rw [kept, window2]
  have nul1 : ((p1.set (len1 + align1) 0).drop align1)[len1]? = some 0 := by
    rw [List.getElem?_drop, Nat.add_comm, List.getElem?_set_self (by omega)]
  have nul2 : ((r.1.set (len2 + align2) 0).drop align2)[len2]? = some 0 := by
    rw [List.getElem?_drop, Nat.add_comm, List.getElem?_set_self (by omega)]
  have before1 : ∀ i < len1, ((p1.set (len1 + align1) 0).drop align1)[i]? = p1[align1 + i]? := by
    intro i less
    rw [List.getElem?_drop, List.getElem?_set_ne (by omega)]
  have before2 : ∀ i < len2, ((r.1.set (len2 + align2) 0).drop align2)[i]? = r.1[align2 + i]? := by
    intro i less
    rw [List.getElem?_drop, List.getElem?_set_ne (by omega)]
  refine ⟨by rw [List.length_set, window1], by rw [List.length_set, length], List.mem_of_getElem? nul1,
    List.mem_of_getElem? nul2, ?_⟩
  rcases patched with ⟨short, rfl⟩ | ⟨long, c1, c2, held1, held2, different, _, kept, sign⟩
  · rcases fits.ends with ⟨_, rfl⟩ | ⟨long, _⟩
    · have equal := compare_text_at (fun _ => compare_zero_of_ne) nul1 nul2 (fun i less => by
        rw [before1 i less, before2 i less, same i (by omega)]) (fun i less => by
        rw [before1 i less]
        exact free _ (by omega)) (.inr rfl)
      rw [equal]
      rfl
    · omega
  · rcases fits.ends with ⟨short, _⟩ | ⟨_, longer⟩
    · omega
    · have decided := compare_text_at (fun _ => compare_zero_of_ne) ((before1 pos long).trans held1)
        ((before2 pos (by omega)).trans held2) (fun i less => by
          rw [before1 i (by omega), before2 i (by omega), kept _ (by omega), same i less]) (fun i less => by
          rw [before1 i (by omega)]
          exact free _ (by omega)) (.inl different)
      exact sign.trans decided.symm

/-- How many elements are filled: no more than a window has, and the first string at least. -/
theorem filled_bound {align1 pos len1 len2 : ℕ} (first : len1 + align1 ≤ 511)
    (ends : len1 ≤ pos ∧ len2 = len1 ∨ pos < len1 ∧ len1 ≤ len2) (j : ℕ)
    (count : j = if 512 < (if len2 < pos then pos else len2) + align1 + 64 then 512
      else (if len2 < pos then pos else len2) + align1 + 64) : j ≤ 512 ∧ len1 + align1 ≤ j := by
  split_ifs at count with far wide wide
  · omega
  · omega
  · omega
  · omega

theorem iteration_always {p1 p2 : Chars} (window1 : p1.length = 512) (window2 : p2.length = 512) :
    Always Iteration.Right (iteration p1 p2) := by
  refine randomAligns_always.bind fun (align1, align2) ⟨bound1, bound2, _⟩ => ?_
  dsimp only at bound1 bound2 ⊢
  generalize most : (if align2 < align1 then align1 else align2) = j
  have upper : align1 ≤ j ∧ align2 ≤ j ∧ j ≤ 55 := by
    split_ifs at most with less
    · omega
    · omega
  refine (choosePos_always upper.2.2).bind fun pos room => ?_
  refine (chooseLen1_always pos upper.2.2).bind fun len1 room1 => ?_
  refine (chooseLen2_always room1).bind fun len2 ⟨room2, ends⟩ => ?_
  have fits : Fits align1 align2 pos len1 len2 := ⟨by omega, by omega, by omega, by omega, ends⟩
  generalize count : (if 512 < (if len2 < pos then pos else len2) + align1 + 64 then 512
    else (if len2 < pos then pos else len2) + align1 + 64) = filled
  obtain ⟨most, covered⟩ := filled_bound fits.first ends filled count.symm
  refine (fillLoop_always window1 most).bind fun q1 filled1 => ?_
  refine (fillLoop_always window2 most).bind fun q2 filled2 => ?_
  have length1 := filled1.length
  have length2 := filled2.length
  have decides1 := fits.decides1
  have decides2 := fits.decides2
  have taken : ((q1.drop align1).take pos).length = pos := by
    rw [List.length_take, List.length_drop]
    omega
  refine (Always.lift (loadRun_of_le (by omega)) (rfl : (q1.drop align1).take pos = _)).bind fun run loaded => ?_
  subst loaded
  refine (Always.lift (putRun_of_le (by omega))
    (rfl : overwrite q2 align2 ((q1.drop align1).take pos) = _)).bind fun copied stored => ?_
  subst stored
  have window : (overwrite q2 align2 ((q1.drop align1).take pos)).length = 512 := by
    rw [length_overwrite (by omega), length2]
  have same : ∀ i < pos, (overwrite q2 align2 ((q1.drop align1).take pos))[align2 + i]? = q1[align1 + i]? := by
    intro i less
    rw [getElem?_overwrite (by omega), if_neg (by omega), if_pos (by omega), Nat.add_sub_cancel_left,
      List.getElem?_take_of_lt less, List.getElem?_drop]
  refine (patch_always len1 (by omega) (by omega)).bind fun r patched => ?_
  have length : r.1.length = 512 := by
    rcases patched with ⟨_, rfl⟩ | ⟨_, _, _, _, _, _, kept, _⟩
    · exact window
    · rw [kept, window]
  have second := fits.second
  refine (Always.put (by omega) 0).bind fun final1 terminated1 => ?_
  refine (Always.put (by omega) 0).bind fun final2 terminated2 => Always.pure ?_
  rw [terminated1, terminated2]
  exact right_of_patched fits length1 window
    (fun i less => filled1.noNul i (Nat.lt_of_lt_of_le less covered) less) same patched

/-- In a whole run every iteration is right. -/
theorem doRandomTests_always (n : ℕ) {p1 p2 : Chars} (window1 : p1.length = 512) (window2 : p2.length = 512) :
    Always (fun its => its.length = n ∧ ∀ it ∈ its, it.Right) (doRandomTests n p1 p2) := by
  induction n generalizing p1 p2 with
  | zero => exact Always.pure ⟨rfl, fun _ member => absurd member List.not_mem_nil⟩
  | succ n ih =>
    refine (iteration_always window1 window2).bind fun it right => ?_
    refine (ih right.window1 right.window2).bind fun rest ⟨length, all⟩ => Always.pure ⟨congrArg (· + 1) length, ?_⟩
    intro other member
    rcases List.mem_cons.mp member with rfl | later
    · exact right
    · exact all other later

/-! ## `do_test` -/

/-- In both buffers are strings that compare as asked for. -/
structure Placed.Right (placed : Placed) (expResult : ℤ) : Prop where
  ended1 : 0 ∈ placed.buf1.drop placed.s1
  ended2 : 0 ∈ placed.buf2.drop placed.s2
  order : compare expResult 0 =
    compare (text 0 (placed.buf1.drop placed.s1)) (text 0 (placed.buf2.drop placed.s2))

/-- The buffers after some rounds of the loop: of the old length, and with the characters so far. -/
structure Stored (size maxChar s1 s2 i : ℕ) (bufs : Chars × Chars) : Prop where
  length1 : bufs.1.length = size
  length2 : bufs.2.length = size
  chars1 : ∀ k < i, bufs.1[s1 + k]? = some (charAt maxChar k)
  chars2 : ∀ k < i, bufs.2[s2 + k]? = some (charAt maxChar k)

private theorem charAt_ne_zero {maxChar : ℕ} (least : 1 ≤ maxChar) (most : maxChar ≤ 254) (i : ℕ) :
    1 ≤ (charAt maxChar i).toNat ∧ (charAt maxChar i).toNat ≤ 254 := by
  have less := Nat.mod_lt (sizeT (23 * i)) least
  rw [charAt, uchar, UInt8.toNat_ofNat']
  omega

theorem Stored.set {size maxChar s1 s2 i : ℕ} {bufs : Chars × Chars} (stored : Stored size maxChar s1 s2 i bufs)
    (room1 : s1 + i < size) (room2 : s2 + i < size) :
    Stored size maxChar s1 s2 (i + 1)
      (bufs.1.set (s1 + i) (charAt maxChar i), bufs.2.set (s2 + i) (charAt maxChar i)) := by
  have length1 := stored.length1
  have length2 := stored.length2
  constructor
  · rw [List.length_set, length1]
  · rw [List.length_set, length2]
  · intro k less
    rcases Nat.lt_succ_iff_lt_or_eq.mp less with earlier | rfl
    · rw [List.getElem?_set_ne (by omega)]
      exact stored.chars1 k earlier
    · exact List.getElem?_set_self (by omega)
  · intro k less
    rcases Nat.lt_succ_iff_lt_or_eq.mp less with earlier | rfl
    · rw [List.getElem?_set_ne (by omega)]
      exact stored.chars2 k earlier
    · exact List.getElem?_set_self (by omega)

private theorem charLoop_ok {size maxChar s1 s2 len : ℕ} {bufs : Chars × Chars} (length1 : bufs.1.length = size)
    (length2 : bufs.2.length = size) (room1 : s1 + len ≤ size) (room2 : s2 + len ≤ size) :
    ∃ bufs', charLoop maxChar s1 s2 len bufs = .ok bufs' ∧ Stored size maxChar s1 s2 len bufs' := by
  refine forCount_ok (Stored size maxChar s1 s2) ⟨length1, length2, fun _ less => absurd less (Nat.not_lt_zero _),
    fun _ less => absurd less (Nat.not_lt_zero _)⟩ len ?_
  intro i less bufs stored
  have inside1 : s1 + i < bufs.1.length := by rw [stored.length1]; omega
  have inside2 : s2 + i < bufs.2.length := by rw [stored.length2]; omega
  refine ⟨_, bind_eq_ok.mpr ⟨_, put_of_lt inside2, bind_eq_ok.mpr ⟨_, put_of_lt inside1, rfl⟩⟩, ?_⟩
  exact stored.set (by omega) (by omega)

/-- The last character of the second string is changed against the asked sign. -/
theorem compare_changed {c : UInt8} (least : 1 ≤ c.toNat) (most : c.toNat ≤ 254) {expResult : ℤ}
    (asked : expResult = -1 ∨ expResult = 1) :
    c ≠ toChar (c.toNat - expResult) ∧ compare expResult 0 = compare c (toChar (c.toNat - expResult)) := by
  have value : (toChar (c.toNat - expResult)).toNat = (c.toNat - expResult).toNat := by
    rw [toChar, uchar, UInt8.toNat_ofNat']
    rcases asked with rfl | rfl
    · omega
    · omega
  rcases asked with rfl | rfl
  · have less : c < toChar (c.toNat - -1) := by
      rw [UInt8.lt_iff_toNat_lt, value]
      omega
    refine ⟨UInt8.ne_of_lt less, ?_⟩
    rw [Std.compare_eq_lt.mpr less]
    rfl
  · have less : toChar (c.toNat - 1) < c := by
      rw [UInt8.lt_iff_toNat_lt, value]
      omega
    refine ⟨(UInt8.ne_of_lt less).symm, ?_⟩
    rw [Std.compare_eq_gt.mpr less]
    rfl

/-- The strings up to their ends: the second one differs in its last character at most. -/
structure Finished (maxChar s1 s2 len : ℕ) (other : UInt8) (bufs : Chars × Chars) : Prop where
  before1 : ∀ i < len + 1, (bufs.1.drop s1)[i]? = some (charAt maxChar i)
  nul1 : (bufs.1.drop s1)[len + 1]? = some 0
  before2 : ∀ i < len, (bufs.2.drop s2)[i]? = some (charAt maxChar i)
  last2 : (bufs.2.drop s2)[len]? = some other
  nul2 : (bufs.2.drop s2)[len + 1]? = some 0

private theorem finish_finished {size maxChar s1 s2 len : ℕ} {bufs : Chars × Chars} {expResult : ℤ}
    (stored : Stored size maxChar s1 s2 (len + 1) bufs) (room1 : s1 + (len + 1) + 2 ≤ size)
    (room2 : s2 + (len + 1) + 2 ≤ size) :
    ∃ bufs', finish s1 s2 (len + 1) expResult bufs = .ok bufs' ∧
      Finished maxChar s1 s2 len (toChar ((charAt maxChar len).toNat - expResult)) bufs' := by
  have length1 := stored.length1
  have length2 := stored.length2
  set other := toChar ((charAt maxChar len).toNat - expResult)
  set done1 := (bufs.1.set (s1 + (len + 1)) 0).set (s1 + (len + 1) + 1) 23 with final1
  set done2 := (((bufs.2.set (s2 + (len + 1)) 0).set (s2 + (len + 1) + 1) (toChar (24 + expResult))).set
    (s2 + (len + 1) - 1) other) with final2
  have held : ((bufs.2.set (s2 + (len + 1)) 0).set (s2 + (len + 1) + 1) (toChar (24 + expResult)))[s2 + (len + 1) - 1]? =
      some (charAt maxChar len) := by
    rw [List.getElem?_set_ne (by omega), List.getElem?_set_ne (by omega)]
    exact stored.chars2 len (Nat.lt_succ_self len)
  have run : finish s1 s2 (len + 1) expResult bufs = .ok (done1, done2) := by
    unfold finish
    rw [bind_of_ok (put_of_lt (by omega)), bind_of_ok (put_of_lt (by omega)),
      bind_of_ok (put_of_lt (by rw [List.length_set]; omega)), bind_of_ok (put_of_lt (by rw [List.length_set]; omega)),
      bind_of_ok (load_of_getElem? held),
      bind_of_ok (put_of_lt (by rw [List.length_set, List.length_set]; omega))]
    rfl
  refine ⟨_, run, ?_, ?_, ?_, ?_, ?_⟩
  · intro i less
    rw [List.getElem?_drop, final1, List.getElem?_set_ne (by omega), List.getElem?_set_ne (by omega)]
    exact stored.chars1 i less
  · rw [List.getElem?_drop, final1, List.getElem?_set_ne (by omega), List.getElem?_set_self (by omega)]
  · intro i less
    rw [List.getElem?_drop, final2, List.getElem?_set_ne (by omega), List.getElem?_set_ne (by omega),
      List.getElem?_set_ne (by omega)]
    exact stored.chars2 i (Nat.lt_succ_of_lt less)
  · rw [List.getElem?_drop, final2, Nat.add_succ_sub_one, List.getElem?_set_self]
    rw [List.length_set, List.length_set]
    omega
  · rw [List.getElem?_drop, final2, List.getElem?_set_ne (by omega), List.getElem?_set_ne (by omega),
      List.getElem?_set_self (by omega)]

/-- Strings that are changed by the asked sign compare with that sign. -/
theorem Finished.right {maxChar s1 s2 len : ℕ} {bufs : Chars × Chars} {expResult : ℤ} (least : 1 ≤ maxChar)
    (most : maxChar ≤ 254) (asked : expResult = -1 ∨ expResult = 0 ∨ expResult = 1)
    (finished : Finished maxChar s1 s2 len (toChar ((charAt maxChar len).toNat - expResult)) bufs) :
    Placed.Right ⟨bufs.1, bufs.2, s1, s2⟩ expResult := by
  obtain ⟨before1, nul1, before2, last2, nul2⟩ := finished
  obtain ⟨positive, byte⟩ := charAt_ne_zero least most len
  have free : ∀ i < len + 1, (bufs.1.drop s1)[i]? ≠ some 0 := by
    intro i less nul
    rw [before1 i less, Option.some.injEq] at nul
    have value := (charAt_ne_zero least most i).1
    rw [nul] at value
    exact absurd value (by decide)
  have shorter : ∀ i < len, (bufs.1.drop s1)[i]? = (bufs.2.drop s2)[i]? := fun i less => by
    rw [before1 i (Nat.lt_succ_of_lt less), before2 i less]
  refine ⟨List.mem_of_getElem? nul1, List.mem_of_getElem? nul2, ?_⟩
  by_cases zero : expResult = 0
  · have unchanged : toChar ((charAt maxChar len).toNat - expResult) = charAt maxChar len := by
      rw [zero, toChar, uchar]
      apply UInt8.toNat_inj.mp
      rw [UInt8.toNat_ofNat']
      omega
    have equal := compare_text_at (fun _ => compare_zero_of_ne) nul1 nul2 (fun i less => by
      rcases Nat.lt_succ_iff_lt_or_eq.mp less with earlier | rfl
      · exact shorter i earlier
      · rw [before1 i less, last2, unchanged]) free (.inr rfl)
    rw [zero]
    exact equal.symm
  · obtain ⟨different, sign⟩ := compare_changed positive byte (by omega : expResult = -1 ∨ expResult = 1)
    have decided := compare_text_at (fun _ => compare_zero_of_ne) (before1 len (Nat.lt_succ_self len)) last2 shorter
      (fun i less => free i (Nat.lt_succ_of_lt less)) (.inl different)
    exact sign.trans decided.symm

/-- The elements of the second string after its last character is changed. -/
theorem finish_ok {size maxChar s1 s2 len : ℕ} {bufs : Chars × Chars} {expResult : ℤ} (least : 1 ≤ maxChar)
    (most : maxChar ≤ 254) (asked : expResult = -1 ∨ expResult = 0 ∨ expResult = 1)
    (stored : Stored size maxChar s1 s2 (len + 1) bufs) (room1 : s1 + (len + 1) + 2 ≤ size)
    (room2 : s2 + (len + 1) + 2 ≤ size) :
    ∃ bufs', finish s1 s2 (len + 1) expResult bufs = .ok bufs' ∧ Placed.Right ⟨bufs'.1, bufs'.2, s1, s2⟩ expResult := by
  obtain ⟨bufs', run, finished⟩ := finish_finished stored room1 room2
  exact ⟨bufs', run, finished.right least most asked⟩

/-! ## The verdict on the compared function -/

/-- The function compares terminated strings as unsigned bytes. -/
def Compares (strcmp : Strcmp) : Prop :=
  ∀ p q : Chars, 0 ∈ p → 0 ∈ q → compare (strcmp p q) 0 = compare (text 0 p) (text 0 q)

private theorem signs_of_compare {a b : ℤ} (same : compare a 0 = compare b 0) : (a < 0 ↔ b < 0) ∧ (a = 0 ↔ b = 0) :=
    by
  constructor
  · rw [← Int.compare_eq_lt, ← Int.compare_eq_lt, same]
  · rw [← Int.compare_eq_eq, ← Int.compare_eq_eq, same]

/-- A right iteration reports nothing about a function that compares its strings as it should. -/
theorem Iteration.Right.silent {strcmp : Strcmp} {it : Iteration} (right : it.Right) (compares : Compares strcmp) :
    it.reports (strcmp (it.p1.drop it.align1) (it.p2.drop it.align2)) = false := by
  have signs := right.order.trans (compares _ _ right.ended1 right.ended2).symm
  obtain ⟨less, equal⟩ := signs_of_compare signs
  rw [reports, decide_eq_false_iff_not]
  omega

/-- `check_result` accepts a function that compares the placed strings as it should. -/
theorem Placed.Right.accepted {strcmp : Strcmp} {placed : Placed} {expResult : ℤ} (right : placed.Right expResult)
    (compares : Compares strcmp) :
    checkResult (strcmp (placed.buf1.drop placed.s1) (placed.buf2.drop placed.s2)) expResult = 0 := by
  have signs := right.order.trans (compares _ _ right.ended1 right.ended2).symm
  obtain ⟨less, equal⟩ := signs_of_compare signs
  apply if_neg
  omega

/-! ## The guards of `do_test` -/

/-- The number of elements of a buffer. -/
def bufSize (getpagesize : ℕ) : ℕ := pageSize getpagesize (some (minPageSize getpagesize))

private theorem bufSize_eq (getpagesize : ℕ) : bufSize getpagesize = 5 * getpagesize := by
  unfold bufSize pageSize minPageSize
  dsimp only
  split_ifs with small
  · omega
  · omega

/-- The alignment that a string gets. -/
def alignOf (getpagesize align : ℕ) : ℕ := align &&& (getpagesize - 1)

private theorem alignOf_lt {getpagesize : ℕ} (positive : 0 < getpagesize) (align : ℕ) :
    alignOf getpagesize align < getpagesize :=
  Nat.lt_of_le_of_lt Nat.and_le_right (Nat.sub_lt positive Nat.one_pos)

/-- The sum in a guard is no `size_t`. -/
def Wraps (getpagesize align len : ℕ) : Prop := 2 ^ 64 ≤ alignOf getpagesize align + len + 1

instance (getpagesize align len : ℕ) : Decidable (Wraps getpagesize align len) := inferInstanceAs (Decidable (_ ≤ _))

/-- A test is made: there is a string, and both guards let it pass. -/
structure Passes (getpagesize align1 align2 len : ℕ) : Prop where
  nonempty : len ≠ 0
  guard1 : sizeT (alignOf getpagesize align1 + sizeT (len + 1)) < bufSize getpagesize
  guard2 : sizeT (alignOf getpagesize align2 + sizeT (len + 1)) < bufSize getpagesize

variable {getpagesize align1 align2 len maxChar : ℕ} {expResult : ℤ} {buf1 buf2 : Chars}

private theorem doTest_of_passes (passes : Passes getpagesize align1 align2 len) :
    doTest getpagesize align1 align2 len maxChar expResult buf1 buf2 = (do
      let s1 := startOf (bufSize getpagesize) (alignOf getpagesize align1) len
      let s2 := startOf (bufSize getpagesize) (alignOf getpagesize align2) len
      let bufs ← charLoop maxChar s1 s2 len (buf1, buf2)
      let (buf1, buf2) ← finish s1 s2 len expResult bufs
      return some ⟨buf1, buf2, s1, s2⟩) := by
  have guard1 := Nat.not_le.mpr passes.guard1
  have guard2 := Nat.not_le.mpr passes.guard2
  unfold alignOf bufSize at guard1 guard2
  unfold doTest
  dsimp only
  rw [if_neg passes.nonempty, if_neg guard1, if_neg guard2]
  rfl

private theorem passes_of_ne (made : doTest getpagesize align1 align2 len maxChar expResult buf1 buf2 ≠ .ok none) :
    Passes getpagesize align1 align2 len := by
  unfold doTest at made
  dsimp only at made
  split_ifs at made with empty guard1 guard2
  · exact absurd rfl made
  · exact absurd rfl made
  · exact absurd rfl made
  · exact ⟨empty, Nat.lt_of_not_le guard1, Nat.lt_of_not_le guard2⟩

/-- A sum that a guard lets pass wraps, or the string fits. -/
theorem guard_cases {align : ℕ} (positive : 0 < getpagesize)
    (guard : sizeT (alignOf getpagesize align + sizeT (len + 1)) < bufSize getpagesize) :
    Wraps getpagesize align len ∨ alignOf getpagesize align + len + 1 < bufSize getpagesize := by
  have less := alignOf_lt positive align
  rw [bufSize_eq] at guard ⊢
  rw [sizeT_eq, sizeT_eq] at guard
  unfold Wraps
  omega

/-- A string that fits is placed with its NUL and the character behind it in the buffer. -/
theorem startOf_bound {align : ℕ} (pages : 5 * getpagesize ≤ intMax)
    (fits : alignOf getpagesize align + len + 1 < bufSize getpagesize) :
    startOf (bufSize getpagesize) (alignOf getpagesize align) len + len + 2 ≤ bufSize getpagesize := by
  have small : bufSize getpagesize < 2 ^ 31 := by
    rw [bufSize_eq]
    rw [intMax] at pages
    omega
  have inner : sizeT (len + 2) = len + 2 := sizeT_of_lt (by omega)
  have outer : sizeT (alignOf getpagesize align + (len + 2)) = alignOf getpagesize align + (len + 2) :=
    sizeT_of_lt (by omega)
  rw [startOf, inner, outer, difference_of_le (by omega) (by omega)]
  have rounded := Nat.div_mul_le_self (bufSize getpagesize - (alignOf getpagesize align + (len + 2))) 16
  omega

private theorem doTest_of_fits (pages : 5 * getpagesize ≤ intMax) (least : 1 ≤ maxChar) (most : maxChar ≤ 254)
    (asked : expResult = -1 ∨ expResult = 0 ∨ expResult = 1) (length1 : buf1.length = bufSize getpagesize)
    (length2 : buf2.length = bufSize getpagesize) (passes : Passes getpagesize align1 align2 len)
    (fits1 : alignOf getpagesize align1 + len + 1 < bufSize getpagesize)
    (fits2 : alignOf getpagesize align2 + len + 1 < bufSize getpagesize) :
    ∃ placed, doTest getpagesize align1 align2 len maxChar expResult buf1 buf2 = .ok (some placed) ∧
      placed.Right expResult := by
  have room1 := startOf_bound pages fits1
  have room2 := startOf_bound pages fits2
  obtain ⟨shorter, rfl⟩ := Nat.exists_eq_succ_of_ne_zero passes.nonempty
  rw [doTest_of_passes passes]
  dsimp only
  generalize startOf (bufSize getpagesize) (alignOf getpagesize align1) (shorter + 1) = s1 at room1 ⊢
  generalize startOf (bufSize getpagesize) (alignOf getpagesize align2) (shorter + 1) = s2 at room2 ⊢
  obtain ⟨bufs, filled, stored⟩ := @charLoop_ok _ maxChar s1 s2 (shorter + 1) (buf1, buf2) length1 length2 (by omega)
    (by omega)
  obtain ⟨bufs', finished, right⟩ := finish_ok least most asked stored (by omega) (by omega)
  exact ⟨_, bind_eq_ok.mpr ⟨_, filled, bind_eq_ok.mpr ⟨_, finished, rfl⟩⟩, right⟩

/-- A string whose length wraps in a guard has characters that are in no buffer. -/
theorem doTest_of_wraps (positive : 0 < getpagesize) (pages : 5 * getpagesize ≤ intMax)
    (length2 : buf2.length = bufSize getpagesize) (passes : Passes getpagesize align1 align2 len)
    (wraps : Wraps getpagesize align2 len) (placed : Placed) :
    doTest getpagesize align1 align2 len maxChar expResult buf1 buf2 ≠ .ok (some placed) := by
  intro made
  rw [doTest_of_passes passes] at made
  obtain ⟨bufs, filled, _⟩ := bind_eq_ok.mp made
  have rounds := round_of_forCount (fun bufs : Chars × Chars => bufs.2.length = bufSize getpagesize) length2 (by
    rintro i ⟨b1, b2⟩ bufs' same done
    obtain ⟨b2', stored2, rest⟩ := bind_eq_ok.mp done
    obtain ⟨b1', _, last⟩ := bind_eq_ok.mp rest
    cases last
    exact (lt_of_put stored2).2.trans same) len filled
  have less := alignOf_lt positive align2
  unfold Wraps at wraps
  obtain ⟨⟨b1, b2⟩, _, same, round⟩ := rounds.2 (len - 1) (Nat.sub_lt (Nat.pos_of_ne_zero passes.nonempty) Nat.one_pos)
  obtain ⟨b2', stored2, _⟩ := bind_eq_ok.mp round
  have inside := (lt_of_put stored2).1
  change b2.length = _ at same
  rw [same, bufSize_eq] at inside
  rw [intMax] at pages
  omega

/-- The random tests know how their strings compare, and `do_test` places strings that compare as it is
asked to unless both of its guards wrap. -/
theorem strings_compare_as_expected (n getpagesize : ℕ) (positive : 0 < getpagesize) (pages : 5 * getpagesize ≤ intMax) :
    (∀ p1 p2 : Chars, p1.length = 512 → p2.length = 512 →
      Always (fun its => its.length = n ∧ ∀ it ∈ its, it.Right) (doRandomTests n p1 p2)) ∧
    ∀ (align1 align2 len maxChar : ℕ) (expResult : ℤ) (buf1 buf2 : Chars), 1 ≤ maxChar → maxChar ≤ 254 →
      (expResult = -1 ∨ expResult = 0 ∨ expResult = 1) → buf1.length = bufSize getpagesize →
      buf2.length = bufSize getpagesize →
      doTest getpagesize align1 align2 len maxChar expResult buf1 buf2 ≠ .ok none →
      ((∃ placed, doTest getpagesize align1 align2 len maxChar expResult buf1 buf2 = .ok (some placed) ∧
          placed.Right expResult) ↔
        ¬ (Wraps getpagesize align1 len ∧ Wraps getpagesize align2 len)) := by
  refine ⟨fun p1 p2 => doRandomTests_always n, ?_⟩
  intro align1 align2 len maxChar expResult buf1 buf2 least most asked length1 length2 made
  have passes := passes_of_ne made
  constructor
  · rintro ⟨placed, run, _⟩ ⟨_, wraps⟩
    exact doTest_of_wraps positive pages length2 passes wraps placed run
  · intro unwrapped
    have less1 := alignOf_lt positive align1
    have less2 := alignOf_lt positive align2
    have size := bufSize_eq getpagesize
    rcases guard_cases positive passes.guard1 with wraps1 | fits1
    · rcases guard_cases positive passes.guard2 with wraps2 | fits2
      · exact absurd ⟨wraps1, wraps2⟩ unwrapped
      · unfold Wraps at wraps1
        rw [intMax] at pages
        omega
    · rcases guard_cases positive passes.guard2 with wraps2 | fits2
      · unfold Wraps at wraps2
        rw [intMax] at pages
        omega
      · exact doTest_of_fits pages least most asked length1 length2 passes fits1 fits2

/-- Strings of six characters at different alignments, in buffers of 320 elements. -/
theorem six_characters_right :
    (∀ p1 p2 : Chars, p1.length = 512 → p2.length = 512 →
      Always (fun its => its.length = 3 ∧ ∀ it ∈ its, it.Right) (doRandomTests 3 p1 p2)) ∧
    ∃ placed, doTest 64 3 69 6 127 (-1) (List.replicate 320 165) (List.replicate 320 90) = .ok (some placed) ∧
      placed.Right (-1) := by
  obtain ⟨random, placed⟩ := strings_compare_as_expected 3 64 (by decide) (by decide)
  have early : doTest 64 3 69 6 127 (-1) (List.replicate 320 165) (List.replicate 320 90) ≠ .ok none := by
    decide +kernel
  refine ⟨random, (placed 3 69 6 127 (-1) _ _ (by decide) (by decide) (by decide) (List.length_replicate ..)
    (List.length_replicate ..) early).mpr ?_⟩
  decide +kernel

/-- With the greatest length both guards let the test pass, and its characters are in no buffer. -/
theorem greatest_length_fails : ∃ (buf1 buf2 : Chars),
    buf1.length = bufSize 4096 ∧ buf2.length = bufSize 4096 ∧
      doTest 4096 0 0 (2 ^ 64 - 1) 127 0 buf1 buf2 ≠ .ok none ∧
      ¬ ∃ placed, doTest 4096 0 0 (2 ^ 64 - 1) 127 0 buf1 buf2 = .ok (some placed) ∧ placed.Right 0 := by
  have passes : Passes 4096 0 0 (2 ^ 64 - 1) := ⟨by decide, by decide +kernel, by decide +kernel⟩
  refine ⟨List.replicate (bufSize 4096) 165, List.replicate (bufSize 4096) 90, List.length_replicate,
    List.length_replicate, ?_, ?_⟩
  · rw [doTest_of_passes passes]
    intro made
    obtain ⟨_, _, made⟩ := bind_eq_ok.mp made
    obtain ⟨_, _, made⟩ := bind_eq_ok.mp made
    cases made
  · rintro ⟨placed, made, _⟩
    exact doTest_of_wraps (by decide) (by decide) List.length_replicate passes (by decide +kernel) placed made

end Yalibct.StrcmpTest

import Mathlib.Data.List.Count
import Mathlib.Tactic.SplitIfs
import Yalibct.Model.Tempname

/-! # Names from a template

Each attempt puts letters in the place of the Xs. The attempts go on for as long as their names exist,
and the call that decides is the last one.
-/

namespace Yalibct.Tempname

open Machine

variable {σ : Type} {tryfunc : TryFunc σ} {state : σ} {saveErrno errno : Errno} {start xSuffixLen n : ℕ}
variable {tmpl run : List UInt8} {g g' : Generator} {draws : List Draw} {v : UInt64}

/-! ## Letters -/

private theorem length_letters : letters.length = 62 := by decide

private theorem letter_mem (digit : UInt64) : letter (digit % 62) ∈ letters := by
  have bound : (digit % 62).toNat < letters.length := by
    rw [length_letters, UInt64.toNat_mod]
    exact Nat.mod_lt _ (by decide)
  rw [letter, List.getD_eq_getElem?_getD, List.getElem?_eq_getElem bound, Option.getD_some]
  exact List.getElem_mem bound

/-- Whether a drawn word is kept. Bias only matters in a word of high quality. -/
def Draw.kept : Draw → Bool
  | .getrandom value => value < biasedMin
  | .clocks .. => true

theorem drawWord_cons (v : UInt64) (errno : Errno) (draw : Draw) (draws : List Draw) :
    drawWord v errno (draw :: draws) =
      if draw.kept then some ((randomBits v errno draw).2.1, (randomBits v errno draw).2.2, draws)
      else drawWord (randomBits v errno draw).2.1 (randomBits v errno draw).2.2 draws := by
  rw [drawWord]
  cases draw with
  | getrandom value =>
    by_cases high : biasedMin ≤ value
    · simp [randomBits, Draw.kept, high, UInt64.not_lt.mpr high]
    · simp [randomBits, Draw.kept, high, UInt64.not_le.mp high]
  | clocks errno time clock => simp [randomBits, Draw.kept]

/-- Without a word, none of those drawn was kept; otherwise only the last one was. -/
theorem drawWord_spec (v : UInt64) (errno : Errno) (draws : List Draw) :
    drawWord v errno draws = none ∧ draws.countP Draw.kept = 0 ∨
    ∃ word errno' rest, drawWord v errno draws = some (word, errno', rest) ∧
      draws.countP Draw.kept = rest.countP Draw.kept + 1 := by
  induction draws generalizing v errno with
  | nil => exact .inl ⟨rfl, rfl⟩
  | cons draw draws ih =>
    rw [drawWord_cons, List.countP_cons]
    split_ifs with keeps
    · exact .inr ⟨_, _, draws, rfl, rfl⟩
    · exact ih _ _

/-- A word is drawn where no digits are left. -/
theorem refill_spec (g : Generator) :
    refill g = none ∧ g.draws.countP Draw.kept = 0 ∨
    ∃ g', refill g = some g' ∧ g.draws.countP Draw.kept ≤ g'.draws.countP Draw.kept + 1 := by
  unfold refill
  split_ifs
  · rcases drawWord_spec g.v g.errno g.draws with ⟨none, count⟩ | ⟨word, errno, rest, some, count⟩
    · exact .inl ⟨by rw [none]; rfl, count⟩
    · exact .inr ⟨⟨word, word, base62Digits, errno, rest⟩, by rw [some]; rfl, Nat.le_of_eq count⟩
  · exact .inr ⟨g, rfl, Nat.le_succ _⟩

/-- No letter takes more than one word that is kept. -/
theorem takeLetters_spec (n : ℕ) (g : Generator) :
    takeLetters n g = none ∧ g.draws.countP Draw.kept < n ∨
    ∃ run g', takeLetters n g = some (run, g') ∧ run.length = n ∧ (∀ c ∈ run, c ∈ letters) ∧
      g.draws.countP Draw.kept ≤ g'.draws.countP Draw.kept + n := by
  induction n generalizing g with
  | zero => exact .inr ⟨[], g, rfl, rfl, List.forall_mem_nil _, Nat.le_refl _⟩
  | succ n ih =>
    unfold takeLetters
    rcases refill_spec g with ⟨none, count⟩ | ⟨h, some, count⟩
    · rw [none]
      exact .inl ⟨rfl, by omega⟩
    · rw [some]
      dsimp only
      rcases ih { h with vdigbuf := h.vdigbuf / 62, vdigits := h.vdigits - 1 } with
        ⟨none, fewer⟩ | ⟨run, g', taken, length, among, more⟩
      · exact .inl ⟨by rw [none]; rfl, by simp only at fewer; omega⟩
      · refine .inr ⟨letter (h.vdigbuf % 62) :: run, g', ?_, ?_, ?_, ?_⟩
        · rw [taken]
          rfl
        · rw [List.length_cons, length]
        · exact List.forall_mem_cons.mpr ⟨letter_mem _, among⟩
        · simp only at more
          omega

/-! ## Attempts -/

/-- These calls of `tryfunc`, one after the other, lead from one state to the other. -/
def Follows (tryfunc : TryFunc σ) : σ → List Attempt → σ → Prop
  | s, [], t => s = t
  | s, c :: calls, t => ∃ errno mid, tryfunc s errno c.name = (c.result, c.errno, mid) ∧ Follows tryfunc mid calls t

/-- The name of an attempt exists. -/
def Attempt.Exists (c : Attempt) : Prop := c.result < 0 ∧ c.errno = eexist

/-- How the last call decides: it succeeds, it fails for another reason, or there are no attempts left. -/
inductive Decides (saveErrno : Errno) (attempts : ℕ) (r : Generated σ) (last : Attempt) : Prop
  | succeeded (success : 0 ≤ last.result) (ret : r.ret = last.result) (errno : r.errno = saveErrno)
  | failed (failure : last.result < 0) (other : last.errno ≠ eexist) (ret : r.ret = -1) (errno : r.errno = last.errno)
  | exhausted (exist : last.Exists) (all : r.calls.length = attempts) (ret : r.ret = -1) (errno : r.errno = eexist)

/-- What the attempts come to: letters in the place of the Xs, and a last call that decides. -/
structure Attempted (tryfunc : TryFunc σ) (saveErrno : Errno) (attempts : ℕ) (state : σ) (tmpl : List UInt8)
    (start xSuffixLen : ℕ) (r : Generated σ) : Prop where
  changed : ∃ run, run.length = xSuffixLen ∧ (∀ c ∈ run, c ∈ letters) ∧
    r.tmpl = tmpl.take start ++ run ++ tmpl.drop (start + xSuffixLen)
  followed : Follows tryfunc state r.calls r.state
  within : r.calls.length ≤ attempts
  decided : ∃ earlier last, r.calls = earlier ++ [last] ∧ (∀ c ∈ earlier, c.Exists) ∧ last.name = r.tmpl ∧
    Decides saveErrno attempts r last

/-- The only call decides. -/
theorem Attempted.single {attempts : ℕ} {r : Generated σ} {c : Attempt} (some : 0 < attempts)
    (letters : run.length = xSuffixLen ∧ ∀ c ∈ run, c ∈ letters)
    (called : tryfunc state errno c.name = (c.result, c.errno, r.state))
    (name : c.name = overwrite tmpl start run) (stored : r.tmpl = overwrite tmpl start run) (calls : r.calls = [c])
    (decides : Decides saveErrno attempts r c) :
    Attempted tryfunc saveErrno attempts state tmpl start xSuffixLen r := by
  refine ⟨⟨run, letters.1, letters.2, ?_⟩, ?_, ?_, [], c, calls, List.forall_mem_nil _, name.trans stored.symm, decides⟩
  · rw [stored, overwrite, letters.1]
  · rw [calls]
    exact ⟨errno, r.state, called, rfl⟩
  · rw [calls]
    exact some

/-- One call more before the others. -/
theorem Attempted.cons {attempts : ℕ} {r : Generated σ} {c : Attempt} {mid : σ} {tmpl' : List UInt8}
    (attempted : Attempted tryfunc saveErrno attempts mid tmpl' start xSuffixLen r) (exist : c.Exists)
    (called : tryfunc state errno c.name = (c.result, c.errno, mid)) (before : tmpl'.take start = tmpl.take start)
    (after : tmpl'.drop (start + xSuffixLen) = tmpl.drop (start + xSuffixLen)) :
    Attempted tryfunc saveErrno (attempts + 1) state tmpl start xSuffixLen { r with calls := c :: r.calls } := by
  obtain ⟨earlier, last, calls, existed, name, decides⟩ := attempted.decided
  refine ⟨?_, ⟨errno, mid, called, attempted.followed⟩, Nat.succ_le_succ attempted.within, c :: earlier, last,
    congrArg _ calls, List.forall_mem_cons.mpr ⟨exist, existed⟩, name, ?_⟩
  · rw [← before, ← after]
    exact attempted.changed
  · cases decides with
    | succeeded success ret errno => exact .succeeded success ret errno
    | failed failure other ret errno => exact .failed failure other ret errno
    | exhausted exist all ret errno => exact .exhausted exist (congrArg (· + 1) all) ret errno

/-- The loop waits for words only while it has not had one for each letter of each attempt. -/
theorem attemptLoop_spec (saveErrno : Errno) (attempts : ℕ) (g : Generator) (state : σ)
    (room : start + xSuffixLen ≤ tmpl.length) :
    attemptLoop tryfunc saveErrno start xSuffixLen attempts tmpl g state = none ∧
      g.draws.countP Draw.kept < attempts * xSuffixLen ∨
    ∃ r, attemptLoop tryfunc saveErrno start xSuffixLen attempts tmpl g state = some r ∧
      (attempts = 0 ∧ r = ⟨-1, eexist, tmpl, [], state⟩ ∨
        Attempted tryfunc saveErrno attempts state tmpl start xSuffixLen r) := by
  induction attempts generalizing tmpl g state with
  | zero => exact .inr ⟨_, rfl, .inl ⟨rfl, rfl⟩⟩
  | succ attempts ih =>
    unfold attemptLoop
    rcases takeLetters_spec xSuffixLen g with ⟨none, count⟩ | ⟨run, h, taken, length, among, count⟩
    · rw [none]
      refine .inl ⟨rfl, ?_⟩
      rw [Nat.succ_mul]
      omega
    · rw [taken]
      dsimp only
      rcases called : tryfunc state h.errno (overwrite tmpl start run) with ⟨fd, errno, mid⟩
      dsimp only
      split_ifs with success other
      · exact .inr ⟨_, rfl, .inr (.single (Nat.succ_pos _) ⟨length, among⟩ called rfl rfl rfl (.succeeded success rfl rfl))⟩
      · exact .inr ⟨_, rfl, .inr (.single (Nat.succ_pos _) ⟨length, among⟩ called rfl rfl rfl
          (.failed (Int.not_le.mp success) other rfl rfl))⟩
      · have exist : (⟨overwrite tmpl start run, fd, errno⟩ : Attempt).Exists :=
          ⟨Int.not_le.mp success, not_ne_iff.mp other⟩
        have same : (overwrite tmpl start run).length = tmpl.length := length_overwrite (by omega)
        rcases ih { h with errno := errno } mid (show start + xSuffixLen ≤ (overwrite tmpl start run).length by omega) with
          ⟨none, fewer⟩ | ⟨r, some, ⟨rfl, rfl⟩ | attempted⟩
        · refine .inl ⟨by rw [none]; rfl, ?_⟩
          change h.draws.countP Draw.kept < _ at fewer
          rw [Nat.succ_mul]
          omega
        · exact .inr ⟨_, rfl, .inr (.single (Nat.succ_pos _) ⟨length, among⟩ called rfl rfl rfl
            (.exhausted exist rfl rfl rfl))⟩
        · refine .inr ⟨_, by rw [some]; rfl, .inr (attempted.cons exist called ?_ ?_)⟩
          · exact take_overwrite_of_le (Nat.le_refl _) (by omega)
          · rw [← length]
            exact drop_overwrite (by omega)

/-! ## Templates -/

/-- There is room for the Xs before the suffix, and they are there. -/
def Valid (tmpl : CString) (suffixlen xSuffixLen : ℕ) : Prop :=
  xSuffixLen + suffixlen ≤ tmpl.length ∧
    ∀ c ∈ (tmpl.bytes.drop (tmpl.length - (xSuffixLen + suffixlen))).take xSuffixLen, c = letterX

/-- The sum of the lengths may wrap, but then there are not as many Xs. -/
theorem rejects_iff (tmpl : CString) {suffixlen xSuffixLen : ℕ} (int : suffixlen ≤ intMax) (size : xSuffixLen < 2 ^ 64) :
    (tmpl.length < sizeT (xSuffixLen + suffixlen) ∨
      strspn (tmpl.bytes.drop (tmpl.length - sizeT (xSuffixLen + suffixlen))) letterX < xSuffixLen) ↔
    ¬ Valid tmpl suffixlen xSuffixLen := by
  have bound := tmpl.length_lt
  rw [intMax] at int
  have tail : (tmpl.bytes.drop (tmpl.length - sizeT (xSuffixLen + suffixlen))).length ≤ sizeT (xSuffixLen + suffixlen) := by
    rw [List.length_drop, CString.length]
    omega
  rcases Nat.lt_or_ge (xSuffixLen + suffixlen) (2 ^ 64) with fits | wraps
  · rw [sizeT_of_lt fits, Valid, not_and_or, Nat.not_le]
    apply or_congr_right'
    intro long
    have inside : xSuffixLen ≤ (tmpl.bytes.drop (tmpl.length - (xSuffixLen + suffixlen))).length := by
      rw [List.length_drop]
      rw [CString.length] at long ⊢
      omega
    rw [← Nat.not_le, le_strspn inside]
  · have few := Nat.le_trans (strspn_le _ letterX) tail
    rw [sizeT_eq] at few ⊢
    have more : strspn (tmpl.bytes.drop (tmpl.length - (xSuffixLen + suffixlen) % 2 ^ 64)) letterX < xSuffixLen := by
      omega
    have invalid : ¬ Valid tmpl suffixlen xSuffixLen := fun valid => by
      have := valid.1
      omega
    simp only [more, or_true, invalid, not_false_eq_true]

/-- Without enough Xs, the template is left alone, and no name is tried. Otherwise the Xs are replaced by
letters, and the first call of `tryfunc` that succeeds, or fails though its name does not exist, is the
last one; unless all attempts are made. The run waits for random words only while it has not had one that
is kept for each letter of each attempt. -/
theorem tryTempnameLen_law (tmpMax : ℕ) (tryfunc : TryFunc σ) (draws : List Draw) (errno : Errno) (state : σ)
    (tmpl : CString) {suffixlen xSuffixLen : ℕ} (int : suffixlen ≤ intMax) (size : xSuffixLen < 2 ^ 64) :
    (¬ Valid tmpl suffixlen xSuffixLen →
      tryTempnameLen tmpMax tryfunc draws errno state tmpl suffixlen xSuffixLen =
        some ⟨-1, .EINVAL, tmpl.bytes, [], state⟩) ∧
    (Valid tmpl suffixlen xSuffixLen →
      tryTempnameLen tmpMax tryfunc draws errno state tmpl suffixlen xSuffixLen = none ∧
        draws.countP Draw.kept < attempts tmpMax * xSuffixLen ∨
      ∃ r, tryTempnameLen tmpMax tryfunc draws errno state tmpl suffixlen xSuffixLen = some r ∧
        Attempted tryfunc errno (attempts tmpMax) state tmpl.bytes (tmpl.length - (xSuffixLen + suffixlen))
          xSuffixLen r) := by
  have rejects := rejects_iff tmpl int size
  refine ⟨fun invalid => if_pos (rejects.mpr invalid), fun valid => ?_⟩
  have fits : sizeT (xSuffixLen + suffixlen) = xSuffixLen + suffixlen := by
    have bound := tmpl.length_lt
    have long := valid.1
    exact sizeT_of_lt (by omega)
  have goes : tryTempnameLen tmpMax tryfunc draws errno state tmpl suffixlen xSuffixLen =
      attemptLoop tryfunc errno (tmpl.length - (xSuffixLen + suffixlen)) xSuffixLen (attempts tmpMax) tmpl.bytes
        ⟨0, 0, 0, errno, draws⟩ state := by
    rw [← fits]
    exact if_neg fun bad => rejects.mp bad valid
  have room : tmpl.length - (xSuffixLen + suffixlen) + xSuffixLen ≤ tmpl.bytes.length := by
    have long := valid.1
    rw [CString.length] at long ⊢
    omega
  rw [goes]
  rcases attemptLoop_spec errno (attempts tmpMax) ⟨0, 0, 0, errno, draws⟩ state room with
    waits | ⟨r, some, ⟨none, -⟩ | attempted⟩
  · exact .inl waits
  · have positive : 0 < attempts tmpMax := by
      unfold attempts attemptsMin
      split_ifs <;> omega
    omega
  · exact .inr ⟨r, some, attempted⟩

/-- The template `aXXX`. -/
def threeXs : CString := ⟨[97, 88, 88, 88], by decide, by decide⟩

/-- A function that accepts its second name. -/
def second : TryFunc ℕ := fun calls _ _ => (if calls = 0 then -1 else 5, eexist, calls + 1)

/-- Three letters, from one random word. -/
theorem threeXs_attempted :
    tryTempnameLen 0 second [.getrandom 123456] .EINTR 0 threeXs 0 3 = none ∧
      [Draw.getrandom 123456].countP Draw.kept < attempts 0 * 3 ∨
    ∃ r, tryTempnameLen 0 second [.getrandom 123456] .EINTR 0 threeXs 0 3 = some r ∧
      Attempted second .EINTR (attempts 0) 0 threeXs.bytes 1 3 r :=
  (tryTempnameLen_law 0 second [.getrandom 123456] .EINTR 0 threeXs (by decide) (by decide)).2
    ⟨by decide, fun c member => List.eq_of_mem_replicate (show c ∈ List.replicate 3 letterX from member)⟩

end Yalibct.Tempname

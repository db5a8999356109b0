import Yalibct.Machine.Fallible
import Yalibct.Model.PathSearch
import Yalibct.Soundness.Tempname

/-! # Templates in a directory

The directory is the first candidate that exists. The room that is asked for is what the two stores
take, so the template with its NUL is stored exactly where it fits.
-/

namespace Yalibct.PathSearch

open Machine Tempname

variable (stat : Stat) (tmpdir dir pfx : Option CString) (pTmpdir : CString) (errno : Errno) (tryTmpdir : Bool)

/-! ## The directory -/

/-- The directory exists. -/
def isDirectory (dir : CString) : Bool :=
  match stat dir with
  | .ok isDir => isDir
  | .error _ => false

private theorem direxists_fst (dir : CString) : (direxists stat dir errno).1 = isDirectory stat dir := by
  unfold isDirectory direxists
  cases stat dir with
  | ok isDir => rfl
  | error errno => rfl

/-- The directory that should be chosen. -/
def chosen : Option CString :=
  if tryTmpdir then (tmpdir.toList ++ dir.toList ++ [pTmpdir, tmp]).find? (isDirectory stat)
  else dir <|> [pTmpdir, tmp].find? (isDirectory stat)

private theorem isDirexists_fst (dir : Option CString) :
    (if (isDirexists stat dir errno).1 then dir else none) = dir.toList.find? (isDirectory stat) := by
  cases dir with
  | none => rfl
  | some d => cases exist : isDirectory stat d <;> simp [isDirexists, direxists_fst, exist]

private theorem tryDirs_fst :
    (tryDirs stat tmpdir dir errno).1 = (tmpdir.toList ++ dir.toList).find? (isDirectory stat) := by
  rw [List.find?_append, ← isDirexists_fst stat errno tmpdir,
    ← isDirexists_fst stat (isDirexists stat tmpdir errno).2 dir]
  unfold tryDirs
  cases tmpdir with
  | none => rfl
  | some t =>
    cases exist : isDirexists stat (some t) errno with
    | mk found errno =>
      cases found with
      | true => rfl
      | false => rfl

private theorem systemDir_fst :
    (systemDir stat pTmpdir errno).1 = [pTmpdir, tmp].find? (isDirectory stat) := by
  unfold systemDir
  cases exist : isDirectory stat pTmpdir with
  | true => simp [direxists_fst, exist]
  | false =>
    cases other : isDirectory stat tmp with
    | true =>
      have different : pTmpdir.bytes ≠ tmp.bytes := by
        intro same
        rw [CString.ext same, other] at exist
        exact Bool.noConfusion exist
      simp [direxists_fst, exist, other, different]
    | false =>
      by_cases same : pTmpdir.bytes = tmp.bytes
      · simp [direxists_fst, exist, other, same]
      · simp [direxists_fst, exist, other, same]

/-- The search goes through the candidates in their order. -/
theorem search_fst (d : Option CString × Errno)
    (first : d = if tryTmpdir then tryDirs stat tmpdir dir errno else (dir, errno)) :
    (if d.1.isNone then systemDir stat pTmpdir d.2 else d).1 = chosen stat tmpdir dir pTmpdir tryTmpdir := by
  have system : (if d.1.isNone then systemDir stat pTmpdir d.2 else d).1 =
      (d.1 <|> [pTmpdir, tmp].find? (isDirectory stat)) := by
    cases tried : d.1 with
    | none => simp [systemDir_fst]
    | some found => simp [tried]
  rw [system, first, chosen]
  cases tryTmpdir with
  | false => rfl
  | true =>
    simp only [if_true]
    have tried := @List.find?_append _ (isDirectory stat) (tmpdir.toList ++ dir.toList) [pTmpdir, tmp]
    rw [tryDirs_fst, tried, Option.orElse_eq_orElse, Option.orElse_eq_or]

/-! ## The template -/

/-- At most the first five characters of `pfx`, or `"file"`. -/
def nameStart : Option CString → List UInt8
  | none => file.bytes
  | some pfx => if pfx.bytes = [] then file.bytes else pfx.bytes.take 5

theorem choosePfx_spec :
    (choosePfx pfx).1.bytes.take (choosePfx pfx).2 = nameStart pfx ∧ (choosePfx pfx).2 = (nameStart pfx).length := by
  cases pfx with
  | none => exact ⟨rfl, rfl⟩
  | some pfx =>
    unfold choosePfx nameStart CString.length
    dsimp only
    split_ifs with empty long
    · exact ⟨rfl, rfl⟩
    · exact ⟨rfl, (List.length_take_of_le (Nat.le_of_lt long)).symm⟩
    · have whole : pfx.bytes.take 5 = pfx.bytes := List.take_of_length_le (Nat.le_of_not_lt long)
      exact ⟨by rw [List.take_length, whole], by rw [whole]⟩

/-- The template: the directory, a separator if it needs one, the start of the name and six Xs. -/
def template (dir : CString) (pfx : Option CString) : List UInt8 :=
  dir.bytes ++ (if dir.bytes = [] ∨ dir.bytes.getLast? = some slash then [] else [slash]) ++ nameStart pfx ++
    List.replicate 6 letterX

theorem printed_spec (d : CString) :
    d.bytes ++ printed (addSlash d) (choosePfx pfx).1 (choosePfx pfx).2 = template d pfx ++ [0] := by
  have separator : (if addSlash d then [slash] else []) =
      if d.bytes = [] ∨ d.bytes.getLast? = some slash then [] else [slash] := by
    by_cases empty : d.bytes = []
    · simp [addSlash, empty]
    · by_cases ended : d.bytes.getLast? = some slash
      · simp [addSlash, ended]
      · simp [addSlash, empty, ended]
  rw [printed, (choosePfx_spec pfx).1, separator, template]
  simp only [List.append_assoc]

private theorem choosePfx_le : (choosePfx pfx).2 ≤ 5 := by
  cases pfx with
  | none => exact Nat.le_succ 4
  | some pfx =>
    unfold choosePfx
    dsimp only
    split_ifs with empty long
    · exact Nat.le_succ 4
    · exact Nat.le_refl 5
    · exact Nat.le_of_not_lt long

/-- What is asked for is the length of the template with its NUL. -/
theorem length_asked (d : CString) :
    sizeT (d.length + (addSlash d).toNat + (choosePfx pfx).2 + 6 + 1) = (template d pfx).length + 1 := by
  have taken : ((choosePfx pfx).1.bytes.take (choosePfx pfx).2).length = (choosePfx pfx).2 := by
    rw [(choosePfx_spec pfx).1, (choosePfx_spec pfx).2]
  have separator : (if addSlash d then [slash] else []).length = (addSlash d).toNat := by cases addSlash d <;> rfl
  have parts := congrArg List.length (printed_spec pfx d)
  simp only [printed, List.length_append, separator, taken, List.length_replicate, List.length_singleton] at parts
  have whole : d.length + (addSlash d).toNat + (choosePfx pfx).2 + 6 + 1 = (template d pfx).length + 1 := by
    rw [← parts, CString.length]
    omega
  have bound := d.length_lt
  have one := Bool.toNat_le (addSlash d)
  have short := choosePfx_le pfx
  rw [← whole]
  exact sizeT_of_lt (by omega)

private theorem store_of_room {tmpl run : List UInt8} {offset : ℕ} (room : offset + run.length ≤ tmpl.length) :
    store tmpl offset run = .ok (overwrite tmpl offset run) := by
  rw [store, if_pos room]

private theorem store_append (tmpl run more : List UInt8) :
    (do
      let tmpl ← store tmpl 0 run
      store tmpl run.length more) = store tmpl 0 (run ++ more) := by
  unfold store
  simp only [Nat.zero_add, List.length_append]
  by_cases room : run.length ≤ tmpl.length
  · have length : (overwrite tmpl 0 run).length = tmpl.length := length_overwrite (by rwa [Nat.zero_add])
    have both := @overwrite_append _ tmpl 0 run more (Nat.zero_le _)
    rw [Nat.zero_add] at both
    rw [if_pos room]
    change (if run.length + more.length ≤ (overwrite tmpl 0 run).length then _ else _) = _
    rw [length, both]
  · rw [if_neg room, if_neg (by omega)]
    rfl

/-- The template with its NUL is stored exactly where it fits; otherwise the array is left alone. -/
theorem pathSearch_eq {tmpl : List UInt8} {tmplLen : ℕ} (inside : tmplLen ≤ tmpl.length) :
    ∃ errno', pathSearch stat tmpdir pTmpdir errno tmpl tmplLen dir pfx tryTmpdir =
      .ok (match chosen stat tmpdir dir pTmpdir tryTmpdir with
        | none => ⟨-1, enoent, tmpl⟩
        | some d =>
          if tmplLen < (template d pfx).length + 1 then ⟨-1, .EINVAL, tmpl⟩
          else ⟨0, errno', overwrite tmpl 0 (template d pfx ++ [0])⟩) := by
  have searched := search_fst stat tmpdir dir pTmpdir errno tryTmpdir _ rfl
  unfold pathSearch
  generalize (if tryTmpdir = true then tryDirs stat tmpdir dir errno else (dir, errno)) = first at searched ⊢
  dsimp only
  generalize (if first.1.isNone = true then systemDir stat pTmpdir first.2 else first) = found at searched ⊢
  rw [searched]
  apply Exists.intro found.2
  cases chosen stat tmpdir dir pTmpdir tryTmpdir with
  | none => rfl
  | some d =>
    dsimp only
    rw [length_asked]
    by_cases short : tmplLen < (template d pfx).length + 1
    · rw [if_pos short, if_pos short]
    · rw [if_neg short, if_neg short]
      have stores := store_append tmpl d.bytes (printed (addSlash d) (choosePfx pfx).1 (choosePfx pfx).2)
      have room : 0 + (template d pfx ++ [0]).length ≤ tmpl.length := by
        rw [List.length_append, List.length_singleton]
        omega
      rw [printed_spec, store_of_room room] at stores
      obtain ⟨stored, first, second⟩ := bind_eq_ok.mp stores
      exact bind_eq_ok.mpr ⟨stored, first, bind_eq_ok.mpr ⟨_, second, rfl⟩⟩

/-- How a search for a chosen directory ends: in the first bytes of the array is the template with its
NUL; or there is no directory or no room, and the array is as it was. -/
structure Searched.Ends (chosen : Option CString) (pfx : Option CString) (tmpl : List UInt8) (tmplLen : ℕ)
    (r : Searched) : Prop where
  result : r.ret = 0 ∨ r.ret = -1
  success : r.ret = 0 → ∃ d, chosen = some d ∧ (template d pfx).length + 1 ≤ tmplLen ∧
    r.tmpl = template d pfx ++ [0] ++ tmpl.drop ((template d pfx).length + 1)
  failure : r.ret = -1 ↔ chosen = none ∨ ∃ d, chosen = some d ∧ tmplLen < (template d pfx).length + 1
  untouched : r.ret = -1 → r.tmpl = tmpl ∧ r.errno = if chosen = none then enoent else .EINVAL

theorem Searched.ends_of_failure {chosen : Option CString} {tmpl : List UInt8} {tmplLen : ℕ} {e : Errno}
    (reason : chosen = none ∨ ∃ d, chosen = some d ∧ tmplLen < (template d pfx).length + 1)
    (set : e = if chosen = none then enoent else .EINVAL) : Searched.Ends chosen pfx tmpl tmplLen ⟨-1, e, tmpl⟩ := by
  constructor
  · exact .inr rfl
  · intro success
    cases success
  · exact ⟨fun _ => reason, fun _ => rfl⟩
  · exact fun _ => ⟨rfl, set⟩

theorem Searched.ends_of_room {d : CString} {tmpl : List UInt8} {tmplLen : ℕ}
    (room : (template d pfx).length + 1 ≤ tmplLen) (e : Errno) :
    Searched.Ends (some d) pfx tmpl tmplLen ⟨0, e, overwrite tmpl 0 (template d pfx ++ [0])⟩ := by
  constructor
  · exact .inl rfl
  · intro _
    refine ⟨d, rfl, room, ?_⟩
    simp [overwrite]
  · constructor
    · intro failure
      cases failure
    · rintro (none | ⟨d', same, short⟩)
      · cases none
      · cases same
        exact absurd short (Nat.not_lt.mpr room)
  · intro failure
    cases failure

/-- The chosen directory is the first candidate that exists, and a search fails only without one or
without room for its template. -/
theorem pathSearch_ends {tmpl : List UInt8} {tmplLen : ℕ} (inside : tmplLen ≤ tmpl.length) :
    ∃ r, pathSearch stat tmpdir pTmpdir errno tmpl tmplLen dir pfx tryTmpdir = .ok r ∧
      r.Ends (chosen stat tmpdir dir pTmpdir tryTmpdir) pfx tmpl tmplLen := by
  obtain ⟨errno', run⟩ := pathSearch_eq stat tmpdir dir pfx pTmpdir errno tryTmpdir inside
  refine ⟨_, run, ?_⟩
  cases chosen stat tmpdir dir pTmpdir tryTmpdir with
  | none => exact Searched.ends_of_failure pfx (.inl rfl) rfl
  | some d =>
    dsimp only
    split_ifs with short
    · exact Searched.ends_of_failure pfx (.inr ⟨d, rfl, short⟩) rfl
    · exact Searched.ends_of_room pfx (Nat.le_of_not_lt short) errno'

/-- `d/file` with its Xs and its NUL takes all thirteen bytes. -/
theorem caller_dir_just_fits : ∃ r, pathSearch (fun _ => .ok true) none tmp .EINTR (List.replicate 13 36) 13
      (some ⟨[100], by decide, by decide⟩) (some file) true = .ok r ∧
    r.Ends (chosen (fun _ => .ok true) none (some ⟨[100], by decide, by decide⟩) tmp true) (some file)
      (List.replicate 13 36) 13 :=
  pathSearch_ends _ _ _ _ _ _ _ (by decide)

/-- Names are generated from what a search stored. -/
theorem template_valid {t d : CString} (stored : t.bytes = template d pfx) : Valid t 0 6 := by
  obtain ⟨stem, ends⟩ : ∃ stem, template d pfx = stem ++ List.replicate 6 letterX := ⟨_, rfl⟩
  have length : t.length = stem.length + 6 := by
    rw [CString.length, stored, ends, List.length_append, List.length_replicate]
  constructor
  · omega
  · intro c member
    rw [length, Nat.add_sub_cancel, stored, ends, List.drop_left] at member
    exact List.eq_of_mem_replicate (List.mem_of_mem_take member)

end Yalibct.PathSearch

import Mathlib.Tactic.SplitIfs
import Yalibct.Machine.Fallible
import Yalibct.Model.Gvisor

/-! # Joined paths

Between two names that are not empty a join leaves one separator: what it prints is the first without a
slash at its end, a slash, and the second without a slash at its start. A lone slash in the middle is
only that separator.
-/

namespace Yalibct.Gvisor

open Machine

variable {a b c d : CString} {text : List UInt8}

/-! ## Slashes -/

/-- Without the slash at its end. -/
def chopped (text : List UInt8) : List UInt8 := if text.getLast? = some slash then text.dropLast else text

/-- Without the slash at its start. -/
def stripped (text : List UInt8) : List UInt8 := if text.head? = some slash then text.tail else text

private theorem chopped_cases (text : List UInt8) :
    text.getLast? = some slash ∧ chopped text ++ [slash] = text ∨ text.getLast? ≠ some slash ∧ chopped text = text := by
  unfold chopped
  split_ifs with last
  · exact .inl ⟨last, List.dropLast_append_getLast? slash last⟩
  · exact .inr ⟨last, rfl⟩

private theorem stripped_cases (text : List UInt8) :
    text.head? = some slash ∧ slash :: stripped text = text ∨ text.head? ≠ some slash ∧ stripped text = text := by
  unfold stripped
  split_ifs with head
  · exact .inl ⟨head, List.cons_head?_tail head⟩
  · exact .inr ⟨head, rfl⟩

private theorem length_chopped (text : List UInt8) : text.length ≤ (chopped text).length + 1 := by
  rcases chopped_cases text with ⟨-, ended⟩ | ⟨-, same⟩
  · have length := congrArg List.length ended
    rw [List.length_append] at length
    exact Nat.le_of_eq length.symm
  · rw [same]
    exact Nat.le_succ _

private theorem length_stripped (text : List UInt8) : text.length ≤ (stripped text).length + 1 := by
  rcases stripped_cases text with ⟨-, started⟩ | ⟨-, same⟩
  · exact Nat.le_of_eq (congrArg List.length started).symm
  · rw [same]
    exact Nat.le_succ _

private theorem chopped_ne_nil (nonempty : text ≠ []) (more : text ≠ [slash]) : chopped text ≠ [] := by
  intro nothing
  rcases chopped_cases text with ⟨-, ended⟩ | ⟨-, same⟩
  · rw [nothing] at ended
    exact more ended.symm
  · exact nonempty (same.symm.trans nothing)

private theorem stripped_ne_nil (nonempty : text ≠ []) (more : text ≠ [slash]) : stripped text ≠ [] := by
  intro nothing
  rcases stripped_cases text with ⟨-, started⟩ | ⟨-, same⟩
  · rw [nothing] at started
    exact more started.symm
  · exact nonempty (same.symm.trans nothing)

private theorem chopped_append (first : List UInt8) (nonempty : text ≠ []) :
    chopped (first ++ text) = first ++ chopped text := by
  unfold chopped
  rw [List.getLast?_append_of_ne_nil _ nonempty, List.dropLast_append_of_ne_nil nonempty]
  split_ifs <;> rfl

private theorem stripped_append (nonempty : text ≠ []) (second : List UInt8) :
    stripped (text ++ second) = stripped text ++ second := by
  unfold stripped
  rw [List.head?_append_of_ne_nil _ nonempty, List.tail_append_of_ne_nil nonempty]
  split_ifs <;> rfl

private theorem chopped_stripped (text : List UInt8) : chopped (stripped text) = stripped (chopped text) := by
  cases text with
  | nil => rfl
  | cons first text =>
    by_cases empty : text = []
    · subst empty
      by_cases same : first = slash
      · subst same
        rfl
      · simp [chopped, stripped, same]
    · rw [← List.singleton_append, chopped_append _ empty]
      by_cases same : first = slash
      · simp [stripped, same]
      · have kept : ∀ second, stripped ([first] ++ second) = [first] ++ second := by
          intro second
          simp [stripped, same]
        rw [kept, kept, chopped_append _ empty]

/-! ## What is printed -/

/-- The text of the strings, one after the other. -/
def textOf (strings : List CString) : List UInt8 := strings.flatMap (·.bytes)

/-- The assertion holds, or it stops the program. -/
theorem asprintf_cases (strings : List CString) :
    (textOf strings).length ≤ intMax ∧ (∃ s, asprintf strings = .ok s ∧ s.bytes = textOf strings) ∨
    intMax < (textOf strings).length ∧ asprintf strings = .error .aborted := by
  unfold asprintf
  split_ifs with short
  · exact .inl ⟨short, _, rfl, rfl⟩
  · exact .inr ⟨Nat.lt_of_not_le short, rfl⟩

/-- Only the text counts. -/
theorem asprintf_congr {strings strings' : List CString} (same : textOf strings = textOf strings') :
    asprintf strings = asprintf strings' := by
  rcases asprintf_cases strings with ⟨short, s, run, bytes⟩ | ⟨long, run⟩ <;>
    rcases asprintf_cases strings' with ⟨short', s', run', bytes'⟩ | ⟨long', run'⟩
  · rw [run, run', CString.ext (bytes.trans (same.trans bytes'.symm))]
  · rw [same] at short
    exact absurd long' (Nat.not_lt.mpr short)
  · rw [same] at long
    exact absurd long (Nat.not_lt.mpr short')
  · rw [run, run']

/-- What is printed in two steps can be printed in one, since the texts only get longer. -/
theorem asprintf_bind {strings final : List CString} {next : CString → Except Fault CString}
    (more : (textOf strings).length ≤ (textOf final).length)
    (step : ∀ s, s.bytes = textOf strings → next s = asprintf final) :
    asprintf strings >>= next = asprintf final := by
  rcases asprintf_cases strings with ⟨-, s, run, bytes⟩ | ⟨long, run⟩
  · rw [run]
    exact step s bytes
  · rcases asprintf_cases final with ⟨short, -⟩ | ⟨-, stops⟩
    · omega
    · rw [run, stops]
      rfl

/-! ## Joins -/

/-- The string without the slash at its end. -/
def chop (s : CString) : CString := if s.bytes.getLast? = some slash then s.take (s.length - 1) else s

/-- The string without the slash at its start. -/
def strip (s : CString) : CString := if s.bytes.head? = some slash then s.drop 1 else s

private theorem bytes_chop (s : CString) : (chop s).bytes = chopped s.bytes := by
  unfold chop chopped
  split_ifs
  · exact List.dropLast_eq_take.symm
  · rfl

private theorem bytes_strip (s : CString) : (strip s).bytes = stripped s.bytes := by
  unfold strip stripped
  split_ifs
  · exact List.drop_one
  · rfl

private theorem textOf_join (a b : CString) :
    textOf [chop a, root, strip b] = chopped a.bytes ++ slash :: stripped b.bytes := by
  simp [textOf, bytes_chop, bytes_strip, root]

private theorem joinPath_empty_left (empty : a.bytes = []) : joinPath (some a) (some b) = .ok b := by
  rw [joinPath]
  exact if_pos empty

private theorem joinPath_empty_right (empty : b.bytes = []) : joinPath (some a) (some b) = .ok a := by
  by_cases both : a.bytes = []
  · rw [joinPath_empty_left both, CString.ext (both.trans empty.symm)]
  · rw [joinPath, if_neg both]
    exact if_pos empty

/-- One slash is between the names. -/
theorem joinPath_nonempty (first : a.bytes ≠ []) (second : b.bytes ≠ []) :
    joinPath (some a) (some b) = asprintf [chop a, root, strip b] := by
  rw [joinPath, if_neg first, if_neg second]
  rcases chopped_cases a.bytes with ⟨last, ended⟩ | ⟨last, same⟩
  · rw [if_pos last]
    rcases stripped_cases b.bytes with ⟨head, started⟩ | ⟨head, same'⟩
    · have tail : b.bytes.drop 1 = stripped b.bytes := congrArg (List.drop 1) started.symm
      rw [if_pos head]
      apply asprintf_congr
      rw [textOf_join, List.append_cons, ended, ← tail]
      simp [textOf]
    · rw [if_neg head]
      apply asprintf_congr
      rw [textOf_join, List.append_cons, ended, same']
      simp [textOf]
  · rw [if_neg last]
    rcases stripped_cases b.bytes with ⟨head, started⟩ | ⟨head, same'⟩
    · rw [if_neg (not_not.mpr head)]
      apply asprintf_congr
      rw [textOf_join, same, started]
      simp [textOf]
    · rw [if_pos head]
      apply asprintf_congr
      rw [textOf_join, same, same']
      simp [textOf, root]

/-- A join of names that are not empty, joined with a third one. -/
theorem joinPath_left (first : a.bytes ≠ []) (second : b.bytes ≠ []) (third : c.bytes ≠ []) {final : List CString}
    (text : textOf final = chopped (chopped a.bytes ++ slash :: stripped b.bytes) ++ slash :: stripped c.bytes) :
    (do
      let ab ← joinPath (some a) (some b)
      joinPath (some ab) (some c)) = asprintf final := by
  rw [joinPath_nonempty first second]
  apply asprintf_bind
  · rw [text, textOf_join, @List.length_append _ (chopped (_ ++ _)), List.length_cons]
    have shorter := length_chopped (chopped a.bytes ++ slash :: stripped b.bytes)
    omega
  · intro ab bytes
    rw [textOf_join] at bytes
    have nonempty : ab.bytes ≠ [] := by
      rw [bytes]
      simp
    rw [joinPath_nonempty nonempty third]
    apply asprintf_congr
    rw [textOf_join, bytes, text]

private theorem joinPath_right (first : a.bytes ≠ []) (second : b.bytes ≠ []) (third : c.bytes ≠ [])
    {final : List CString}
    (text : textOf final = chopped a.bytes ++ slash :: stripped (chopped b.bytes ++ slash :: stripped c.bytes)) :
    (do
      let bc ← joinPath (some b) (some c)
      joinPath (some a) (some bc)) = asprintf final := by
  rw [joinPath_nonempty second third]
  apply asprintf_bind
  · rw [text, textOf_join, @List.length_append _ (chopped a.bytes), List.length_cons]
    have shorter := length_stripped (chopped b.bytes ++ slash :: stripped c.bytes)
    omega
  · intro bc bytes
    rw [textOf_join] at bytes
    have nonempty : bc.bytes ≠ [] := by
      rw [bytes]
      simp
    rw [joinPath_nonempty first nonempty]
    apply asprintf_congr
    rw [textOf_join, bytes, text]

/-- The middle is either more than a slash, and loses the slashes at both of its ends, or it is nothing
but the separator. -/
theorem joined_assoc (first : List UInt8) {middle : List UInt8} (last : List UInt8) (nonempty : middle ≠ []) :
    chopped (first ++ slash :: stripped middle) ++ slash :: last =
      first ++ slash :: stripped (chopped middle ++ slash :: last) := by
  by_cases lone : middle = [slash]
  · have nothing : stripped [slash] = [] ∧ chopped [slash] = [] := by decide
    have left : chopped (first ++ [slash]) = first := by
      rw [chopped_append first (by decide), nothing.2, List.append_nil]
    have right : stripped (slash :: last) = last := rfl
    rw [lone, nothing.1, nothing.2, left, List.nil_append, right]
  · have left : chopped (first ++ slash :: stripped middle) = first ++ slash :: chopped (stripped middle) := by
      rw [List.append_cons, chopped_append _ (stripped_ne_nil nonempty lone), ← List.append_cons]
    rw [left, stripped_append (chopped_ne_nil nonempty lone), chopped_stripped, List.append_assoc, List.cons_append]

/-- The strings that three joined names consist of. -/
theorem exists_final (a b c : CString) (second : b.bytes ≠ []) : ∃ final : List CString,
    textOf final = chopped a.bytes ++ slash :: stripped (chopped b.bytes ++ slash :: stripped c.bytes) := by
  by_cases lone : b.bytes = [slash]
  · apply Exists.intro [chop a, root, strip c]
    rw [textOf_join, lone]
    rfl
  · apply Exists.intro [chop a, root, strip (chop b), root, strip c]
    rw [stripped_append (chopped_ne_nil second lone)]
    simp [textOf, bytes_chop, bytes_strip, root]

private theorem joinPath_assoc (a b c : CString) :
    (do
      let ab ← joinPath (some a) (some b)
      joinPath (some ab) (some c)) =
    (do
      let bc ← joinPath (some b) (some c)
      joinPath (some a) (some bc)) := by
  by_cases first : a.bytes = []
  · simp only [joinPath_empty_left first]
    exact (bind_pure _).symm
  · by_cases second : b.bytes = []
    · rw [joinPath_empty_right second, joinPath_empty_left second]
      rfl
    · by_cases third : c.bytes = []
      · simp only [joinPath_empty_right third]
        exact bind_pure _
      · obtain ⟨final, text⟩ := exists_final a b c second
        rw [joinPath_right first second third text]
        apply joinPath_left first second third
        rw [text, joined_assoc _ _ second]

/-! ## Splits -/

theorem strrchr_of_notMem {character : UInt8} (absent : character ∉ text) : strrchr character text = none := by
  induction text with
  | nil => rfl
  | cons byte text ih =>
    rw [List.mem_cons, not_or] at absent
    rw [strrchr, ih absent.2]
    exact if_neg fun same => absent.1 same.symm

theorem strrchr_append {character : UInt8} (absent : character ∉ text) (first : List UInt8) :
    strrchr character (first ++ character :: text) = some first.length := by
  induction first with
  | nil =>
    rw [List.nil_append, strrchr, strrchr_of_notMem absent]
    exact if_pos rfl
  | cons byte first ih => rw [List.cons_append, strrchr, ih, List.length_cons]

/-- A path whose last separator comes after `first`. -/
theorem splitPath_append {path : CString} {first : List UInt8} (bytes : path.bytes = first ++ slash :: b.bytes)
    (absent : slash ∉ b.bytes) :
    splitPath path = (if first = [] then some root else some (path.take first.length), b) := by
  have second : path.drop (first.length + 1) = b := by
    apply CString.ext
    rw [CString.bytes_drop, bytes, List.append_cons]
    exact List.drop_left' (by rw [List.length_append, List.length_singleton])
  rw [splitPath, bytes, strrchr_append absent]
  cases first with
  | nil =>
    rw [List.length_nil] at second
    rw [if_pos rfl, ← second]
    rfl
  | cons byte rest =>
    have inside : ¬ path.length < (byte :: rest).length + 1 := by
      rw [CString.length, bytes, List.length_append, @List.length_cons _ _ b.bytes]
      omega
    rw [if_neg (List.cons_ne_nil _ _)]
    rw [List.length_cons] at inside second ⊢
    change (some (path.take (rest.length + 1)), if path.length < rest.length + 1 + 1 then CString.empty
      else path.drop (rest.length + 1 + 1)) = _
    rw [if_neg inside, second]

/-- The name of a file in a directory is split where it was joined. -/
theorem splitPath_joinPath (name : b.bytes ≠ []) (absent : slash ∉ b.bytes)
    (dir : d = root ∨ d.bytes ≠ [] ∧ d.bytes.getLast? ≠ some slash) :
    (joinPath (some d) (some b)).map splitPath =
      if (chopped d.bytes ++ slash :: b.bytes).length ≤ intMax then .ok (some d, b) else .error .aborted := by
  have nonempty : d.bytes ≠ [] := by
    rcases dir with rfl | ⟨nonempty, -⟩
    · decide
    · exact nonempty
  have kept : stripped b.bytes = b.bytes := by
    apply if_neg
    intro head
    exact absent (List.mem_of_mem_head? head)
  have text : textOf [chop d, root, strip b] = chopped d.bytes ++ slash :: b.bytes := by rw [textOf_join, kept]
  rw [joinPath_nonempty nonempty name, ← text]
  rcases asprintf_cases [chop d, root, strip b] with ⟨short, path, run, bytes⟩ | ⟨long, stops⟩
  · rw [text] at bytes
    rw [run, if_pos short]
    change Except.ok (splitPath path) = _
    rw [splitPath_append bytes absent]
    rcases dir with rfl | ⟨nonempty, last⟩
    · rfl
    · have whole : chopped d.bytes = d.bytes := if_neg last
      have first : path.take d.bytes.length = d := by
        apply CString.ext
        rw [CString.bytes_take, bytes, whole, List.take_left]
      rw [whole, if_neg nonempty, first]
  · rw [stops, if_neg (Nat.not_le.mpr long)]
    rfl

/-- Joins can be made in any order, and the name of a file in a directory is split where it was joined,
unless the assertion on `asprintf` has stopped the program. -/
theorem joinPath_laws :
    (∀ a b c : CString,
      (do
        let ab ← joinPath (some a) (some b)
        joinPath (some ab) (some c)) =
      (do
        let bc ← joinPath (some b) (some c)
        joinPath (some a) (some bc))) ∧
    (∀ d b : CString, b.bytes ≠ [] → slash ∉ b.bytes →
      d = root ∨ d.bytes ≠ [] ∧ d.bytes.getLast? ≠ some slash →
      (joinPath (some d) (some b)).map splitPath =
        if (chopped d.bytes ++ slash :: b.bytes).length ≤ intMax then .ok (some d, b) else .error .aborted) :=
  ⟨joinPath_assoc, fun _ _ => splitPath_joinPath⟩

/-- `"/usr"` -/
def usr : CString := ⟨[47, 117, 115, 114], by decide, by decide⟩

/-- `"bin"` -/
def bin : CString := ⟨[98, 105, 110], by decide, by decide⟩

theorem joinPath_laws_usr : (joinPath (some usr) (some bin)).map splitPath = .ok (some usr, bin) :=
  joinPath_laws.2 usr bin (by decide) (by decide) (.inr ⟨by decide, by decide⟩)

end Yalibct.Gvisor

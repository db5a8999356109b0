import Mathlib.Data.List.TakeWhile
import Mathlib.Tactic.SplitIfs
import Yalibct.Model.Cmocka

/-! # Which error messages are collected

A message that fits into the buffer on the stack is appended. For a longer one the second call of `vsnprintf` has
no room for the last byte, while the assertion around it asks for all bytes: the run is aborted. A message
whose length is no `int` is lost. So the string holds all messages exactly when each of them fits into the buffer.
-/

namespace Yalibct.Cmocka

open Machine

variable {m : Malloc} {p : Printf} {s s' : State} {call : Call p} {calls : List (Call p)} {held block : List UInt8}
variable {offset k n : ℕ}

/-- Every request up to this size is granted. -/
def Grants (m : Malloc) (bound : ℕ) : Prop := ∀ call size, size ≤ bound → m.grant call size ≠ none

/-- The string at `cm_error_message`. -/
def State.text (s : State) : List UInt8 :=
  match s.cmErrorMessage with
  | none => []
  | some block => block.takeWhile (· ≠ 0)

/-- The string is this text, in a block of just its size. -/
structure Holds (s : State) (held : List UInt8) : Prop where
  noNul : 0 ∉ held
  block : s.cmErrorMessage = none ∧ held = [] ∨ s.cmErrorMessage = some (held ++ [0])

/-! ## Strings in blocks -/

private theorem takeWhile_of_noNul {rest : List UInt8} (noNul : 0 ∉ held) :
    (held ++ 0 :: rest).takeWhile (· ≠ 0) = held := by
  have all : ∀ c ∈ held, decide (c ≠ 0) = true := fun c member =>
    decide_eq_true fun zero => noNul (zero ▸ member)
  rw [List.takeWhile_append_of_pos all]
  simp

private theorem strlen_of_noNul (noNul : 0 ∉ held) : strlen (held ++ [0]) 0 = .ok held.length := by
  simp only [strlen, List.drop_zero, takeWhile_of_noNul noNul]
  exact if_pos (by rw [List.length_append, List.length_singleton]; omega)

private theorem length_takeWhile_le (nul : block[k]? = some 0) : (block.takeWhile (· ≠ 0)).length ≤ k := by
  induction block generalizing k with
  | nil => cases nul
  | cons c block ih =>
    by_cases zero : c = 0
    · simp [zero]
    · cases k with
      | zero => exact absurd (Option.some.inj nul) zero
      | succ k => simpa [zero] using ih nul

/-- A string ends at the first NUL. -/
theorem strlen_le (nul : block[offset + k]? = some 0) (measured : strlen block offset = .ok n) : n ≤ k := by
  simp only [strlen] at measured
  split_ifs at measured
  cases measured
  exact length_takeWhile_le (by rw [List.getElem?_drop]; exact nul)

theorem Holds.text_eq (holds : Holds s held) : s.text = held := by
  rcases holds.block with ⟨unset, rfl⟩ | set
  · rw [State.text, unset]
  · rw [State.text, set]
    exact takeWhile_of_noNul holds.noNul

private theorem noNul_text (s : State) : 0 ∉ s.text := by
  rw [State.text]
  cases s.cmErrorMessage with
  | none => exact List.not_mem_nil
  | some block =>
    intro member
    have nonzero := List.mem_takeWhile_imp member
    simp at nonzero

/-! ## Memory for the string -/

private theorem le_of_grants {bound : ℕ} (grants : Grants m bound) : bound ≤ ptrdiffMax := by
  obtain ⟨block, granted⟩ := Option.ne_none_iff_exists'.mp (grants 0 bound (Nat.le_refl _))
  exact m.bounded granted

private theorem malloc_of_grants {bound size : ℕ} (grants : Grants m bound) (small : size ≤ bound) (r : Requests) :
    ∃ block, m.malloc r size = (some block, ⟨r.calls + 1, r.refused⟩) ∧ block.length = size := by
  obtain ⟨block, granted⟩ := Option.ne_none_iff_exists'.mp (grants r.calls size small)
  exact ⟨block, by rw [Malloc.malloc, granted], m.length_of_grant granted⟩

private theorem realloc_of_grants {bound size : ℕ} (grants : Grants m bound) (small : size ≤ bound) (r : Requests)
    (old : List UInt8) : ∃ block, m.realloc r old size = (some block, ⟨r.calls + 1, r.refused⟩) ∧
      block.length = size ∧ ∀ count ≤ old.length, count ≤ size → block.take count = old.take count := by
  obtain ⟨fresh, granted, -⟩ := malloc_of_grants grants small r
  rcases Malloc.realloc_cases (m := m) r old size with ⟨block, moved, length, -, keeps⟩ | refused
  · exact ⟨block, moved, length, keeps⟩
  · rw [Malloc.realloc, granted] at refused
    cases refused

/-- A block for the string and a message: it holds the string, with a NUL. -/
structure Room (block held : List UInt8) (len : ℕ) : Prop where
  length : block.length = held.length + len + 1
  take : block.take (held.length + 1) = held ++ [0]

theorem Room.take_held {len : ℕ} (room : Room block held len) : block.take held.length = held := by
  have both := congrArg (List.take held.length) room.take
  rw [List.take_take, Nat.min_eq_left (Nat.le_succ _), List.take_left] at both
  exact both

theorem Room.nul {len : ℕ} (room : Room block held len) : block[held.length]? = some 0 := by
  rw [← List.getElem?_take_of_lt (Nat.lt_succ_self held.length), room.take, List.getElem?_concat_length]

/-- The buffer that the message was formatted into. -/
def Call.buffer (call : Call p) : List UInt8 :=
  overwrite (call.stack.toList.take 1024) 0 (p.image call.format call.args 1024)

/-- With memory, the message is stored in such a block. -/
theorem vcmockaPrintError_stores (holds : Holds s held) (grants : Grants m (held.length + call.text.length + 1))
    (short : call.text.length ≤ intMax) :
    vcmockaPrintError m call s = .error .undefined ∧ call.text.length = intMax ∨
    ∃ block r, Room block held call.text.length ∧
      vcmockaPrintError m call s = (storeMessage call call.buffer call.text.length block held.length).map
        fun message => { s with requests := r, cmErrorMessage := some message } := by
  have returned : p.returns call.format call.args = call.text.length := Printf.returns_of_le short
  have positive : ¬ ((call.text.length : ℤ) < 0) := by omega
  simp only [vcmockaPrintError, returned, if_neg positive, Int.toNat_natCast]
  rcases holds.block with ⟨unset, rfl⟩ | set
  · simp only [unset]
    split_ifs with overflow
    · exact .inl ⟨rfl, overflow⟩
    · obtain ⟨block, granted, length⟩ := malloc_of_grants grants (Nat.le_refl _) s.requests
      rw [List.length_nil, Nat.zero_add] at granted length
      have zeroed : libcCalloc m s.requests 1 (call.text.length + 1) =
          (some (List.replicate block.length 0), ⟨s.requests.calls + 1, s.requests.refused⟩) := by
        rw [libcCalloc, Nat.one_mul, granted]
      refine .inr ⟨List.replicate block.length 0, ⟨s.requests.calls + 1, s.requests.refused⟩, ⟨?_, ?_⟩, ?_⟩
      · rw [List.length_replicate, length, List.length_nil, Nat.zero_add]
      · rw [length, List.take_replicate, List.length_nil, Nat.min_eq_left (by omega)]
        rfl
      · rw [zeroed]
        rfl
  · simp only [set]
    have size : sizeT (held.length + call.text.length + 1) = held.length + call.text.length + 1 := by
      have possible := le_of_grants grants
      rw [ptrdiffMax] at possible
      exact sizeT_of_lt (by omega)
    obtain ⟨block, moved, length, keeps⟩ := realloc_of_grants grants (Nat.le_refl _) s.requests (held ++ [0])
    refine .inr ⟨block, ⟨s.requests.calls + 1, s.requests.refused⟩, ⟨length, ?_⟩, ?_⟩
    · rw [keeps _ (by rw [List.length_append, List.length_singleton]) (by omega)]
      exact List.take_of_length_le (by rw [List.length_append, List.length_singleton])
    · rw [bind_of_ok (strlen_of_noNul holds.noNul), libcRealloc, size, moved]
      rfl

/-! ## One message -/

/-- A message that fits into the buffer is copied with its NUL. -/
theorem storeMessage_short (short : call.text.length < 1024) (room : Room block held call.text.length) :
    storeMessage call call.buffer call.text.length block held.length = .ok (held ++ call.text ++ [0]) := by
  have image : p.image call.format call.args 1024 = call.text ++ [0] := by
    have whole : (p.text call.format call.args).take (1024 - 1) = call.text :=
      List.take_of_length_le (Nat.le_of_lt_succ short)
    rw [Printf.image, if_neg (by decide), whole]
  have length : (call.text ++ [0]).length = call.text.length + 1 := by
    rw [List.length_append, List.length_singleton]
  have whole : (call.stack.toList.take 1024).length = 1024 := by simp
  have copied : loadRun call.buffer 0 (call.text.length + 1) = .ok (call.text ++ [0]) := by
    have stored := take_overwrite (call.stack.toList.take 1024) (Nat.zero_le _) (call.text.length + 1)
      (Nat.le_of_eq length.symm)
    rw [Nat.zero_add, List.take_zero, List.nil_append, ← length, List.take_length] at stored
    rw [Call.buffer, image, ← length, loadRun_of_le, List.drop_zero, stored]
    rw [length_overwrite (by omega)]
    omega
  rw [storeMessage, if_pos short, bind_of_ok copied, putRun_of_le (by rw [room.length, length, Nat.add_assoc]),
    overwrite, room.take_held, List.drop_of_length_le (by rw [room.length, length, Nat.add_assoc]), List.append_nil,
    List.append_assoc]

/-- A longer message does not pass the assertion, whichever operand is evaluated first. -/
theorem storeMessage_long {buffer printed : List UInt8} (long : 1024 ≤ call.text.length)
    (object : call.text.length ≤ intMax) (room : Room block held call.text.length) :
    storeMessage call buffer call.text.length block held.length ≠ .ok printed := by
  have returned : p.returns call.format call.args = call.text.length := Printf.returns_of_le object
  have image : p.image call.format call.args call.text.length = call.text.take (call.text.length - 1) ++ [0] :=
    if_neg (by omega)
  have length : (call.text.take (call.text.length - 1)).length = call.text.length - 1 :=
    List.length_take_of_le (Nat.sub_le _ _)
  have fits : held.length + (call.text.take (call.text.length - 1) ++ [0]).length ≤ block.length := by
    rw [List.length_append, length, List.length_singleton, room.length]
    omega
  rw [storeMessage, if_neg (by omega), assertPrinted, image, bind_of_ok (putRun_of_le fits)]
  intro done
  obtain ⟨n, measured, asserted⟩ := bind_eq_ok.mp done
  -- The string that was measured ends before the last byte of the message.
  have early : n ≤ call.text.length - 1 := by
    cases order : call.leftFirst with
    | true =>
      rw [order, if_pos rfl] at measured
      refine strlen_le ?_ measured
      rw [getElem?_overwrite (by rw [room.length]; omega), if_neg (by omega),
        if_pos (by rw [List.length_append, length, List.length_singleton]; omega), Nat.add_sub_cancel_left]
      have last : (call.text.take (call.text.length - 1) ++ [0])[(call.text.take (call.text.length - 1)).length]? =
          some 0 := List.getElem?_concat_length
      rw [length] at last
      exact last
    | false =>
      rw [order, if_neg Bool.false_ne_true] at measured
      have start : n ≤ 0 := strlen_le room.nul measured
      omega
  rw [returned] at asserted
  split_ifs at asserted with equal
  have same : call.text.length = n := Int.ofNat.inj equal
  omega

private theorem cmockaPrintError_short (holds : Holds s held) (grants : Grants m (held.length + call.text.length + 1))
    (short : call.text.length < 1024) (clean : 0 ∉ call.text) :
    ∃ s', cmockaPrintError m true call s = .ok s' ∧ Holds s' (held ++ call.text) := by
  have small : call.text.length < intMax := Nat.lt_trans short (by decide)
  rcases vcmockaPrintError_stores holds grants (Nat.le_of_lt small) with ⟨-, equal⟩ | ⟨block, r, room, stores⟩
  · omega
  · rw [storeMessage_short short room] at stores
    refine ⟨_, stores, ⟨?_, .inr rfl⟩⟩
    rw [List.mem_append, not_or]
    exact ⟨holds.noNul, clean⟩

private theorem cmockaPrintError_long (holds : Holds s held) (grants : Grants m (held.length + call.text.length + 1))
    (long : 1024 ≤ call.text.length) (object : call.text.length ≤ intMax) :
    cmockaPrintError m true call s ≠ .ok s' := by
  intro done
  change vcmockaPrintError m call s = .ok s' at done
  rcases vcmockaPrintError_stores holds grants object with ⟨overflow, -⟩ | ⟨block, r, room, stores⟩
  · rw [overflow] at done
    cases done
  · rw [stores] at done
    cases stored : storeMessage call call.buffer call.text.length block held.length with
    | error fault =>
      rw [stored] at done
      cases done
    | ok message => exact storeMessage_long long object room stored

private theorem cmockaPrintError_lost (huge : intMax < call.text.length) : cmockaPrintError m true call s = .ok s :=
    by
  have returned : p.returns call.format call.args = -1 := if_neg (Nat.not_le_of_lt huge)
  rw [cmockaPrintError, if_pos rfl, vcmockaPrintError, returned]
  rfl

/-! ## All messages -/

/-- The whole text of some calls. -/
def joined (calls : List (Call p)) : List UInt8 := (calls.map Call.text).flatten

private theorem joined_cons (call : Call p) (calls : List (Call p)) :
    joined (call :: calls) = call.text ++ joined calls := rfl

private theorem printAll_cons (call : Call p) (calls : List (Call p)) (s : State) :
    printAll m (call :: calls) s = cmockaPrintError m true call s >>= printAll m calls := List.foldlM_cons

theorem Grants.mono {bound less : ℕ} (grants : Grants m bound) (small : less ≤ bound) : Grants m less :=
  fun call size within => grants call size (Nat.le_trans within small)

/-- The calls whose messages fit into the buffer. -/
def fitting (calls : List (Call p)) : List (Call p) := calls.filter fun call => call.text.length < 1024

private theorem fitting_cons_short (short : call.text.length < 1024) : fitting (call :: calls) = call ::
    fitting calls := by
  simp [fitting, short]

private theorem fitting_cons_long (long : 1024 ≤ call.text.length) : fitting (call :: calls) = fitting calls := by
  simp [fitting, long]

private theorem length_fitting_le (calls : List (Call p)) :
    (joined (fitting calls)).length ≤ (joined calls).length := by
  induction calls with
  | nil => exact Nat.le_refl _
  | cons call calls ih =>
    rw [joined_cons, List.length_append]
    rcases Nat.lt_or_ge call.text.length 1024 with short | long
    · rw [fitting_cons_short short, joined_cons, List.length_append]
      omega
    · rw [fitting_cons_long long]
      omega

private theorem printAll_fitting (holds : Holds s held) (grants : Grants m (held.length + (joined calls).length + 1))
    (clean : ∀ call ∈ calls, 0 ∉ call.text) (ran : printAll m calls s = .ok s') :
    Holds s' (held ++ joined (fitting calls)) := by
  induction calls generalizing s held with
  | nil =>
    cases ran
    rw [show joined (fitting ([] : List (Call p))) = [] from rfl, List.append_nil]
    exact holds
  | cons call calls ih =>
    rw [joined_cons, List.length_append] at grants
    have here := grants.mono (show held.length + call.text.length + 1 ≤ _ by omega)
    obtain ⟨mid, first, rest⟩ := bind_eq_ok.mp (printAll_cons call calls s ▸ ran)
    have others : ∀ call ∈ calls, 0 ∉ call.text := fun other member => clean other (List.mem_cons_of_mem _ member)
    rcases Nat.lt_or_ge call.text.length 1024 with short | long
    · obtain ⟨next, printed, holds'⟩ := cmockaPrintError_short holds here short (clean call List.mem_cons_self)
      obtain rfl : next = mid := Except.ok.inj (printed.symm.trans first)
      have collected := ih holds' (grants.mono (by rw [List.length_append]; omega)) others rest
      rw [fitting_cons_short short, joined_cons, ← List.append_assoc]
      exact collected
    · rcases Nat.lt_or_ge intMax call.text.length with huge | object
      · obtain rfl : s = mid := Except.ok.inj ((cmockaPrintError_lost huge).symm.trans first)
        have collected := ih holds (grants.mono (by omega)) others rest
        rw [fitting_cons_long long]
        exact collected
      · exact absurd first (cmockaPrintError_long holds here long object)

/-- Nothing stops a run whose messages all fit. -/
theorem printAll_short (holds : Holds s held) (grants : Grants m (held.length + (joined calls).length + 1))
    (good : ∀ call ∈ calls, call.text.length < 1024 ∧ 0 ∉ call.text) :
    ∃ s', printAll m calls s = .ok s' ∧ Holds s' (held ++ joined calls) := by
  induction calls generalizing s held with
  | nil => exact ⟨s, rfl, by rw [show joined ([] : List (Call p)) = [] from rfl, List.append_nil]; exact holds⟩
  | cons call calls ih =>
    rw [joined_cons, List.length_append] at grants
    have here := grants.mono (show held.length + call.text.length + 1 ≤ _ by omega)
    obtain ⟨short, clean⟩ := good call List.mem_cons_self
    obtain ⟨mid, first, holds'⟩ := cmockaPrintError_short holds here short clean
    obtain ⟨s', rest, collected⟩ := ih holds' (grants.mono (by rw [List.length_append]; omega))
      fun other member => good other (List.mem_cons_of_mem _ member)
    refine ⟨s', by rw [printAll_cons, bind_of_ok first, rest], ?_⟩
    rw [joined_cons, ← List.append_assoc]
    exact collected

/-- What is left out is missed, unless it is empty. -/
theorem all_fitting (same : (joined (fitting calls)).length = (joined calls).length) :
    ∀ call ∈ calls, call.text.length < 1024 := by
  induction calls with
  | nil => exact nofun
  | cons call calls ih =>
    have less := length_fitting_le calls
    rw [joined_cons, List.length_append] at same
    rcases Nat.lt_or_ge call.text.length 1024 with short | long
    · rw [fitting_cons_short short, joined_cons, List.length_append] at same
      intro other member
      rcases List.mem_cons.mp member with rfl | member
      · exact short
      · exact ih (Nat.add_left_cancel same) other member
    · rw [fitting_cons_long long] at same
      omega

/-- The run ends without a fault or a failed assertion, and the string is all messages. -/
def Collects (m : Malloc) (calls : List (Call p)) (s : State) : Prop :=
  ∃ s', printAll m calls s = .ok s' ∧ s'.text = joined calls

/-- With enough memory, the messages are collected if and only if each of them fits into the buffer and has no
NUL. -/
theorem collects_iff (unset : s.cmErrorMessage = none) (grants : Grants m ((joined calls).length + 1)) :
    Collects m calls s ↔ ∀ call ∈ calls, call.text.length < 1024 ∧ 0 ∉ call.text := by
  have holds : Holds s [] := ⟨List.not_mem_nil, .inl ⟨unset, rfl⟩⟩
  have grants' : Grants m (([] : List UInt8).length + (joined calls).length + 1) :=
    grants.mono (by rw [List.length_nil, Nat.zero_add])
  constructor
  · rintro ⟨s', ran, whole⟩
    have clean : ∀ call ∈ calls, 0 ∉ call.text := by
      intro call member zero
      refine noNul_text s' ?_
      rw [whole]
      exact List.mem_flatten.mpr ⟨call.text, List.mem_map_of_mem member, zero⟩
    have collected := (printAll_fitting holds grants' clean ran).text_eq
    rw [List.nil_append, whole] at collected
    have short := all_fitting (congrArg List.length collected.symm)
    exact fun call member => ⟨short call member, clean call member⟩
  · intro good
    obtain ⟨s', ran, collected⟩ := printAll_short holds grants' good
    exact ⟨s', ran, by rw [collected.text_eq, List.nil_append]⟩

/-! ## Runs -/

/-- Messages that are printed with `"%s"`. -/
def plain (text : List UInt8) : Call Printf.string := ⟨(), [text], Vector.replicate 4096 0, true⟩

def start : State := ⟨Requests.none, none, []⟩

private theorem grants_generous {bound : ℕ} (possible : bound ≤ ptrdiffMax) : Grants Malloc.generous bound := by
  intro call size small
  change (if size ≤ ptrdiffMax then some (List.replicate size 0) else none) ≠ none
  rw [if_pos (Nat.le_trans small possible)]
  exact Option.some_ne_none _

theorem collects_iff_two : Collects Malloc.generous [plain [97], plain [98, 99]] start := by
  have grants := grants_generous (show (joined [plain [97], plain [98, 99]]).length + 1 ≤ ptrdiffMax by decide)
  exact (collects_iff rfl grants).mpr (by decide)

/-- One byte more than the buffer holds besides the NUL. -/
def longMessage : List UInt8 := List.replicate 1024 97

theorem longMessage_lost :
    Grants Malloc.generous ((joined [plain longMessage]).length + 1) ∧ 0 ∉ longMessage ∧
      ¬ Collects Malloc.generous [plain longMessage] start := by
  have length : (plain longMessage).text.length = 1024 := List.length_replicate
  have whole : joined [plain longMessage] = (plain longMessage).text := List.append_nil _
  have grants : Grants Malloc.generous ((joined [plain longMessage]).length + 1) :=
    grants_generous (by rw [whole, length]; decide)
  refine ⟨grants, fun member => absurd (List.eq_of_mem_replicate member) (by decide), ?_⟩
  rintro ⟨s', ran, -⟩
  obtain ⟨mid, first, -⟩ := bind_eq_ok.mp (printAll_cons (plain longMessage) [] start ▸ ran)
  have holds : Holds start [] := ⟨List.not_mem_nil, .inl ⟨rfl, rfl⟩⟩
  refine cmockaPrintError_long holds ?_ (Nat.le_of_eq length.symm) (by rw [length]; decide) first
  rw [List.length_nil, Nat.zero_add, ← whole]
  exact grants

end Yalibct.Cmocka

import Mathlib.Tactic.SplitIfs
import Yalibct.Model.StringBuffer

/-! # What a string buffer holds after any sequence of appends

While no request for memory is refused, the used part of the buffer is extended by each formatted
text, except that a text exactly as long as the room of the attempt that stores it loses its last
byte to the NUL of `vsnprintf`. So `sb_dupfree` returns the concatenation of the texts exactly
when every text that lines up with the room of its attempt already ends in a NUL.
-/

namespace Yalibct.StringBuffer

open Machine

variable {m : Malloc} {p : Printf}

/-- The used bytes. -/
def content (b : StringBuffer) : List UInt8 := b.data.take b.length

/-- The block at `data` is as long as recorded, within the limits of an object, and covers the
used bytes. -/
structure Valid (b : StringBuffer) : Prop where
  block : b.data.length = b.allocated
  used : b.length ≤ b.allocated
  object : b.allocated ≤ ptrdiffMax

theorem Valid.length_content {b : StringBuffer} (valid : b.Valid) : b.content.length = b.length := by
  rw [content, List.length_take, valid.block, Nat.min_eq_left valid.used]

/-- The allocated size once `increment` more bytes are available. -/
def grown (b : StringBuffer) (increment : ℕ) : ℕ :=
  if b.allocated < b.length + increment then max (2 * b.allocated) (b.length + increment)
  else b.allocated

/-- The text is as long as the room of the attempt that stores it: the first attempt, with at
least 64 bytes of room, or the second, when doubling the block does not give more than is asked. -/
def LinesUp (b : StringBuffer) (length : ℕ) : Prop :=
  length = b.grown 64 - b.length ∨
    b.grown 64 - b.length < length ∧ 2 * b.grown 64 ≤ b.length + length

instance (b : StringBuffer) (length : ℕ) : Decidable (b.LinesUp length) :=
  inferInstanceAs (Decidable (_ ∨ _))

/-- What an append leaves of its text in the buffer. -/
def kept (b : StringBuffer) (text : List UInt8) : List UInt8 :=
  if b.LinesUp text.length then text.dropLast ++ [0] else text

theorem valid_sbInit (space : Vector UInt8 1024) : (sbInit space).Valid where
  block := by simp [sbInit]
  used := by simp [sbInit]
  object := by simp [sbInit, ptrdiffMax]

theorem content_sbInit (space : Vector UInt8 1024) : (sbInit space).content = [] := by
  simp [sbInit, content]

/-- The larger block starts with the used bytes. -/
theorem reallocate_cases {b : StringBuffer} (valid : b.Valid) (r : Requests) {size : ℕ}
    (room : b.length ≤ size) :
    (∃ block, b.reallocate m r size = (some block, ⟨r.calls + 1, r.refused⟩) ∧
      block.length = size ∧ size ≤ ptrdiffMax ∧ block.take b.length = b.content) ∨
    b.reallocate m r size = (none, ⟨r.calls + 1, true⟩) := by
  have block := valid.block
  have used := valid.used
  cases space : b.inSpace with
  | true =>
    simp only [reallocate, space, ↓reduceIte]
    rcases Malloc.malloc_cases (m := m) r size with ⟨fresh, granted, length, bound⟩ | refused
    · have short : (b.data.take b.length).length = b.length := valid.length_content
      refine .inl ⟨overwrite fresh 0 (b.data.take b.length), by rw [granted], ?_, bound, ?_⟩
      · rw [length_overwrite (by omega), length]
      · have moved := take_overwrite fresh (Nat.zero_le _) b.length
          (Nat.le_of_eq short.symm)
        rwa [Nat.zero_add, List.take_zero, List.nil_append, List.take_of_length_le (Nat.le_of_eq short)] at moved
    · exact .inr (by rw [refused])
  | false =>
    simp only [reallocate, space, Bool.false_eq_true, ↓reduceIte]
    rcases Malloc.realloc_cases (m := m) r b.data size with ⟨fresh, granted, length, bound, keeps⟩ | refused
    · exact .inl ⟨fresh, granted, length, bound, keeps b.length (by omega) room⟩
    · exact .inr refused

/-- What `sb_ensure_more_bytes` can do: make the room, or record a refusal and nothing else. The
overflow checks never fire, since no object is that large. -/
theorem sbEnsureMoreBytes_cases {b : StringBuffer} (valid : b.Valid) (r : Requests) {increment : ℕ}
    (small : increment ≤ intMax) :
    (∃ r' b', sbEnsureMoreBytes m r b increment = (0, r', b') ∧ r'.refused = r.refused ∧
      b'.Valid ∧ b'.content = b.content ∧ b'.length = b.length ∧ b'.error = b.error ∧
      b'.allocated = b.grown increment) ∨
    ∃ r', sbEnsureMoreBytes m r b increment = (-1, r', b) ∧ r'.refused = true := by
  have used := valid.used
  have object := valid.object
  simp only [ptrdiffMax, intMax] at object small
  have sum : sizeT (b.length + increment) = b.length + increment := sizeT_of_lt (by omega)
  have double : sizeT (2 * b.allocated) = 2 * b.allocated := sizeT_of_lt (by omega)
  have larger : (if 2 * b.allocated < b.length + increment then b.length + increment
      else 2 * b.allocated) = max (2 * b.allocated) (b.length + increment) := by
    split_ifs <;> omega
  simp only [sbEnsureMoreBytes, sum, double, larger,
    if_neg (show ¬ b.length + increment < increment by omega),
    if_neg (show ¬ 2 * b.allocated < b.allocated by omega)]
  by_cases room : b.allocated < b.length + increment
  · have target : b.grown increment = max (2 * b.allocated) (b.length + increment) := if_pos room
    rw [if_pos room, ← target]
    have covers : b.length ≤ b.grown increment := by omega
    rcases reallocate_cases (m := m) valid r covers with
      ⟨fresh, granted, length, bound, keeps⟩ | refused
    · rw [granted]
      exact .inl ⟨_, _, rfl, rfl, ⟨length, by change b.length ≤ b.grown increment; omega, bound⟩,
        keeps, rfl, rfl, rfl⟩
    · rw [refused]
      exact .inr ⟨_, rfl, rfl⟩
  · exact .inl ⟨r, b, if_neg room, rfl, valid, rfl, rfl, rfl, (if_neg room).symm⟩

/-- After `vsnprintf` printed at the end of the used bytes, the buffer is as valid as before and
the used bytes are the same. -/
theorem Valid.printed {b : StringBuffer} (valid : b.Valid) (format : p.Format) (args : p.Args) :
    (b.printed (b.allocated - b.length) format args).Valid ∧
      (b.printed (b.allocated - b.length) format args).content = b.content := by
  have block := valid.block
  have used := valid.used
  have image := p.length_image_le format args (b.allocated - b.length)
  refine ⟨⟨?_, used, valid.object⟩, take_overwrite_of_le (Nat.le_refl _) (by omega)⟩
  change (overwrite b.data b.length _).length = b.allocated
  rw [length_overwrite (by omega), block]

/-- Advancing the used length over a text that fits its room takes over what was printed. -/
theorem Valid.advance {b : StringBuffer} (valid : b.Valid) {format : p.Format} {args : p.Args}
    {room : ℕ} (exactly : b.allocated - b.length = room) (nonempty : 0 < room)
    (fits : (p.text format args).length ≤ room) :
    let next := { b.printed (b.allocated - b.length) format args with
      length := b.length + (p.text format args).length }
    next.Valid ∧ next.content = b.content ++
      if (p.text format args).length = room
      then (p.text format args).dropLast ++ [0] else p.text format args := by
  subst exactly
  have block := valid.block
  have used := valid.used
  refine ⟨⟨(valid.printed format args).1.block, ?_, valid.object⟩, ?_⟩
  · change b.length + _ ≤ b.allocated
    omega
  · have image : (p.text format args).length ≤ (p.image format args (b.allocated - b.length)).length := by
      simp only [Printf.image, if_neg (show ¬ b.allocated - b.length = 0 by omega),
        List.length_append, List.length_take, List.length_singleton]
      omega
    change (overwrite b.data b.length _).take _ = b.data.take b.length ++ _
    rw [take_overwrite _ (by omega) _ image]
    congr 1
    split_ifs with tight
    · rw [tight]
      exact Printf.take_image_of_eq nonempty tight
    · exact Printf.take_image_of_lt (by omega)

/-- The room of the first attempt is at least 64 bytes, or a refusal is recorded. -/
theorem firstRoom_cases {b : StringBuffer} (valid : b.Valid) (r : Requests) :
    let first := if b.allocated - b.length < 64 then sbEnsureMoreBytes m r b 64 else (0, r, b)
    (∃ r' b', first = (0, r', b') ∧ r'.refused = r.refused ∧ b'.Valid ∧ b'.content = b.content ∧
      b'.length = b.length ∧ b'.error = b.error ∧ b'.allocated = b.grown 64) ∨
    ∃ r', first = (-1, r', b) ∧ r'.refused = true := by
  intro first
  by_cases room : b.allocated - b.length < 64
  · simp only [first, if_pos room]
    exact sbEnsureMoreBytes_cases valid r (by decide)
  · have used := valid.used
    have enough : b.grown 64 = b.allocated := if_neg (by omega)
    exact .inl ⟨r, b, if_neg room, rfl, valid, rfl, rfl, rfl, enough.symm⟩

/-- A text that the first attempt stores loses a byte exactly when it fills the room. -/
theorem kept_of_first {b : StringBuffer} {text : List UInt8}
    (fits : text.length ≤ b.grown 64 - b.length) :
    b.kept text = if text.length = b.grown 64 - b.length then text.dropLast ++ [0] else text :=
  if_congr ⟨fun lines => by rcases lines with same | ⟨more, _⟩ <;> omega, .inl⟩ rfl rfl

/-- A text that needs the second attempt loses a byte exactly when the block is only as large as
asked for. -/
theorem kept_of_second {b : StringBuffer} {text : List UInt8}
    (more : b.grown 64 - b.length < text.length) :
    b.kept text = if text.length = max (2 * b.grown 64) (b.length + text.length) - b.length
      then text.dropLast ++ [0] else text :=
  if_congr ⟨fun lines => by rcases lines with same | ⟨_, tight⟩ <;> omega,
    fun same => .inr ⟨more, by omega⟩⟩ rfl rfl

/-- The second attempt always has the room it asked for, so it does not abort. -/
theorem appendAgain_spec {b : StringBuffer} (valid : b.Valid) (r : Requests) {format : p.Format}
    {args : p.Args} (bound : (p.text format args).length ≤ intMax)
    (more : b.allocated - b.length < (p.text format args).length) :
    ∃ code r' b', appendAgain m r b (p.text format args).length format args = some (code, r', b') ∧
      b'.Valid ∧ (r.refused = true → r'.refused = true) ∧
      (r'.refused = false → b'.error = b.error ∧ b'.content = b.content ++
        if (p.text format args).length =
            max (2 * b.allocated) (b.length + (p.text format args).length) - b.length
        then (p.text format args).dropLast ++ [0] else p.text format args) := by
  have used := valid.used
  rcases sbEnsureMoreBytes_cases (m := m) valid r bound with
    ⟨r', larger, ensured, kept, valid', content', length', error', allocated'⟩ | ⟨r', failed, refused⟩
  · have target : b.grown (p.text format args).length =
        max (2 * b.allocated) (b.length + (p.text format args).length) := if_pos (by omega)
    rw [target] at allocated'
    have fits : (p.text format args).length ≤ larger.allocated - larger.length := by omega
    have exactly : larger.allocated - larger.length =
        max (2 * b.allocated) (b.length + (p.text format args).length) - b.length := by
      rw [allocated', length']
    have advanced := valid'.advance exactly (by omega) (exactly ▸ fits)
    have nonneg : ¬ ((p.text format args).length : ℤ) < 0 := by omega
    simp only [appendAgain, ensured, Int.lt_irrefl, ↓reduceIte, Printf.returns_of_le bound, nonneg,
      Int.toNat_natCast, fits]
    exact ⟨_, _, _, rfl, advanced.1, fun refused => kept.trans refused,
      fun _ => ⟨error', advanced.2.trans (by rw [content'])⟩⟩
  · simp only [appendAgain, failed]
    refine ⟨_, _, _, rfl, ⟨valid.block, used, valid.object⟩, fun _ => refused, fun granted => ?_⟩
    rw [refused] at granted
    contradiction

/-- One append: it never aborts, and without a refusal it extends the used bytes by what it keeps
of its text. -/
theorem append_spec {b : StringBuffer} (valid : b.Valid) (r : Requests) {format : p.Format}
    {args : p.Args} (bound : (p.text format args).length ≤ intMax) :
    ∃ code r' b', append m r b format args args = some (code, r', b') ∧
      b'.Valid ∧ (r.refused = true → r'.refused = true) ∧
      (r'.refused = false → b'.error = b.error ∧
        b'.content = b.content ++ b.kept (p.text format args)) := by
  have used := valid.used
  have room : 64 ≤ b.grown 64 - b.length := by
    unfold grown
    split_ifs <;> omega
  rcases firstRoom_cases (m := m) valid r with
    ⟨r', first, ensured, kept, valid', content', length', error', allocated'⟩ | ⟨r', failed, refused⟩
  · have nonneg : ¬ ((p.text format args).length : ℤ) < 0 := by omega
    simp only [append, ensured, Int.lt_irrefl, ↓reduceIte, Printf.returns_of_le bound, nonneg,
      Int.toNat_natCast]
    have exactly : first.allocated - first.length = b.grown 64 - b.length := by
      rw [allocated', length']
    split_ifs with fits
    · have small : (p.text format args).length ≤ b.grown 64 - b.length := exactly ▸ fits
      have advanced := valid'.advance exactly (by omega) small
      exact ⟨_, _, _, rfl, advanced.1, fun refused => kept.trans refused,
        fun _ => ⟨error', advanced.2.trans (by rw [content', kept_of_first small])⟩⟩
    · obtain ⟨validPrinted, contentPrinted⟩ := valid'.printed format args
      obtain ⟨code, last, b', again, final, mono, result⟩ := appendAgain_spec (m := m) validPrinted
        r' bound (Nat.lt_of_not_le fits)
      refine ⟨code, last, b', again, final, fun refused => mono (kept.trans refused), fun granted => ?_⟩
      obtain ⟨finalError, finalContent⟩ := result granted
      have more : b.grown 64 - b.length < (p.text format args).length := by
        rw [← exactly]
        exact Nat.lt_of_not_le fits
      refine ⟨finalError.trans error', finalContent.trans ?_⟩
      rw [kept_of_second more, contentPrinted, content', ← allocated', ← length']
      rfl
  · simp only [append, failed]
    refine ⟨_, _, _, rfl, ⟨valid.block, used, valid.object⟩, fun _ => refused, fun granted => ?_⟩
    rw [refused] at granted
    contradiction

/-- Both append functions behave like one append of the text. -/
theorem Call.run_spec {b : StringBuffer} (valid : b.Valid) (r : Requests) (call : Call p)
    (bound : call.text.length ≤ intMax) :
    ∃ code r' b', call.run m (r, b) = some (code, r', b') ∧
      b'.Valid ∧ (r.refused = true → r'.refused = true) ∧
      (r'.refused = false → b'.error = b.error ∧ b'.content = b.content ++ b.kept call.text) := by
  cases call with
  | appendf format args => exact append_spec valid r bound
  | appendvf format args => exact append_spec valid r bound

/-- `sb_dupfree` returns the used bytes and a NUL. -/
theorem sbDupfree_spec {b : StringBuffer} (valid : b.Valid) (r : Requests) :
    (r.refused = true → (sbDupfree m r b).2.refused = true) ∧
      ((sbDupfree m r b).2.refused = false → b.error = false →
        (sbDupfree m r b).1 = some (b.content ++ [0])) := by
  cases clear : b.error with
  | true => simp [sbDupfree, clear]
  | false =>
  have one : 1 ≤ intMax := by decide
  rcases sbEnsureMoreBytes_cases (m := m) valid r one with
    ⟨r', larger, ensured, kept, valid', content', length', -, allocated'⟩ | ⟨r', failed, refused⟩
  · have used := valid'.used
    have block := valid'.block
    have room : larger.length + 1 ≤ larger.allocated := by
      rw [length', allocated']
      unfold grown
      split_ifs <;> omega
    -- The terminated string, wherever it is stored.
    have string : (overwrite larger.data larger.length [0]).take (larger.length + 1) =
        b.content ++ [0] := by
      rw [take_overwrite _ (by omega) 1 (Nat.le_refl _), ← content']
      rfl
    have whole : (overwrite larger.data larger.length [0]).length = larger.allocated := by
      rw [length_overwrite (by simpa [block] using room), block]
    simp only [sbDupfree, clear, ensured, Int.lt_irrefl, Bool.false_eq_true, ↓reduceIte]
    split_ifs with space smaller
    · rcases Malloc.malloc_cases (m := m) r' (larger.length + 1) with ⟨copy, granted, length, -⟩ | refused
      · rw [granted]
        refine ⟨fun refused => kept.trans refused, fun _ _ => ?_⟩
        have exactly : ((overwrite larger.data larger.length [0]).take (larger.length + 1)).length =
            copy.length := by
          rw [List.length_take, whole, length]
          omega
        rw [string] at exactly
        simp only [string, overwrite_whole exactly]
      · simp [refused]
    · rcases Malloc.realloc_cases (m := m) r' (overwrite larger.data larger.length [0])
        (larger.length + 1) with ⟨copy, granted, length, -, keeps⟩ | refused
      · rw [granted]
        refine ⟨fun refused => kept.trans refused, fun _ _ => ?_⟩
        have same := keeps (larger.length + 1) (by omega) (Nat.le_refl _)
        rw [List.take_of_length_le (by omega), string] at same
        rw [same]
      · simp [refused]
    · refine ⟨fun refused => kept.trans refused, fun _ _ => ?_⟩
      rw [List.take_of_length_le (by omega)] at string
      rw [string]
  · simp [sbDupfree, clear, failed, refused]

/-- In every append of the run, a text that lines up with its room already ends in a NUL. -/
def LosesNothing (m : Malloc) (state : Requests × StringBuffer) (calls : List (Call p)) : Prop :=
  ∀ before call after, calls = before ++ call :: after →
    ∀ r b, appendAll m state before = some (r, b) → b.LinesUp call.text.length →
      call.text.getLast? = some 0

private theorem appendAll_cons {state next : Requests × StringBuffer} {code : ℤ} {call : Call p}
    (run : call.run m state = some (code, next)) (calls : List (Call p)) :
    appendAll m state (call :: calls) = appendAll m next calls := by
  simp only [appendAll, List.foldlM_cons, run, Option.map_some, Option.bind_eq_bind, Option.bind_some]

private theorem losesNothing_cons {state next : Requests × StringBuffer} {code : ℤ} {call : Call p}
    {calls : List (Call p)} (run : call.run m state = some (code, next)) :
    LosesNothing m state (call :: calls) ↔
      (state.2.LinesUp call.text.length → call.text.getLast? = some 0) ∧
        LosesNothing m next calls := by
  constructor
  · intro keeps
    refine ⟨keeps [] call calls rfl state.1 state.2 rfl, ?_⟩
    intro before other after split r b reached
    rw [← appendAll_cons run] at reached
    exact keeps (call :: before) other after (by rw [split]; rfl) r b reached
  · rintro ⟨head, tail⟩ before other after split r b reached
    cases before with
    | nil =>
      obtain ⟨rfl, rfl⟩ := List.cons.inj split
      cases reached
      exact head
    | cons first before =>
      obtain ⟨rfl, rfl⟩ := List.cons.inj split
      rw [appendAll_cons run] at reached
      exact tail before other after rfl r b reached

/-- Every attempt has at least 64 bytes of room. -/
theorem LinesUp.large {b : StringBuffer} (valid : b.Valid) {length : ℕ} (lines : b.LinesUp length) :
    64 ≤ length := by
  have used := valid.used
  have room : 64 ≤ b.grown 64 - b.length := by
    unfold grown
    split_ifs <;> omega
  rcases lines with same | ⟨more, _⟩ <;> omega

private theorem length_kept {b : StringBuffer} (valid : b.Valid) (text : List UInt8) :
    (b.kept text).length = text.length := by
  unfold kept
  split_ifs with lines
  · have large := lines.large valid
    simp only [List.length_append, List.length_dropLast, List.length_singleton]
    omega
  · rfl

private theorem kept_eq_iff {b : StringBuffer} (valid : b.Valid) (text : List UInt8) :
    b.kept text = text ↔ (b.LinesUp text.length → text.getLast? = some 0) := by
  unfold kept
  split_ifs with lines
  · have large := lines.large valid
    have nonempty : text ≠ [] := by
      rintro rfl
      simp at large
    have split := List.dropLast_append_getLast nonempty
    rw [List.getLast?_eq_some_getLast nonempty]
    constructor
    · intro same _
      have last := List.append_cancel_left (same.trans split.symm)
      rw [List.cons.inj last |>.1]
    · intro last
      rw [← Option.some.inj (last lines)]
      exact split
  · exact ⟨fun _ lines' => absurd lines' lines, fun _ => rfl⟩

/-- A run of appends never aborts. Without a refusal it keeps what the buffer held, and it extends
it by exactly the texts when it loses nothing, and only then. -/
theorem appendAll_spec {b : StringBuffer} (valid : b.Valid) (r : Requests) (calls : List (Call p))
    (bound : ∀ call ∈ calls, call.text.length ≤ intMax) :
    ∃ r' b', appendAll m (r, b) calls = some (r', b') ∧ b'.Valid ∧
      (r.refused = true → r'.refused = true) ∧
      (r'.refused = false → b'.error = b.error ∧ b.content <+: b'.content ∧
        (b'.content = b.content ++ calls.flatMap Call.text ↔ LosesNothing m (r, b) calls)) := by
  induction calls generalizing r b with
  | nil =>
    refine ⟨r, b, rfl, valid, id, fun _ => ⟨rfl, List.prefix_refl _, ?_⟩⟩
    simp only [List.flatMap_nil, List.append_nil, true_iff]
    intro before call after split
    simp at split
  | cons call calls ih =>
    obtain ⟨code, r₁, b₁, run, valid₁, mono₁, result₁⟩ :=
      call.run_spec (m := m) valid r (bound call (List.mem_cons_self ..))
    obtain ⟨r', b', all, valid', mono, result⟩ :=
      ih valid₁ r₁ (fun other member => bound other (List.mem_cons_of_mem _ member))
    refine ⟨r', b', (appendAll_cons run calls).trans all, valid', fun refused => mono (mono₁ refused), ?_⟩
    intro granted
    obtain ⟨error, extends_, exactly⟩ := result granted
    obtain ⟨error₁, content₁⟩ := result₁ (Bool.eq_false_iff.mpr (fun refused =>
      absurd (mono refused) (by rw [granted]; decide)))
    refine ⟨error.trans error₁, ?_, ?_⟩
    · exact (content₁ ▸ List.prefix_append _ _).trans extends_
    · rw [losesNothing_cons run, ← kept_eq_iff valid, ← exactly, List.flatMap_cons]
      constructor
      · -- The used bytes after this append are as long as those with the whole text.
        intro final
        rw [content₁, final, ← List.append_assoc] at extends_
        have same : b.content ++ b.kept call.text = b.content ++ call.text := by
          refine List.IsPrefix.eq_of_length_le ?_ ?_
          · apply List.prefix_of_prefix_length_le extends_ (List.prefix_append _ _)
            simp only [List.length_append, length_kept valid, Nat.le_refl]
          · simp only [List.length_append, length_kept valid, Nat.le_refl]
        exact ⟨List.append_cancel_left same, by rw [content₁, same, final, List.append_assoc]⟩
      · rintro ⟨same, final⟩
        rw [final, content₁, same, List.append_assoc]

/-- A new buffer, the appends in turn, and `sb_dupfree`. -/
def build (m : Malloc) (space : Vector UInt8 1024) (calls : List (Call p)) :
    Option (Option (List UInt8) × Requests) :=
  (appendAll m (.none, sbInit space) calls).map fun state => sbDupfree m state.1 state.2

/-- The result is the used bytes and a NUL, and these are the texts exactly when nothing is lost. -/
theorem build_spec (space : Vector UInt8 1024) (calls : List (Call p))
    (bound : ∀ call ∈ calls, call.text.length ≤ intMax) :
    ∃ string r, build m space calls = some (string, r) ∧
      (r.refused = false → ∃ used, string = some (used ++ [0]) ∧
        (used = calls.flatMap Call.text ↔ LosesNothing m (.none, sbInit space) calls)) := by
  obtain ⟨r, b, all, valid, -, result⟩ :=
    appendAll_spec (m := m) (valid_sbInit space) .none calls bound
  obtain ⟨mono, string⟩ := sbDupfree_spec (m := m) valid r
  refine ⟨(sbDupfree m r b).1, (sbDupfree m r b).2, by rw [build, all]; rfl, fun granted => ?_⟩
  have earlier : r.refused = false := Bool.eq_false_iff.mpr fun refused =>
    absurd (mono refused) (by rw [granted]; decide)
  obtain ⟨error, -, exactly⟩ := result earlier
  rw [content_sbInit, List.nil_append] at exactly
  exact ⟨b.content, string granted error, exactly⟩

/-- The string that `sb_dupfree` returns is the concatenation of the formatted texts exactly when
no text that lines up with the room of its attempt ends in another byte than NUL. -/
theorem build_eq_concatenation_iff (m : Malloc) (space : Vector UInt8 1024) (calls : List (Call p))
    (bound : ∀ call ∈ calls, call.text.length ≤ intMax) :
    ∃ string r, build m space calls = some (string, r) ∧
      (r.refused = false → (string = some (calls.flatMap Call.text ++ [0]) ↔
        LosesNothing m (.none, sbInit space) calls)) := by
  obtain ⟨string, r, built, result⟩ := build_spec (m := m) space calls bound
  refine ⟨string, r, built, fun granted => ?_⟩
  obtain ⟨used, rfl, exactly⟩ := result granted
  rw [← exactly, Option.some.injEq]
  exact ⟨List.append_cancel_right, fun same => by rw [same]⟩

/-- `sb_appendf (&buffer, "%s", text)` -/
def appendString (text : List UInt8) : Call Printf.string := .appendf () [text]

/-- Two short texts are concatenated. -/
theorem build_short_texts :
    ∃ string r, build Malloc.generous (Vector.replicate 1024 0)
        [appendString [97, 98], appendString [99]] = some (string, r) ∧
      (r.refused = false → (string = some ([97, 98, 99] ++ [0]) ↔
        LosesNothing Malloc.generous (.none, sbInit (Vector.replicate 1024 0))
          [appendString [97, 98], appendString [99]])) :=
  build_eq_concatenation_iff Malloc.generous _ _ (by decide)

/-- A text of 1024 bytes in a new buffer: `ret` equals the room, the text is taken as stored whole,
and its last byte is the NUL that `vsnprintf` put there. -/
theorem build_loses_byte :
    ∃ string r, build Malloc.generous (Vector.replicate 1024 0) [appendString (List.replicate 1024 97)] =
        some (string, r) ∧ r.refused = false ∧
      string ≠ some ([appendString (List.replicate 1024 97)].flatMap Call.text ++ [0]) := by
  have run : build Malloc.generous (Vector.replicate 1024 0) [appendString (List.replicate 1024 97)] =
      some (some (List.replicate 1023 97 ++ [0] ++ [0]), ⟨2, false⟩) := by decide +kernel
  exact ⟨_, _, run, rfl, by decide +kernel⟩

end Yalibct.StringBuffer

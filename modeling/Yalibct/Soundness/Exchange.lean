import Yalibct.Machine.Bytes
import Yalibct.Machine.Lockstep
import Yalibct.Model.Getopt

/-! # The loop of `exchange`

Each round puts the shorter of two adjacent segments in its place, at the far end of the longer one. What is
left of the longer one is again two adjacent segments, in the wrong order.
-/

namespace Yalibct.Getopt

open Machine

variable {α : Type}

/-- The variables of the loop. -/
structure Segments (α : Type) where
  argv : List α
  bottom : ℕ
  middle : ℕ
  top : ℕ
deriving DecidableEq

namespace Segments

/-- One round, unless the condition of the loop fails. -/
def round (s : Segments α) : Option (Unit × Segments α) :=
  if s.middle < s.top ∧ s.bottom < s.middle then
    if s.middle - s.bottom < s.top - s.middle then
      let len := s.middle - s.bottom
      some ((), { s with
        argv := swapBlocks s.argv s.bottom (s.top - (s.middle - s.bottom)) len
        top := s.top - len })
    else
      let len := s.top - s.middle
      some ((), { s with
        argv := swapBlocks s.argv s.bottom s.middle len
        bottom := s.bottom + len })
  else none

/-- Two adjacent segments, with what is before and after them. -/
def lay (before bottom top after : List α) : Segments α where
  argv := before ++ bottom ++ top ++ after
  bottom := before.length
  middle := before.length + bottom.length
  top := before.length + bottom.length + top.length

variable {before bottom top after first last : List α}

theorem round_bottom_nil : (lay before [] top after).round = none :=
  if_neg fun both => Nat.lt_irrefl before.length both.2

theorem round_top_nil : (lay before bottom [] after).round = none :=
  if_neg fun both => Nat.lt_irrefl (before.length + bottom.length) both.1

/-- The bottom segment changes places with as long a part of the top segment, its last one. -/
theorem round_bottom (some : bottom ≠ []) (more : first ≠ []) (same : bottom.length = last.length) :
    (lay before bottom (first ++ last) after).round = Option.some ((), lay before last first (bottom ++ after)) := by
  have some := List.length_pos_iff.mpr some
  have more := List.length_pos_iff.mpr more
  have swapped := swapBlocks_append same before first after
  have length : before.length + bottom.length - before.length = bottom.length := Nat.add_sub_cancel_left ..
  have from_ : before.length + bottom.length + (first.length + last.length) - bottom.length =
      before.length + bottom.length + first.length := by omega
  have running : before.length + bottom.length < before.length + bottom.length + (first.length + last.length) ∧
      before.length < before.length + bottom.length := by omega
  have shorter : bottom.length < before.length + bottom.length + (first.length + last.length) -
      (before.length + bottom.length) := by omega
  simp only [round, lay, List.length_append, length, from_, if_pos running, if_pos shorter,
    ← List.append_assoc] at swapped ⊢
  rw [swapped, same]

/-- The top segment changes places with as long a part of the bottom segment, its first one. -/
theorem round_top (some : top ≠ []) (same : first.length = top.length) :
    (lay before (first ++ last) top after).round = Option.some ((), lay (before ++ top) last first after) := by
  have some := List.length_pos_iff.mpr some
  have swapped := swapBlocks_append same before last after
  have length : before.length + (first.length + last.length) + top.length -
      (before.length + (first.length + last.length)) = first.length := by omega
  have middle : before.length + (first.length + last.length) = before.length + first.length + last.length :=
    (Nat.add_assoc ..).symm
  have running : before.length + (first.length + last.length) <
      before.length + (first.length + last.length) + top.length ∧
      before.length < before.length + (first.length + last.length) := by omega
  have longer : ¬ before.length + (first.length + last.length) - before.length < first.length := by omega
  simp only [round, lay, List.length_append, length, if_pos running, if_neg longer]
  simp only [middle, ← List.append_assoc] at swapped ⊢
  rw [swapped, same]

/-- The rounds end, after at most one for each element, and leave the two segments exchanged. -/
theorem exhausts_lay (before bottom top after : List α) :
    ∃ rounds last, Exhausts round (lay before bottom top after) rounds last ∧
      last.argv = before ++ top ++ bottom ++ after ∧ rounds.length ≤ bottom.length + top.length := by
  induction measured : bottom.length + top.length using Nat.strongRecOn generalizing before bottom top after with
  | ind n ih =>
    subst measured
    by_cases noBottom : bottom = []
    · subst noBottom
      exact ⟨[], _, .done round_bottom_nil, by simp [lay], Nat.zero_le _⟩
    by_cases noTop : top = []
    · subst noTop
      exact ⟨[], _, .done round_top_nil, by simp [lay], Nat.zero_le _⟩
    have some := List.length_pos_iff.mpr noBottom
    have more := List.length_pos_iff.mpr noTop
    rcases Nat.lt_or_ge bottom.length top.length with short | long
    · obtain ⟨first, last, rfl, length⟩ : ∃ first last, top = first ++ last ∧ bottom.length = last.length :=
        ⟨top.take (top.length - bottom.length), top.drop (top.length - bottom.length),
          (List.take_append_drop _ _).symm, by rw [List.length_drop]; omega⟩
      rw [List.length_append] at short ih ⊢
      have left : first ≠ [] := List.length_pos_iff.mp (by omega)
      obtain ⟨rounds, final, rest, argv, bound⟩ := ih (last.length + first.length) (by omega) before last first
        (bottom ++ after) rfl
      refine ⟨() :: rounds, final, .more (round_bottom noBottom left length) rest, ?_, ?_⟩
      · rw [argv]
        simp only [List.append_assoc]
      · rw [List.length_cons]
        omega
    · obtain ⟨first, last, rfl, length⟩ : ∃ first last, bottom = first ++ last ∧ first.length = top.length :=
        ⟨bottom.take top.length, bottom.drop top.length, (List.take_append_drop _ _).symm,
          by rw [List.length_take]; omega⟩
      rw [List.length_append] at long ih ⊢
      obtain ⟨rounds, final, rest, argv, bound⟩ := ih (last.length + first.length) (by omega) (before ++ top) last
        first after rfl
      refine ⟨() :: rounds, final, .more (round_top noTop length) rest, ?_, ?_⟩
      · rw [argv]
        simp only [List.append_assoc]
      · rw [List.length_cons]
        omega

end Segments

/-! ## The function -/

/-- The loop makes its rounds as long as there is one to make. -/
theorem exchangeLoop_of_exhausts {s last : Segments Text} {rounds : List Unit} {fuel : ℕ}
    (exhausts : Exhausts Segments.round s rounds last) (enough : rounds.length ≤ fuel) :
    exchangeLoop s.argv fuel s.bottom s.middle s.top = last.argv := by
  induction exhausts generalizing fuel with
  | @done s ended =>
    cases fuel with
    | zero => rfl
    | succ fuel =>
      rw [exchangeLoop]
      unfold Segments.round at ended
      split_ifs at ended with both
      rw [if_neg both]
  | @more s mid last e rounds first rest ih =>
    obtain ⟨fuel, rfl⟩ : ∃ n, fuel = n + 1 := ⟨fuel - 1, by rw [List.length_cons] at enough; omega⟩
    have rest : exchangeLoop mid.argv fuel mid.bottom mid.middle mid.top = last.argv :=
      ih (Nat.le_of_succ_le_succ enough)
    rw [exchangeLoop]
    unfold Segments.round at first
    split_ifs at first with both short
    · cases first
      rw [if_pos both, if_pos short]
      exact rest
    · cases first
      rw [if_pos both, if_neg short]
      exact rest

theorem exchangeLoop_spec (fuel : ℕ) (before bottom top after : List Text)
    (enough : bottom.length + top.length ≤ fuel) :
    exchangeLoop (before ++ bottom ++ top ++ after) fuel before.length (before.length + bottom.length)
        (before.length + bottom.length + top.length) = before ++ top ++ bottom ++ after := by
  obtain ⟨rounds, last, exhausts, argv, bound⟩ := Segments.exhausts_lay before bottom top after
  rw [← argv]
  exact exchangeLoop_of_exhausts exhausts (Nat.le_trans bound enough)

/-- The elements from a place to another one. -/
def slice (argv : List α) (start stop : ℕ) : List α := (argv.take stop).drop start

private theorem slice_append (before middle after : List α) :
    slice (before ++ middle ++ after) before.length (before.length + middle.length) = middle := by
  have length : before.length + middle.length = (before ++ middle).length := List.length_append.symm
  rw [slice, length, List.take_left, List.drop_left]

variable (before low high after : List α)

/-- The first of two segments. -/
theorem slice_low : slice (before ++ low ++ high ++ after) before.length (before.length + low.length) = low := by
  rw [List.append_assoc _ high]
  exact slice_append before low (high ++ after)

/-- The second of two segments. -/
theorem slice_high : slice (before ++ low ++ high ++ after) (before.length + low.length)
    (before.length + low.length + high.length) = high := by
  rw [← List.length_append]
  exact slice_append (before ++ low) high after

/-- Both segments. -/
theorem slice_both : slice (before ++ low ++ high ++ after) before.length
    (before.length + low.length + high.length) = low ++ high := by
  rw [Nat.add_assoc, ← List.length_append, List.append_assoc before]
  exact slice_append before (low ++ high) after

/-- Two adjacent segments inside a list are segments of it with something before and after them. -/
theorem exists_lay {argv : List α} {bottom middle top : ℕ} (lower : bottom ≤ middle) (upper : middle ≤ top)
    (inside : top ≤ argv.length) : ∃ before low high after, argv = before ++ low ++ high ++ after ∧
      bottom = before.length ∧ middle = before.length + low.length ∧
      top = before.length + low.length + high.length := by
  obtain ⟨before, both, after, rfl, first, length⟩ : ∃ before both after, argv = before ++ both ++ after ∧
      before.length = bottom ∧ both.length = top - bottom := exists_run (by omega)
  obtain ⟨nothing, low, high, rfl, empty, short⟩ : ∃ nothing low high, both = nothing ++ low ++ high ∧
      nothing.length = 0 ∧ low.length = middle - bottom := exists_run (by omega)
  cases List.eq_nil_of_length_eq_zero empty
  rw [List.nil_append] at length ⊢
  rw [List.length_append] at length
  exact ⟨before, low, high, after, by rw [List.append_assoc before low], first.symm, by omega, by omega⟩

/-- `exchange` ends, with the options before the non-options, each in their order, and the rest of the arguments
in its place. The record then describes where the non-options are: behind as many options as were moved, up to
`optind`. -/
theorem exchange_moves (argv : List Text) (d : Data) (lower : d.firstNonopt ≤ d.lastNonopt)
    (upper : d.lastNonopt ≤ d.optind) (inside : d.optind ≤ argv.length) :
    (∃ rounds last, Exhausts Segments.round ⟨argv, d.firstNonopt, d.lastNonopt, d.optind⟩ rounds last ∧
      last.argv = (exchange argv d).1) ∧
    slice (exchange argv d).1 d.firstNonopt d.optind =
      slice argv d.lastNonopt d.optind ++ slice argv d.firstNonopt d.lastNonopt ∧
    (exchange argv d).1.length = argv.length ∧
    (∀ i, i < d.firstNonopt ∨ d.optind ≤ i → (exchange argv d).1[i]? = argv[i]?) ∧
    slice (exchange argv d).1 (exchange argv d).2.firstNonopt (exchange argv d).2.lastNonopt =
      slice argv d.firstNonopt d.lastNonopt ∧
    (exchange argv d).2 = { d with
      firstNonopt := d.firstNonopt + (d.optind - d.lastNonopt)
      lastNonopt := d.optind } := by
  obtain ⟨before, bottom, top, after, rfl, first, middle, last⟩ := exists_lay lower upper inside
  obtain ⟨rounds, final, exhausts, ended, bound⟩ := Segments.exhausts_lay before bottom top after
  have moved : (exchange (before ++ bottom ++ top ++ after) d).1 = before ++ top ++ bottom ++ after := by
    rw [exchange, first, middle, last]
    exact exchangeLoop_spec _ before bottom top after (by omega)
  have oldFirst : slice (before ++ bottom ++ top ++ after) d.firstNonopt d.lastNonopt = bottom := by
    rw [first, middle]
    exact slice_low before bottom top after
  have oldLast : slice (before ++ bottom ++ top ++ after) d.lastNonopt d.optind = top := by
    rw [middle, last]
    exact slice_high before bottom top after
  rw [moved, oldFirst, oldLast]
  refine ⟨⟨rounds, final, ?_, ended⟩, ?_, ?_, ?_, ?_, rfl⟩
  · rw [first, middle, last]
    exact exhausts
  · rw [first, last, Nat.add_right_comm]
    exact slice_both before top bottom after
  · simp only [List.length_append]
    omega
  · rintro i (early | late)
    · rw [first] at early
      simp only [List.append_assoc, List.getElem?_append_left early]
    · rw [last] at late
      rw [List.getElem?_append_right (by simp only [List.length_append]; omega),
        List.getElem?_append_right (by simp only [List.length_append]; omega)]
      congr 1
      simp only [List.length_append]
      omega
  · have start : (exchange (before ++ bottom ++ top ++ after) d).2.firstNonopt = before.length + top.length := by
      change d.firstNonopt + (d.optind - d.lastNonopt) = _
      omega
    have stop : (exchange (before ++ bottom ++ top ++ after) d).2.lastNonopt =
        before.length + top.length + bottom.length := by
      change d.optind = _
      omega
    rw [start, stop]
    exact slice_high before top bottom after

/-- Two file names and an option behind the program name, and one more argument that was not looked at. -/
def twoNames : List Text := [[112], [97], [98], [45, 120], [99]]

def afterOption : Data where
  optind := 4
  optopt := questionMark
  optarg := none
  initialized := true
  nextchar := none
  ordering := .permute
  firstNonopt := 1
  lastNonopt := 3

theorem exchange_moves_twoNames :
    slice (exchange twoNames afterOption).1 1 4 = [[45, 120], [97], [98]] ∧
      slice (exchange twoNames afterOption).1 (exchange twoNames afterOption).2.firstNonopt
        (exchange twoNames afterOption).2.lastNonopt = [[97], [98]] := by
  obtain ⟨-, moved, -, -, described, -⟩ :=
    exchange_moves twoNames afterOption (by decide) (by decide) (by decide)
  exact ⟨moved, described⟩

end Yalibct.Getopt

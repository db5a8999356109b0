import Mathlib.Tactic.SplitIfs
import Yalibct.Machine.Run
import Yalibct.Model.CycleCheck

/-! # What lazy cycle detection detects

A sequence of directories that repeats itself is noticed after a number of calls that is linear in
its tail and its period. A walk in a tree never raises a false alarm: the recorded directory is
always the current one or above it.
-/

namespace Yalibct.CycleCheck

open Machine

@[simp] theorem sameInode_iff {a b : DevIno} : sameInode a b = true ↔ a = b := by
  obtain ⟨dev, ino⟩ := a
  obtain ⟨dev', ino'⟩ := b
  simp [sameInode, and_comm]

private theorem isZeroOrPowerOfTwo_iff {i : ℕ} (nonzero : i ≠ 0) :
    isZeroOrPowerOfTwo i = true ↔ ∃ k, i = 2 ^ k := by
  rw [isZeroOrPowerOfTwo, beq_iff_eq, Nat.and_sub_one_eq_zero_iff_isPowerOfTwo nonzero]
  rfl

/-- What is recorded after a call that counts a descent. -/
def Records (state : CycleCheckState) (sb devIno : DevIno) : Prop :=
  (∃ k, state.chdirCounter + 1 = 2 ^ k) ∧ devIno = sb ∨
    (∀ k, state.chdirCounter + 1 ≠ 2 ^ k) ∧ devIno = state.devIno

/-- A call alarms, at the recorded directory or when the counter overflows, or it counts the descent. -/
theorem cycleCheck_cases {state : CycleCheckState} (sb : DevIno) (magic : state.magic = ccMagic)
    (bound : state.chdirCounter < 2 ^ 64) :
    ((∃ state', cycleCheck state sb = .ok (true, state')) ∧
      (state.chdirCounter ≠ 0 ∧ sb = state.devIno ∨ state.chdirCounter + 1 = 2 ^ 64)) ∨
    (¬ (state.chdirCounter ≠ 0 ∧ sb = state.devIno) ∧ state.chdirCounter + 1 < 2 ^ 64 ∧
      ∃ devIno, cycleCheck state sb = .ok (false, ⟨devIno, state.chdirCounter + 1, ccMagic⟩) ∧
        Records state sb devIno) := by
  simp only [cycleCheck, magic, ne_eq, not_true_eq_false, ↓reduceIte, sameInode_iff]
  by_cases found : ¬ state.chdirCounter = 0 ∧ sb = state.devIno
  · rw [if_pos found]
    exact .inl ⟨⟨_, rfl⟩, .inl found⟩
  rw [if_neg found]
  by_cases overflow : state.chdirCounter + 1 = 2 ^ 64
  · simp only [overflow]
    exact .inl ⟨⟨_, rfl⟩, .inr trivial⟩
  have counted : (state.chdirCounter + 1) % 2 ^ 64 = state.chdirCounter + 1 :=
    Nat.mod_eq_of_lt (by omega)
  have power_iff := isZeroOrPowerOfTwo_iff (Nat.succ_ne_zero state.chdirCounter)
  rw [Nat.succ_eq_add_one, ← counted] at power_iff
  refine .inr ⟨found, by omega, ?_⟩
  by_cases power : isZeroOrPowerOfTwo ((state.chdirCounter + 1) % 2 ^ 64) = true
  · rw [if_pos power, counted, if_neg (Nat.succ_ne_zero _)]
    exact ⟨sb, rfl, .inl ⟨counted ▸ power_iff.mp power, rfl⟩⟩
  · rw [if_neg power, counted]
    exact ⟨state.devIno, rfl, .inr ⟨fun k equal => power (power_iff.mpr ⟨k, counted.trans equal⟩), rfl⟩⟩

/-! ## Completeness -/

/-- The state after as many calls for a sequence of directories. -/
def after (state : CycleCheckState) (dirs : ℕ → DevIno) : ℕ → Except Fault CycleCheckState
  | 0 => .ok (cycleCheckInit state)
  | n + 1 => do
    let state ← after state dirs n
    let (_, state) ← cycleCheck state (dirs n)
    return state

/-- The call for the directory with this index alarms. -/
def Alarms (state : CycleCheckState) (dirs : ℕ → DevIno) (n : ℕ) : Prop :=
  ∃ before after', after state dirs n = .ok before ∧ cycleCheck before (dirs n) = .ok (true, after')

/-- While no call has alarmed, the directory recorded is that of the last power of two. -/
structure Quiet (dirs : ℕ → DevIno) (n : ℕ) (state : CycleCheckState) : Prop where
  magic : state.magic = ccMagic
  counter : state.chdirCounter = n
  bound : n < 2 ^ 64
  recorded : ∀ k, 2 ^ k ≤ n → n < 2 ^ (k + 1) → state.devIno = dirs (2 ^ k - 1)

variable {dirs : ℕ → DevIno} {state init : CycleCheckState} {n : ℕ}

theorem Quiet.step (quiet : Quiet dirs n state) :
    (∃ state', cycleCheck state (dirs n) = .ok (true, state')) ∨
    ∃ state', cycleCheck state (dirs n) = .ok (false, state') ∧ Quiet dirs (n + 1) state' := by
  have counter := quiet.counter
  rcases cycleCheck_cases (dirs n) quiet.magic (counter ▸ quiet.bound) with
    ⟨alarms, _⟩ | ⟨_, bound, devIno, counts, records⟩
  · exact .inl alarms
  refine .inr ⟨_, counts, rfl, by rw [counter], counter ▸ bound, ?_⟩
  rw [Records, counter] at records
  intro k lower upper
  rcases records with ⟨⟨j, power⟩, rfl⟩ | ⟨other, rfl⟩
  · -- The counter is a power of two, and no other lies in these bounds.
    have same : j = k := by
      rw [power] at lower upper
      have le := (Nat.pow_le_pow_iff_right (by omega)).mp lower
      have lt := (Nat.pow_lt_pow_iff_right (by omega)).mp upper
      omega
    rw [← same, ← power, Nat.add_sub_cancel]
  · have strict : 2 ^ k ≠ n + 1 := fun equal => other k equal.symm
    exact quiet.recorded k (by omega) (by omega)

/-- Some call has alarmed, or all were quiet. -/
theorem quiet_or_alarms (init : CycleCheckState) (dirs : ℕ → DevIno) (n : ℕ) :
    (∃ i < n, Alarms init dirs i) ∨ ∃ state, after init dirs n = .ok state ∧ Quiet dirs n state := by
  induction n with
  | zero =>
    refine .inr ⟨_, rfl, rfl, rfl, by omega, fun k lower _ => ?_⟩
    have positive := Nat.two_pow_pos k
    omega
  | succ n ih =>
    rcases ih with ⟨i, bound, alarms⟩ | ⟨state, reached, quiet⟩
    · exact .inl ⟨i, by omega, alarms⟩
    · rcases quiet.step with ⟨state', alarms⟩ | ⟨state', counts, quiet'⟩
      · exact .inl ⟨n, by omega, state, state', reached, alarms⟩
      · refine .inr ⟨state', ?_, quiet'⟩
        rw [after, reached]
        simp only [bind, Except.bind, counts]
        rfl

/-- A sequence with a tail and a period is noticed. -/
theorem alarms_of_periodic (init : CycleCheckState) {tail period : ℕ} (positive : 0 < period)
    (periodic : ∀ n, tail ≤ n → dirs (n + period) = dirs n) :
    ∃ n < 3 * (tail + period), Alarms init dirs n := by
  -- The first power of two that is above the tail and no less than the period.
  obtain ⟨k, lower, upper⟩ : ∃ k, tail + period ≤ 2 ^ k ∧ 2 ^ k ≤ 2 * (tail + period) := by
    refine ⟨Nat.log2 (tail + period) + 1, Nat.le_of_lt Nat.lt_log2_self, ?_⟩
    rw [Nat.pow_succ, Nat.mul_comm]
    exact Nat.mul_le_mul_left 2 (Nat.log2_self_le (by omega))
  have double : 2 ^ (k + 1) = 2 * 2 ^ k := by rw [Nat.pow_succ, Nat.mul_comm]
  rcases quiet_or_alarms init dirs (2 ^ k - 1 + period) with ⟨n, bound, alarms⟩ | ⟨state, reached, quiet⟩
  · exact ⟨n, by omega, alarms⟩
  refine ⟨2 ^ k - 1 + period, by omega, state, ?_⟩
  have recorded := quiet.recorded k (by omega) (by omega)
  rw [← periodic _ (by omega)] at recorded
  rcases cycleCheck_cases (dirs (2 ^ k - 1 + period)) quiet.magic (quiet.counter ▸ quiet.bound) with
    ⟨⟨state', alarms⟩, _⟩ | ⟨other, _⟩
  · exact ⟨state', reached, alarms⟩
  · exact absurd ⟨by rw [quiet.counter]; omega, recorded.symm⟩ other

/-! ## Soundness -/

/-- Directories with their parents; a root has none. -/
structure Tree where
  Node : Type
  parent : Node → Option Node
  devIno : Node → DevIno

namespace Tree

/-- A node is another one, or above it. -/
inductive Above (tree : Tree) (u : tree.Node) : tree.Node → Prop
  | self : Above tree u u
  | child {v w : tree.Node} (parent : tree.parent w = some v) (above : Above tree u v) : Above tree u w

/-- The directories on every path from a root are distinct. -/
def Distinct (tree : Tree) : Prop :=
  ∀ u v w, tree.parent w = some v → tree.Above u v → tree.devIno u ≠ tree.devIno w

inductive Move (tree : Tree) where
  | down (child : tree.Node)
  | up

structure Position (tree : Tree) where
  current : Option tree.Node
  state : CycleCheckState
  /-- What the last descent was answered. -/
  answer : Bool

/-- A descent goes from outside to a root, or to a child; an ascent goes to the parent. -/
inductive Step (tree : Tree) : tree.Position → tree.Move → tree.Position → Prop
  | down {w : tree.Node} {state state' : CycleCheckState} {answer answer' : Bool}
      (check : cycleCheck state (tree.devIno w) = .ok (answer', state')) :
      Step tree ⟨tree.parent w, state, answer⟩ (.down w) ⟨some w, state', answer'⟩
  | up {v w : tree.Node} {state state' : CycleCheckState} {answer : Bool}
      (parent : tree.parent w = some v)
      (reflect : reflectChdirUp state (tree.devIno v) (tree.devIno w) = .ok state') :
      Step tree ⟨some w, state, answer⟩ .up ⟨some v, state', false⟩

def walks (tree : Tree) : System := ⟨tree.Position, tree.Move, tree.Step⟩

/-- Outside, with a fresh state. -/
def outside (tree : Tree) (state : CycleCheckState) : tree.Position := ⟨none, cycleCheckInit state, false⟩

def descents {tree : Tree} : List tree.Move → ℕ
  | [] => 0
  | .down _ :: rest => descents rest + 1
  | .up :: rest => descents rest

theorem descents_append {tree : Tree} (left right : List tree.Move) :
    descents (left ++ right) = descents left + descents right := by
  induction left with
  | nil => exact (Nat.zero_add _).symm
  | cons move rest ih =>
    cases move with
    | down child => rw [List.cons_append, descents, descents, ih, Nat.add_right_comm]
    | up => rw [List.cons_append, descents, descents, ih]

/-- The state of a walk: nothing is counted outside, and inside the recorded directory is the current
one or above it. -/
structure Sound (tree : Tree) (past : List tree.Move) (p : tree.Position) : Prop where
  magic : p.state.magic = ccMagic
  counter : p.state.chdirCounter = descents past
  outside : p.current = none → past = []
  inside : ∀ w, p.current = some w →
    p.state.chdirCounter ≠ 0 ∧ ∃ u, tree.Above u w ∧ p.state.devIno = tree.devIno u
  answer : p.answer = false

variable {tree : Tree} {past : List tree.Move} {p q : tree.Position} {move : tree.Move}

theorem Sound.step (distinct : tree.Distinct) (sound : tree.Sound past p) (step : tree.Step p move q)
    (bound : descents (past ++ [move]) < 2 ^ 64) : tree.Sound (past ++ [move]) q := by
  rw [descents_append] at bound
  cases step with
  | @down w state state' answer answer' check =>
    have counter : state.chdirCounter = descents past := sound.counter
    have fewer : descents past + 1 < 2 ^ 64 := bound
    -- The directory is not one of those above it, so it is not the one that is recorded.
    have fresh : ¬ (state.chdirCounter ≠ 0 ∧ tree.devIno w = state.devIno) := by
      rintro ⟨entered, same⟩
      cases parent : tree.parent w with
      | none =>
        have first : past = [] := sound.outside parent
        rw [counter, first] at entered
        exact entered rfl
      | some v =>
        obtain ⟨_, u, above, recorded⟩ := sound.inside v parent
        exact distinct u v w parent above (recorded.symm.trans same.symm)
    rcases cycleCheck_cases (tree.devIno w) sound.magic (by rw [sound.counter]; omega) with
      ⟨_, found | overflow⟩ | ⟨_, _, devIno, counts, records⟩
    · exact absurd found fresh
    · dsimp only at overflow
      omega
    rw [counts] at check
    cases check
    refine ⟨rfl, ?_, nofun, ?_, rfl⟩
    · rw [descents_append, ← counter]
      rfl
    · rintro _ ⟨⟩
      refine ⟨Nat.succ_ne_zero _, ?_⟩
      rcases records with ⟨_, rfl⟩ | ⟨other, rfl⟩
      · exact ⟨w, .self, rfl⟩
      · cases parent : tree.parent w with
        | none =>
          -- The first descent is recorded.
          have first : past = [] := sound.outside parent
          refine absurd ?_ (other 0)
          dsimp only
          rw [counter, first]
          rfl
        | some v =>
          obtain ⟨_, u, above, recorded⟩ := sound.inside v parent
          exact ⟨u, .child parent above, recorded⟩
  | @up v w state state' answer parent reflect =>
    obtain ⟨entered, u, above, recorded⟩ := sound.inside w rfl
    have counter : state.chdirCounter = descents (past ++ [.up]) := by
      rw [descents_append]
      exact sound.counter
    dsimp only at entered recorded
    simp only [reflectChdirUp, entered, ↓reduceIte, sameInode_iff] at reflect
    split_ifs at reflect with left
    · cases reflect
      refine ⟨sound.magic, counter, nofun, ?_, rfl⟩
      rintro _ ⟨⟩
      exact ⟨entered, v, .self, rfl⟩
    · cases reflect
      refine ⟨sound.magic, counter, nofun, ?_, rfl⟩
      rintro _ ⟨⟩
      refine ⟨entered, u, ?_, recorded⟩
      cases above with
      | self => exact absurd recorded left
      | child parent' above' =>
        rw [parent] at parent'
        cases parent'
        exact above'

theorem Sound.run (distinct : tree.Distinct) {moves : List tree.Move} (walk : Run tree.walks p moves q)
    (sound : tree.Sound [] p) (bound : descents moves < 2 ^ 64) : tree.Sound moves q := by
  refine walk.history (fun past p => descents past < 2 ^ 64 → tree.Sound past p) ?_ (fun _ => sound) bound
  intro past p move q kept step bound
  have split : descents (past ++ [move]) = descents past + descents [move] := descents_append past [move]
  exact (kept (by omega)).step distinct step bound

end Tree

/-- A sequence that repeats itself is noticed in time. In a tree whose paths have distinct directories
no descent alarms, and the recorded directory is the current one or above it. -/
theorem detects_cycles_only :
    (∀ (init : CycleCheckState) (dirs : ℕ → DevIno) (tail period : ℕ), 0 < period →
      (∀ n, tail ≤ n → dirs (n + period) = dirs n) →
      ∃ n < 3 * (tail + period), Alarms init dirs n) ∧
    ∀ (tree : Tree) (init : CycleCheckState) (moves : List tree.Move) (p : tree.Position),
      tree.Distinct → Run tree.walks (tree.outside init) moves p → Tree.descents moves < 2 ^ 64 →
      p.answer = false ∧
      ∀ w, p.current = some w → ∃ u, tree.Above u w ∧ p.state.devIno = tree.devIno u := by
  refine ⟨fun init dirs tail period positive periodic => alarms_of_periodic init positive periodic, ?_⟩
  intro tree init moves p distinct walk bound
  have start : tree.Sound [] (tree.outside init) := ⟨rfl, rfl, fun _ => rfl, nofun, rfl⟩
  have sound := start.run distinct walk bound
  exact ⟨sound.answer, fun w current => (sound.inside w current).2⟩

/-- A root with one directory in it. -/
def nested : Tree := ⟨Bool, fun inner => if inner then some false else none, fun inner => ⟨1, inner.toNat⟩⟩

private theorem nested_above {u v : nested.Node} (above : nested.Above u v) (root : v = false) : u = false := by
  cases above with
  | self => exact root
  | child parent _ =>
    subst root
    cases parent

private theorem nested_distinct : nested.Distinct := by
  intro u v w parent above
  cases w with
  | false => cases parent
  | true =>
    cases parent
    rw [nested_above above rfl]
    exact nofun

/-- The directory that repeats itself at once is noticed, and a walk down and up in a tree is quiet. -/
theorem nested_detects_cycles_only :
    (∃ n < 3, Alarms ⟨⟨0, 0⟩, 0, 0⟩ (fun _ => ⟨1, 1⟩) n) ∧
    ∃ p : nested.Position, Run nested.walks (nested.outside ⟨⟨0, 0⟩, 0, 0⟩) [.down false, .down true, .up] p ∧
      p.answer = false ∧ ∀ w, p.current = some w → ∃ u, nested.Above u w ∧ p.state.devIno = nested.devIno u := by
  obtain ⟨periodic, quiet⟩ := detects_cycles_only
  refine ⟨periodic _ _ 0 1 Nat.one_pos fun _ _ => rfl, ⟨some false, ⟨⟨1, 0⟩, 2, ccMagic⟩, false⟩, ?_⟩
  have root : nested.Step (nested.outside ⟨⟨0, 0⟩, 0, 0⟩) (.down false)
      ⟨some false, ⟨⟨1, 0⟩, 1, ccMagic⟩, false⟩ :=
    @Tree.Step.down nested false ⟨⟨0, 0⟩, 0, ccMagic⟩ _ false false rfl
  have inner : nested.Step ⟨some false, ⟨⟨1, 0⟩, 1, ccMagic⟩, false⟩ (.down true)
      ⟨some true, ⟨⟨1, 1⟩, 2, ccMagic⟩, false⟩ :=
    @Tree.Step.down nested true ⟨⟨1, 0⟩, 1, ccMagic⟩ _ false false rfl
  have back : nested.Step ⟨some true, ⟨⟨1, 1⟩, 2, ccMagic⟩, false⟩ .up
      ⟨some false, ⟨⟨1, 0⟩, 2, ccMagic⟩, false⟩ :=
    @Tree.Step.up nested false true ⟨⟨1, 1⟩, 2, ccMagic⟩ _ false rfl rfl
  have walk : Run nested.walks (nested.outside ⟨⟨0, 0⟩, 0, 0⟩) [.down false, .down true, .up]
      ⟨some false, ⟨⟨1, 0⟩, 2, ccMagic⟩, false⟩ := .step root (.step inner (.step back (.done _)))
  exact ⟨walk, quiet nested _ _ _ nested_distinct walk (by decide)⟩

end Yalibct.CycleCheck

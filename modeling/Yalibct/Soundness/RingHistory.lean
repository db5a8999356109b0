import Mathlib.Data.List.Nodup
import Mathlib.Data.List.Perm.Basic
import Yalibct.Machine.Run
import Yalibct.Soundness.Ring

/-! # What becomes of the values that are pushed

A value is known by the time of its push. At any time it is either in the ring, or it was handed back by one
pop, or by the one push that displaced it.
-/

namespace Yalibct.IRing

open Machine

inductive Op where
  | push (val : ℤ)
  | pop
deriving DecidableEq

/-- An operation with the value it returns. -/
abbrev Call := Op × ℤ

/-- Calls of `i_ring_push` and `i_ring_pop`, the latter on a ring that is not empty. -/
def ring : System where
  State := IRing
  Event := Call
  Step ir call ir' :=
    match call.1 with
    | .push val => ir.push val = (call.2, ir')
    | .pop => ir.pop = some (call.2, ir')

/-- A pushed value, and the time of its push. -/
abbrev Token := ℕ × ℤ

def token? : Call × ℕ → Option Token
  | ((.push val, _), time) => some (time, val)
  | ((.pop, _), _) => none

/-- All pushes of a history. -/
def pushes (calls : List Call) : List Token := calls.zipIdx.filterMap token?

variable {calls : List Call} {ir ir' : IRing} {d val old top : ℤ} {held : List Token} {handed : List (Token × ℕ)}

private theorem pushes_append_push :
    pushes (calls ++ [(.push val, old)]) = pushes calls ++ [(calls.length, val)] := by
  simp [pushes, List.zipIdx_append, token?]

private theorem pushes_append_pop : pushes (calls ++ [(.pop, top)]) = pushes calls := by
  simp [pushes, List.zipIdx_append, token?]

private theorem time_lt_of_mem_pushes {token : Token} (member : token ∈ pushes calls) : token.1 < calls.length := by
  obtain ⟨⟨⟨op, value⟩, time⟩, listed, tagged⟩ := List.mem_filterMap.mp member
  have bound := List.snd_lt_of_mem_zipIdx listed
  cases op with
  | push val =>
    cases tagged
    omega
  | pop => cases tagged

/-- The tokens in the ring, the latest first, and those that were handed back, with the time of that. -/
structure Account (d : ℤ) (calls : List Call) (ir : IRing) (held : List Token) (handed : List (Token × ℕ)) :
    Prop where
  holds : ir.Holds (held.map (·.2))
  unset : ir.irDefaultVal = d
  /-- Every push has its token in the ring, or handed back once. -/
  once : (held ++ handed.map (·.1)).Perm (pushes calls)
  latest : held.Pairwise fun a b => b.1 < a.1
  /-- The value was returned by a later call. -/
  back : ∀ h ∈ handed, h.1.1 < h.2 ∧ ∃ op, calls[h.2]? = some (op, h.1.2)
  /-- No call hands back two values. -/
  single : (handed.map (·.2)).Nodup
  pops : ∀ time value, calls[time]? = some (.pop, value) → time ∈ handed.map (·.2)
  /-- A push that displaces nothing returns the default. -/
  quiet : ∀ time val value, calls[time]? = some (.push val, value) → time ∉ handed.map (·.2) → value = d
  /-- What was displaced is older than what is in the ring. -/
  recent : ∀ h ∈ handed, (∃ val value, calls[h.2]? = some (.push val, value)) → ∀ token ∈ held, h.1.1 < token.1
  /-- A push displaces a value only when four are in the ring: so many more were pushed before it than handed back. -/
  full : ∀ h ∈ handed, (∃ val value, calls[h.2]? = some (.push val, value)) →
    (pushes calls).countP (·.1 < h.2) = handed.countP (·.2 < h.2) + 4

private theorem account_init (d : ℤ) : Account d [] (init d) [] [] where
  holds := holds_init d
  unset := rfl
  once := .nil
  latest := .nil
  back := nofun
  single := .nil
  pops := nofun
  quiet := nofun
  recent := nofun
  full := nofun

namespace Account

theorem time_lt (account : Account d calls ir held handed) {token : Token} (member : token ∈ held) :
    token.1 < calls.length :=
  time_lt_of_mem_pushes (account.once.subset (List.mem_append_left _ member))

theorem back_lt (account : Account d calls ir held handed) {h : Token × ℕ} (member : h ∈ handed) :
    h.2 < calls.length := by
  obtain ⟨-, op, answered⟩ := account.back h member
  exact (List.getElem?_eq_some_iff.mp answered).1

end Account

/-- A call is one of those so far, or the last one. -/
theorem call_append {call other : Call} {time : ℕ} :
    (calls ++ [call])[time]? = some other ↔ calls[time]? = some other ∨ time = calls.length ∧ other = call := by
  rcases Nat.lt_trichotomy time calls.length with before | rfl | behind
  · rw [List.getElem?_append_left before]
    constructor
    · exact .inl
    · rintro (earlier | ⟨here, -⟩)
      · exact earlier
      · omega
  · rw [List.getElem?_concat_length, List.getElem?_eq_none (Nat.le_refl _)]
    simp [eq_comm]
  · rw [List.getElem?_eq_none (by rw [List.length_append, List.length_singleton]; omega),
      List.getElem?_eq_none (by omega)]
    simp only [reduceCtorEq, false_or, false_iff]
    omega

namespace Account

theorem back_append (account : Account d calls ir held handed) {call : Call} {h : Token × ℕ} (member : h ∈ handed) :
    h.1.1 < h.2 ∧ ∃ op, (calls ++ [call])[h.2]? = some (op, h.1.2) := by
  obtain ⟨later, op, answered⟩ := account.back h member
  exact ⟨later, op, call_append.mpr (.inl answered)⟩

/-- A token of the ring that is handed back now, by the call that comes now. -/
theorem back_concat (account : Account d calls ir held handed) {op : Op} {token : Token} (inRing : token ∈ held)
    {h : Token × ℕ} (member : h ∈ handed ++ [(token, calls.length)]) :
    h.1.1 < h.2 ∧ ∃ op', (calls ++ [(op, token.2)])[h.2]? = some (op', h.1.2) := by
  rcases List.mem_append.mp member with earlier | now
  · exact account.back_append earlier
  · cases List.mem_singleton.mp now
    exact ⟨account.time_lt inRing, op, call_append.mpr (.inr ⟨rfl, rfl⟩)⟩

theorem handed_lt (account : Account d calls ir held handed) {h : Token × ℕ} (member : h ∈ handed) :
    h.1.1 < calls.length :=
  Nat.lt_trans (account.back h member).1 (account.back_lt member)

theorem recent_append (account : Account d calls ir held handed) {call : Call} {h : Token × ℕ} (member : h ∈ handed)
    (displaced : ∃ val value, (calls ++ [call])[h.2]? = some (.push val, value)) {token : Token}
    (inRing : token ∈ held) : h.1.1 < token.1 := by
  obtain ⟨val, value, answered⟩ := displaced
  rcases call_append.mp answered with earlier | ⟨here, -⟩
  · exact account.recent h member ⟨val, value, earlier⟩ token inRing
  · have early := account.back_lt member
    omega

/-- What comes now does not count before a time that was. -/
private theorem pushed_before (call : Call) {time : ℕ} (past : time ≤ calls.length) :
    (pushes (calls ++ [call])).countP (·.1 < time) = (pushes calls).countP (·.1 < time) := by
  obtain ⟨op, value⟩ := call
  cases op with
  | push val =>
    have late : ¬ calls.length < time := Nat.not_lt.mpr past
    rw [pushes_append_push, List.countP_append, List.countP_singleton, if_neg (by simpa using late), Nat.add_zero]
  | pop => rw [pushes_append_pop]

private theorem handed_before (token : Token) {time : ℕ} (past : time ≤ calls.length) :
    (handed ++ [(token, calls.length)]).countP (·.2 < time) = handed.countP (·.2 < time) := by
  have late : ¬ calls.length < time := Nat.not_lt.mpr past
  rw [List.countP_append, List.countP_singleton, if_neg (by simpa using late), Nat.add_zero]

theorem full_append (account : Account d calls ir held handed) (call : Call) {h : Token × ℕ} (member : h ∈ handed)
    (displaced : ∃ val value, (calls ++ [call])[h.2]? = some (.push val, value)) :
    (pushes (calls ++ [call])).countP (·.1 < h.2) = handed.countP (·.2 < h.2) + 4 := by
  have early := account.back_lt member
  obtain ⟨val, value, answered⟩ := displaced
  rw [pushed_before call early.le]
  rcases call_append.mp answered with earlier | ⟨here, -⟩
  · exact account.full h member ⟨val, value, earlier⟩
  · omega

/-- Before the call that comes now, all pushes and all that was handed back count. -/
theorem full_now (account : Account d calls ir held handed) (call : Call) (four : held.length = 4) :
    (pushes (calls ++ [call])).countP (·.1 < calls.length) = handed.countP (·.2 < calls.length) + 4 := by
  have pushed : (pushes calls).countP (·.1 < calls.length) = (pushes calls).length :=
    List.countP_eq_length.mpr fun token member => by simpa using time_lt_of_mem_pushes member
  have back : handed.countP (·.2 < calls.length) = handed.length :=
    List.countP_eq_length.mpr fun h member => by simpa using account.back_lt member
  have total := account.once.length_eq
  rw [List.length_append, List.length_map, four] at total
  rw [pushed_before call (Nat.le_refl _), pushed, back]
  omega

/-- The call that comes now has handed back nothing so far. -/
theorem single_append (account : Account d calls ir held handed) (token : Token) :
    ((handed ++ [(token, calls.length)]).map (·.2)).Nodup := by
  rw [List.map_append]
  refine account.single.append (List.nodup_singleton _) ?_
  intro time handedBack now
  obtain ⟨h, member, rfl⟩ := List.mem_map.mp handedBack
  have early := account.back_lt member
  have late : h.2 = calls.length := List.mem_singleton.mp now
  omega

/-- A push onto a ring with room. -/
theorem push_room (account : Account d calls ir held handed) (step : ir.push val = (old, ir')) (room : held.length < 4) :
    Account d (calls ++ [(.push val, old)]) ir' ((calls.length, val) :: held) handed := by
  obtain ⟨displaced, holds, unset⟩ := account.holds.push val
  simp only [step] at displaced holds unset
  have returned : old = d := by
    rw [displaced, List.getD_eq_getElem?_getD, List.getElem?_eq_none (by rw [List.length_map]; omega), account.unset]
    rfl
  refine ⟨?_, unset.trans account.unset, ?_, ?_, fun h member => account.back_append member, account.single, ?_, ?_, ?_,
    fun h member => account.full_append _ member⟩
  · rwa [List.take_of_length_le (by rw [List.length_cons, List.length_map]; omega)] at holds
  · rw [pushes_append_push, List.cons_append]
    exact (account.once.cons _).trans (List.perm_append_singleton _ _).symm
  · exact account.latest.cons fun token member => account.time_lt member
  · intro time value answered
    rcases call_append.mp answered with earlier | ⟨-, now⟩
    · exact account.pops time value earlier
    · cases now
  · intro time val' value answered quiet
    rcases call_append.mp answered with earlier | ⟨-, now⟩
    · exact account.quiet time val' value earlier quiet
    · cases now
      exact returned
  · intro h member displaced token inRing
    rcases List.mem_cons.mp inRing with rfl | inRing
    · exact account.handed_lt member
    · exact account.recent_append member displaced inRing

/-- A push onto a full ring hands back the oldest value. -/
theorem push_full {newer : List Token} {oldest : Token} (account : Account d calls ir (newer ++ [oldest]) handed)
    (step : ir.push val = (old, ir')) (full : newer.length = 3) :
    Account d (calls ++ [(.push val, old)]) ir' ((calls.length, val) :: newer)
      (handed ++ [(oldest, calls.length)]) := by
  obtain ⟨displaced, holds, unset⟩ := account.holds.push val
  simp only [step] at displaced holds unset
  have length : (newer.map (·.2)).length = 3 := by rw [List.length_map, full]
  have returned : old = oldest.2 := by
    rw [displaced, List.map_append, List.getD_eq_getElem?_getD, List.getElem?_append_right (Nat.le_of_eq length), length]
    rfl
  have members : ∀ token ∈ newer, token ∈ newer ++ [oldest] := fun token => List.mem_append_left _
  have ordered := List.pairwise_append.mp account.latest
  have oldestIn : oldest ∈ newer ++ [oldest] := List.mem_append_right _ (List.mem_singleton_self _)
  subst returned
  refine ⟨?_, unset.trans account.unset, ?_, ?_, fun h => account.back_concat oldestIn, account.single_append _, ?_, ?_,
    ?_, ?_⟩
  · rwa [List.map_append, List.take_succ_cons, List.take_left' length] at holds
  · rw [pushes_append_push, List.map_append, List.cons_append]
    refine .trans (.cons _ ?_) (List.perm_append_singleton _ _).symm
    refine .trans ?_ account.once
    rw [List.append_assoc]
    exact List.perm_append_comm.append_left newer
  · exact ordered.1.cons fun token member => account.time_lt (members token member)
  · intro time value answered
    rcases call_append.mp answered with earlier | ⟨-, now⟩
    · rw [List.map_append]
      exact List.mem_append_left _ (account.pops time value earlier)
    · cases now
  · intro time val' value answered quiet
    rw [List.map_append, List.mem_append, not_or] at quiet
    rcases call_append.mp answered with earlier | ⟨here, -⟩
    · exact account.quiet time val' value earlier quiet.1
    · exact absurd (List.mem_singleton.mpr here) quiet.2
  · intro h member displaced token inRing
    rcases List.mem_append.mp member with earlier | now
    · rcases List.mem_cons.mp inRing with rfl | inRing
      · exact account.handed_lt earlier
      · exact account.recent_append earlier displaced (members token inRing)
    · cases List.mem_singleton.mp now
      rcases List.mem_cons.mp inRing with rfl | inRing
      · exact account.time_lt oldestIn
      · exact ordered.2.2 token inRing oldest (List.mem_singleton_self _)
  · intro h member displaced
    rcases List.mem_append.mp member with earlier | now
    · rw [handed_before _ (account.back_lt earlier).le]
      exact account.full_append _ earlier displaced
    · cases List.mem_singleton.mp now
      rw [handed_before _ (Nat.le_refl _)]
      exact account.full_now _ (by rw [List.length_append, full, List.length_singleton])

/-- A pop hands back the latest value. -/
theorem pop {newest : Token} (account : Account d calls ir (newest :: held) handed) (step : ir.pop = some (top, ir')) :
    Account d (calls ++ [(.pop, top)]) ir' held (handed ++ [(newest, calls.length)]) := by
  obtain ⟨popped, result, holds, unset⟩ := account.holds.pop_cons
  obtain ⟨rfl, rfl⟩ : top = newest.2 ∧ ir' = popped := by
    rw [step] at result
    cases result
    exact ⟨rfl, rfl⟩
  have newestIn : newest ∈ newest :: held := List.mem_cons_self
  refine ⟨holds, unset.trans account.unset, ?_, account.latest.of_cons, fun h => account.back_concat newestIn,
    account.single_append _, ?_, ?_, ?_, ?_⟩
  · rw [pushes_append_pop, List.map_append]
    refine .trans ?_ account.once
    rw [List.cons_append, ← List.append_assoc]
    exact List.perm_append_singleton _ _
  · intro time value answered
    rw [List.map_append, List.mem_append]
    rcases call_append.mp answered with earlier | ⟨here, -⟩
    · exact .inl (account.pops time value earlier)
    · exact .inr (List.mem_singleton.mpr here)
  · intro time val' value answered quiet
    rw [List.map_append, List.mem_append, not_or] at quiet
    rcases call_append.mp answered with earlier | ⟨-, now⟩
    · exact account.quiet time val' value earlier quiet.1
    · cases now
  · intro h member displaced token inRing
    rcases List.mem_append.mp member with earlier | now
    · exact account.recent_append earlier displaced (List.mem_cons_of_mem _ inRing)
    · cases List.mem_singleton.mp now
      obtain ⟨val', value, answered⟩ := displaced
      rcases call_append.mp answered with before | ⟨-, call⟩
      · rw [List.getElem?_eq_none (Nat.le_refl _)] at before
        cases before
      · cases call
  · intro h member displaced
    rcases List.mem_append.mp member with earlier | now
    · rw [handed_before _ (account.back_lt earlier).le]
      exact account.full_append _ earlier displaced
    · cases List.mem_singleton.mp now
      obtain ⟨val', value, answered⟩ := displaced
      rcases call_append.mp answered with before | ⟨-, call⟩
      · rw [List.getElem?_eq_none (Nat.le_refl _)] at before
        cases before
      · cases call

theorem step {call : Call} (account : Account d calls ir held handed) (step : ring.Step ir call ir') :
    ∃ held' handed', Account d (calls ++ [call]) ir' held' handed' := by
  obtain ⟨op, value⟩ := call
  cases op with
  | push val =>
    have few : held.length ≤ 4 := by
      rw [← List.length_map (·.2)]
      exact account.holds.bound
    rcases Nat.lt_or_eq_of_le few with room | full
    · exact ⟨_, _, account.push_room step room⟩
    · obtain ⟨newer, oldest, rfl⟩ := List.eq_nil_or_concat held |>.resolve_left (by rintro rfl; cases full)
      rw [List.concat_eq_append] at account full
      rw [List.length_append, List.length_singleton] at full
      exact ⟨_, _, account.push_full step (Nat.succ.inj full)⟩
  | pop =>
    cases held with
    | nil =>
      change ir.pop = some (value, ir') at step
      rw [account.holds.pop_nil] at step
      cases step
    | cons newest held => exact ⟨held, _, account.pop step⟩

/-- The values in the ring can be popped, the latest first, and then it is empty. -/
theorem drain (account : Account d calls ir held handed) :
    ∃ empty : IRing, Run ring ir (held.map fun token => (.pop, token.2)) empty ∧ empty.irEmpty = true := by
  induction held generalizing calls ir handed with
  | nil => exact ⟨ir, .done (m := ring) ir, account.holds.empty⟩
  | cons newest held ih =>
    obtain ⟨ir', popped, -⟩ := account.holds.pop_cons
    obtain ⟨empty, rest, isEmpty⟩ := ih (account.pop popped)
    exact ⟨empty, .step (m := ring) popped rest, isEmpty⟩

end Account

/-- After every sequence of pushes and pops, each pushed value is in the ring or was handed back once. Those in
the ring can be popped, in the reverse order of their pushes; they are at most four. Those that are in it no more,
but were not popped, are older, and made room for a fifth one. -/
theorem ring_accounts (run : Run ring (init d) calls ir) :
    ∃ held handed, Account d calls ir held handed ∧
      ∃ empty : IRing, Run ring ir (held.map fun token => (.pop, token.2)) empty ∧ empty.irEmpty = true := by
  have accounted : ∃ held handed, Account d ([] ++ calls) ir held handed :=
    run.history (fun calls ir => ∃ held handed, Account d calls ir held handed)
      (fun ⟨_, _, account⟩ step => account.step step) ⟨[], [], account_init d⟩
  obtain ⟨held, handed, account⟩ := accounted
  exact ⟨held, handed, account, account.drain⟩

/-- The fifth push displaces the first value. -/
def fivePushes : List Call := [(.push 1, 0), (.push 2, 0), (.push 3, 0), (.push 4, 0), (.push 5, 1), (.pop, 5)]

private theorem fivePushes_run : ∃ ir : IRing, Run ring (init 0) fivePushes ir :=
  ⟨_, .step (m := ring) rfl (.step (m := ring) rfl (.step (m := ring) rfl (.step (m := ring) rfl
    (.step (m := ring) rfl (.step (m := ring) rfl (.done (m := ring) _))))))⟩

theorem ring_accounts_fivePushes : ∃ ir held handed, Run ring (init 0) fivePushes ir ∧
    Account 0 fivePushes ir held handed := by
  obtain ⟨ir, run⟩ := fivePushes_run
  obtain ⟨held, handed, account, -⟩ := ring_accounts run
  exact ⟨ir, held, handed, run, account⟩

end Yalibct.IRing

import Yalibct.Soundness.FtsPath

/-! # The path of every entry

Each step of `fts_read` leaves the path of the entry that it returns in the buffer. With the names of the
tree and no failure, this is the path that the entry has, unless a directory that is named with a slash at
its end is read in `FTS_NOCHDIR` mode and there is nothing in it.
-/

namespace Yalibct.Fts.Path

open Machine

variable {env : Env} {sp sp' sp'' : FTS env} {exact : Prop} {args : ℕ → Option (List UInt8)}
variable {parents : List (Ftsent × List Ftsent)} {above path : List UInt8} {p q cur : Ftsent} {pos : Position} {link : List Ftsent}

/-! ## Steps -/

/-- All options are the same, but the stream may have been stopped. -/
def Alike (sp sp' : FTS env) : Prop := sp'.ftsOptions = { sp.ftsOptions with stop := sp'.ftsOptions.stop }

theorem Alike.trans (first : Alike sp sp') (second : Alike sp' sp'') : Alike sp sp'' := by
  unfold Alike at first second ⊢
  rw [second, first]

theorem Alike.of_same (same : sp'.ftsOptions = sp.ftsOptions) : Alike sp sp' := by
  unfold Alike
  rw [same]

theorem Apart.alike (apart : Apart sp sp') : Alike sp sp' := .of_same apart.options

theorem Halts.alike (halts : Halts sp sp') : Alike sp sp' := by
  unfold Alike
  rw [halts.2]

/-- The entry that is returned, if there is one, is the current one, at its path. -/
structure Arrives (exact : Prop) (args : ℕ → Option (List UInt8)) (sp : FTS env) (r : Option Ftsent) (sp' : FTS env) :
    Prop where
  alike : Alike sp sp'
  fits : Fits exact args sp'
  shows : ∀ p, r = some p → ∃ pos, sp'.ftsCur = some pos ∧ pos.cur = p ∧ Shows exact args sp'.ftsPath pos

theorem Arrives.after {r : Option Ftsent} (alike : Alike sp sp') (arrives : Arrives exact args sp' r sp'') :
    Arrives exact args sp r sp'' := { arrives with alike := alike.trans arrives.alike }

/-- What was done before, without a change of the options. -/
theorem Arrives.written {r : Option Ftsent} (arrives : Arrives exact args sp' r sp'')
    (same : sp'.ftsOptions = sp.ftsOptions) : Arrives exact args sp r sp'' := arrives.after (.of_same same)

theorem Arrives.stopped (alike : Alike sp sp') (stop : sp'.ftsOptions.stop = true) : Arrives exact args sp none sp' :=
  ⟨alike, fun going => absurd (stop.symm.trans going) nofun, fun _ returned => absurd returned nofun⟩

theorem Arrives.of_shows {r : Option Ftsent} (alike : Alike sp sp') (current : sp'.ftsCur = some pos)
    (shows : Shows exact args sp'.ftsPath pos) (returned : ∀ p, r = some p → pos.cur = p) : Arrives exact args sp r sp' := by
  refine ⟨alike, fun _ pos' member => .inr ?_, fun p result => ⟨pos, current, returned p result, shows⟩⟩
  rw [← Option.some.inj (current.symm.trans member)]
  exact shows

/-- The empty path is in the buffer where an entry has it. -/
theorem accpath_empty (shown : [0] <+: sp.ftsPath) (accpath : p.ftsAccpath = .ftsPath) : sp.accpath p = [] := by
  obtain ⟨rest, bytes⟩ := shown
  rw [FTS.accpath, accpath]
  change sp.path = []
  rw [FTS.path, ← bytes]
  rfl

/-- What changes of the current entry leaves it at its path. -/
theorem Shows.change (shows : Shows exact args sp.ftsPath pos) (stays : Stays pos.cur q) (clean : Clean q)
    (info : pos.cur.ftsInfo = .d ∨ (sp.accpath pos.cur = [] → q.ftsInfo ≠ .d)) :
    Shows exact args sp.ftsPath { pos with cur := q } := by
  obtain ⟨small, above, path, stack, listed, sits, shown, empty⟩ := shows
  refine ⟨small, above, path, stack, listed, sits.stays stays clean, shown, fun none => ?_⟩
  obtain ⟨accpath, other⟩ := empty none
  refine ⟨stays.accpath.trans accpath, ?_⟩
  rw [none] at shown
  exact info.elim (fun d => absurd d other) fun empty => empty (accpath_empty shown accpath)

theorem Shows.clean (shows : Shows exact args sp.ftsPath pos) : Clean pos.cur := by
  obtain ⟨-, above, path, -, -, sits, -⟩ := shows
  exact sits.clean

section Steps

variable (unresolved : Unresolved env.fs)

include unresolved in
theorem ftsStat_within {follow : Bool} :
    Within (fun r sp' => Stays p r ∧ r.ftsDirp = p.ftsDirp ∧ sp'.view = sp.view ∧ (sp.accpath p = [] → r.ftsInfo ≠ .d))
      (ftsStat p follow) sp := by
  have gives := ftsStat_gives p follow sp
  rcases Decidable.em (sp.accpath p = []) with empty | named
  · apply (gives.and (ftsStat_empty unresolved empty)).mono
    rintro r t ⟨⟨⟨stays, dirp⟩, view⟩, info⟩
    refine ⟨stays, dirp, view, fun _ => ?_⟩
    rw [info]
    nofun
  · exact gives.mono fun r t ⟨⟨stays, dirp⟩, view⟩ => ⟨stays, dirp, view, fun empty => absurd empty named⟩

include unresolved in
private theorem statDeferred_within :
    Within (fun r sp' => Stays p r ∧ r.ftsDirp = p.ftsDirp ∧ sp'.view = sp.view ∧
      (p.ftsInfo ≠ .d → sp.accpath p = [] → r.ftsInfo ≠ .d)) (statDeferred p) sp := by
  unfold statDeferred
  split_ifs
  · exact (ftsStat_within unresolved).mono fun r t ⟨stays, dirp, view, info⟩ => ⟨stays, dirp, view, fun _ => info⟩
  · exact ⟨.refl p, rfl, rfl, fun other _ => other⟩
  · exact nofun
  · exact ⟨.refl p, rfl, rfl, fun other _ => other⟩

include unresolved in
private theorem followLink_within :
    Within (fun r sp' => Stays p r ∧ r.ftsDirp = p.ftsDirp ∧ sp'.view = sp.view ∧
      (sp.accpath p = [] → r.ftsInfo ≠ .d)) (followLink p) sp := by
  apply Ends.bind (ftsStat_within unresolved)
  rintro r t ⟨stays, dirp, view, info⟩
  apply Ends.get_bind
  split_ifs with directory
  · apply Ends.bind (diropen_aside [46] t)
    rintro fd u ⟨-, view'⟩
    have empty : sp.accpath p = [] → r.ftsInfo ≠ .d := info
    split_ifs
    · apply Ends.bind (getErrno_aside u)
      rintro errno v ⟨-, view''⟩
      refine ⟨⟨stays.address, stays.name, stays.level, stays.pathlen, stays.accpath⟩, dirp, ?_, fun _ => nofun⟩
      exact (view''.trans view').trans view
    · exact ⟨⟨stays.address, stays.name, stays.level, stays.pathlen, stays.accpath⟩, dirp, view'.trans view, info⟩
  · exact ⟨stays, dirp, view, info⟩

include unresolved in
private theorem checkForDir_within (shows : Shows exact args sp.ftsPath pos) :
    Within (Arrives exact args sp) (checkForDir pos) sp := by
  apply Ends.modify_bind
  apply Ends.bind (statDeferred_within unresolved)
  rintro p t ⟨stays, dirp, view, info⟩
  obtain ⟨apart, bytes⟩ := view_eq view
  apply Ends.modify_bind
  have info : pos.cur.ftsInfo = .d ∨ (sp.accpath pos.cur = [] → p.ftsInfo ≠ .d) := by
    rcases Decidable.em (pos.cur.ftsInfo = .d) with directory | other
    · exact .inl directory
    · exact .inr (info other)
  have shows : Shows exact args sp.ftsPath { pos with cur := p } := shows.change stays (shows.clean.same dirp) info
  split
  · rename_i directory
    apply Ends.modify_bind
    apply Ends.bind (enterDir_gives p _)
    rintro ⟨entered, q⟩ u ⟨⟨stays, dirp⟩, view'⟩
    obtain ⟨apart', bytes'⟩ := view_eq view'
    have bytes : u.ftsPath = sp.ftsPath := bytes'.trans bytes
    have alike : Alike sp u := .of_same (apart'.options.trans apart.options)
    have shows : Shows exact args u.ftsPath { pos with cur := q } := by
      rw [bytes]
      exact shows.change stays (shows.clean.same dirp) (.inl directory)
    apply Ends.modify_bind
    dsimp only
    split_ifs
    · exact .of_shows alike rfl shows fun p result => Option.some.inj result
    · apply Ends.bind (setErrno_aside _ _)
      rintro _ v ⟨-, view⟩
      obtain ⟨apart, bytes⟩ := view_eq view
      exact .of_shows (alike.trans apart.alike) apart.cur (bytes ▸ shows) fun p absent => absurd absent nofun
  · rw [← show t.ftsPath = sp.ftsPath from bytes] at shows
    exact Arrives.of_shows (.of_same apart.options) rfl shows fun p result => Option.some.inj result

/-- An entry of a list below the others, the first of which is at the start of the buffer. -/
structure Below (exact : Prop) (args : ℕ → Option (List UInt8)) (bytes : List UInt8) (parents : List (Ftsent × List Ftsent))
    (link : List Ftsent) (above : List UInt8) : Prop where
  small : bytes.length ≤ ptrdiffMax
  stack : Stack exact args bytes.length parents above
  listed : ∀ q ∈ link, Listing exact args bytes.length parents above q
  starts : above <+: bytes

include unresolved in
private theorem name_within (below : Below exact args sp.ftsPath pos.parents pos.link above)
    (inner : pos.parents ≠ [])
    (kid : Kid above sp.ftsPath.length pos.cur) (clean : Clean pos.cur) :
    Within (Arrives exact args sp) (name pos) sp := by
  obtain ⟨cur, link, parents⟩ := pos
  dsimp only at below inner kid clean
  cases parents with
  | nil => exact absurd rfl inner
  | cons entry parents =>
    obtain ⟨nonempty, outer, stack, sits, waiting⟩ := below.stack
    apply Ends.bind (nappend_within below.starts sits.length nonempty)
    rintro _ t ⟨rfl, unchanged⟩
    rw [unchanged]
    have room := kid.room
    rw [kid.length, length_join] at room
    have stored : (stem above).length + (slash :: cur.ftsName ++ [0]).length ≤ sp.ftsPath.length := by
      rw [List.length_append, List.length_cons, List.length_singleton]
      omega
    apply Ends.bind (writePath_within stored)
    rintro _ u rfl
    have shown : join above cur.ftsName ++ [0] <+:
        overwrite sp.ftsPath (stem above).length (slash :: cur.ftsName ++ [0]) := by
      rw [join, List.append_assoc]
      exact append_prefix_overwrite (stem_starts.trans below.starts)
    have size := length_overwrite stored
    refine Ends.mono (checkForDir_within unresolved ?_) fun r v arrives => arrives.written rfl
    refine ⟨?_, above, join above cur.ftsName, ?_, ?_, ?_, shown, fun none => absurd none join_ne_nil⟩
    · rw [size]
      exact below.small
    · rw [size]
      exact below.stack
    · rw [size]
      exact below.listed
    · refine ⟨kid.length, ?_, fun outermost => absurd outermost inner, fun _ => ⟨?_, prefix_stem_slash, fun _ => rfl⟩,
        clean⟩
      · rw [size, ← kid.length]
        exact kid.room
      · rw [size]
        exact kid

private theorem arrive_within {lost : Bool} {errno : Errno} (shows : Shows exact args sp.ftsPath ⟨p, link, parents⟩) :
    Within (Arrives exact args sp) (arrive p link parents lost errno) sp := by
  have rest : ∀ {t : FTS env} {q : Ftsent}, Alike sp t → t.ftsPath = sp.ftsPath → Stays p q → q.ftsDirp = p.ftsDirp →
      q.ftsInfo ≠ .d → Within (Arrives exact args sp) (do
        setCur ⟨q, link, parents⟩
        if q.ftsInfo = .dp then leaveDirChecked q (parent parents)
        return if (← get).ftsOptions.stop then none else some q) t := by
    intro t q alike bytes stays dirp info
    have shows : Shows exact args sp.ftsPath ⟨q, link, parents⟩ :=
      shows.change stays (shows.clean.same dirp) (.inr fun _ => info)
    have last : ∀ {u : FTS env}, Alike sp u → u.ftsPath = sp.ftsPath → u.ftsCur = some ⟨q, link, parents⟩ →
        Arrives exact args sp (if u.ftsOptions.stop then none else some q) u := by
      intro u alike bytes current
      apply Arrives.of_shows alike current (bytes ▸ shows)
      split_ifs
      · exact fun _ absent => absurd absent nofun
      · exact fun _ => Option.some.inj
    apply Ends.modify_bind
    split_ifs
    · apply Ends.bind (leaveDirChecked_aside q _ _)
      rintro _ u ⟨-, view⟩
      obtain ⟨apart, bytes'⟩ := view_eq view
      exact Ends.get_bind (last (alike.trans (.of_same apart.options)) (bytes'.trans bytes) apart.cur)
    · exact Ends.get_bind (last (alike.trans (.of_same rfl)) bytes rfl)
  have left : ∀ {q : Ftsent}, Stays p q → q.ftsDirp = p.ftsDirp →
      Stays p (if q.ftsInfo ≠ .dc then { q with ftsInfo := if q.ftsErrno ≠ 0 then .err else .dp } else q) ∧
        (if q.ftsInfo ≠ .dc then { q with ftsInfo := if q.ftsErrno ≠ 0 then .err else .dp } else q).ftsDirp = p.ftsDirp ∧
        (if q.ftsInfo ≠ .dc then { q with ftsInfo := if q.ftsErrno ≠ 0 then .err else .dp } else q).ftsInfo ≠ .d := by
    intro q stays dirp
    split_ifs with other failed
    · exact ⟨⟨stays.address, stays.name, stays.level, stays.pathlen, stays.accpath⟩, dirp, nofun⟩
    · exact ⟨⟨stays.address, stays.name, stays.level, stays.pathlen, stays.accpath⟩, dirp, nofun⟩
    · rw [not_not.mp other]
      exact ⟨stays, dirp, nofun⟩
  unfold arrive
  cases lost with
  | false =>
    obtain ⟨stays, dirp, info⟩ := left (.refl p) rfl
    exact rest (.of_same rfl) rfl stays dirp info
  | true =>
    obtain ⟨stays, dirp, info⟩ := @left { p with ftsErrno := errno } ⟨rfl, rfl, rfl, rfl, rfl⟩ rfl
    apply Ends.modify_bind
    exact rest rfl rfl stays dirp info

private theorem cdDotDot_within (below : Below exact args sp.ftsPath parents [] above) :
    Within (Arrives exact args sp) (cdDotDot parents) sp := by
  cases parents with
  | nil =>
    apply Ends.modify_bind
    apply Ends.bind (setErrno_aside 0 _)
    rintro _ t ⟨-, view⟩
    obtain ⟨apart, -⟩ := view_eq view
    refine ⟨.of_same apart.options, fun _ pos member => ?_, fun _ absent => absurd absent nofun⟩
    exact absurd (apart.cur.symm.trans member) nofun
  | cons entry parents =>
    obtain ⟨p, link⟩ := entry
    obtain ⟨nonempty, outer, stack, sits, waiting⟩ := below.stack
    apply Ends.modify_bind
    dsimp only
    split_ifs
    · exact nofun
    have stored : p.ftsPathlen + [(0 : UInt8)].length ≤ sp.ftsPath.length := by
      have room := sits.room
      rw [sits.length, List.length_singleton]
      omega
    refine Ends.bind (writePath_within stored) ?_
    rintro _ t rfl
    apply Ends.bind (leaveEntries_aside p parents _)
    rintro ⟨lost, errno⟩ u ⟨-, view⟩
    obtain ⟨apart, bytes⟩ := view_eq view
    have size : u.ftsPath.length = sp.ftsPath.length := by
      rw [bytes]
      exact length_overwrite stored
    have shown : above ++ [0] <+: u.ftsPath := by
      rw [bytes, sits.length]
      exact append_prefix_overwrite below.starts
    have shows : Shows exact args u.ftsPath ⟨p, link, parents⟩ := by
      refine ⟨?_, outer, above, ?_, ?_, ?_, shown, fun none => absurd none nonempty⟩
      all_goals rw [size]
      · exact below.small
      · exact stack
      · exact waiting
      · exact sits
    exact (arrive_within shows).mono fun r v arrives => arrives.after (.of_same apart.options)

/-! ## The directory that is read -/

/-- The directory that `next:` goes on reading, from a list. -/
def nextBuilt (parents : List (Ftsent × List Ftsent)) : List Ftsent → Option Ftsent
  | [] => (parent parents).filter (·.ftsDirp.isSome)
  | p :: link => if p.ftsLevel ≠ rootLevel ∧ p.ftsInstr = .skip then nextBuilt parents link else none

/-- The slash at the end of its path is kept if this directory is read. -/
def Careful (exact : Prop) (sp : FTS env) (built : Option Ftsent) : Prop :=
  exact → env.Reliable ∧ (sp.ftsOptions.nochdir = true → sp.ftsOptions.cwdfd = false) ∧
    ∀ p, built = some p → sp.ftsOptions.nochdir = true → sp.ftsPath[p.ftsPathlen - 1]? = some slash → ¬ Blank sp p

theorem getElem?_last (starts : path <+: sp.ftsPath) (nonempty : path ≠ []) :
    sp.ftsPath[path.length - 1]? = path.getLast? := by
  obtain ⟨rest, bytes⟩ := starts
  have := List.length_pos_iff.mpr nonempty
  rw [← bytes, List.getElem?_append_left (by omega), List.getLast?_eq_getElem?]

theorem Careful.not_loses (careful : Careful exact sp (some p)) (starts : path <+: sp.ftsPath)
    (length : p.ftsPathlen = path.length) (nonempty : path ≠ []) (asked : exact) : ¬ Loses path sp p := by
  obtain ⟨reliable, cwdfd, safe⟩ := careful asked
  intro loses
  refine safe p rfl loses.nochdir ?_ (loses.blank reliable (cwdfd loses.nochdir))
  rw [length, getElem?_last starts nonempty]
  exact loses.ends

/-- The bytes at a path may change, but for those before its last slash. -/
theorem Sits.again {size : ℕ} {path' : List UInt8} (sits : Sits exact args size parents above path p)
    (stack : Stack exact args size parents above) (sized : path'.length = path.length) (starts : stem path <+: path')
    (kept : exact → path' = path) : Sits exact args size parents above path' p := by
  refine ⟨sits.length.trans sized.symm, sized ▸ sits.room, fun outer => ?_, fun inner => ?_, sits.clean⟩
  · obtain ⟨level, argument⟩ := sits.first outer
    exact ⟨level, fun asked => (argument asked).trans (congrArg some (kept asked).symm)⟩
  · obtain ⟨kid, -, join⟩ := sits.below inner
    exact ⟨kid, (sits.above_starts stack).trans starts, fun asked => (kept asked).trans (join asked)⟩

/-- What is below a directory that was read, and where the directory is itself if there is nothing. -/
theorem Builds.below {lost : Prop} {r : List Ftsent × Ftsent} (builds : Builds path p lost sp r sp')
    (stack : Stack exact args sp.ftsPath.length parents above)
    (sits : Sits exact args sp.ftsPath.length parents above path p)
    (waiting : ∀ q ∈ link, Listing exact args sp.ftsPath.length parents above q) (nonempty : path ≠ [])
    (kept : exact → ¬ lost) :
    r.1 = [] ∧ Halts sp sp' ∨ Alike sp sp' ∧ ∃ path', Below exact args sp'.ftsPath ((r.2, link) :: parents) r.1 path' ∧
      (r.1 = [] → Shows exact args sp'.ftsPath ⟨r.2, link, parents⟩) := by
  have stacked : ∀ {path' : List UInt8}, sp.ftsPath.length ≤ sp'.ftsPath.length → path'.length = path.length →
      stem path <+: path' → (exact → path' = path) → path' ≠ [] ∧ Stack exact args sp'.ftsPath.length parents above ∧
        Sits exact args sp'.ftsPath.length parents above path' r.2 ∧
        ∀ q ∈ link, Listing exact args sp'.ftsPath.length parents above q := by
    intro path' longer sized starts same
    refine ⟨fun none => nonempty (List.length_eq_zero_iff.mp ?_), stack.grow longer, ?_,
      fun q member => (waiting q member).grow longer⟩
    · rw [← sized, none]
      rfl
    · exact ((sits.again stack sized starts same).stays builds.stays builds.clean).grow longer
  rcases builds.ends with halts | ⟨nothing, emptied⟩ | ⟨found, filled⟩
  · exact .inl halts
  · obtain ⟨apart, longer, small, path', sized, starts, shown, same⟩ := emptied
    have same : exact → path' = path := fun asked => same.resolve_right (kept asked)
    obtain ⟨some, stack, sits, waiting⟩ := stacked longer sized starts same
    have starts : path' <+: sp'.ftsPath := (List.prefix_append ..).trans shown
    refine .inr ⟨apart.alike, path', ⟨small, ⟨some, above, stack, sits, waiting⟩, ?_, starts⟩, fun _ => ?_⟩
    · rw [nothing]
      exact List.forall_mem_nil _
    · exact ⟨small, above, path', stack, waiting, sits, shown, fun none => absurd none some⟩
  · obtain ⟨some, stack, sits, waiting⟩ := stacked filled.longer rfl stem_starts fun _ => rfl
    have inner : Stack exact args sp'.ftsPath.length ((r.2, link) :: parents) path := ⟨some, above, stack, sits, waiting⟩
    refine .inr ⟨filled.apart.alike, path, ⟨filled.small, inner, filled.kids, filled.starts⟩, ?_⟩
    exact fun none => absurd none found

theorem Sits.level (sits : Sits exact args sp.ftsPath.length parents above path p) : 0 ≤ p.ftsLevel := by
  cases parents with
  | nil =>
    rw [(sits.first rfl).1]
    exact Int.le_refl _
  | cons entry parents => exact Int.le_of_lt (sits.below nofun).1.level

/-- What an open directory is blank by is not in the buffer. -/
theorem Blank.of_open {dp : Dir} (dirp : p.ftsDirp = some dp) (options : sp'.ftsOptions = sp.ftsOptions)
    (blank : Blank sp' p) : Blank sp p := by
  obtain ⟨rest, read, skipped⟩ := blank
  unfold Skipped at skipped
  rw [toRead, dirp] at read
  rw [options] at skipped
  exact ⟨rest, by rw [toRead, dirp]; exact read, skipped⟩

/-- The entry that `fts_load` makes of a root. -/
def loaded (p : Ftsent) : Ftsent :=
  { p with ftsPathlen := p.ftsName.length, ftsName := lastComponent p.ftsName, ftsAccpath := .ftsPath }

private theorem ftsLoad_within {fails : Fault → FTS env → Prop} (root : Unread exact args sp.ftsPath.length p)
    (small : sp.ftsPath.length ≤ ptrdiffMax)
    (listed : ∀ q ∈ link, Unread exact args sp.ftsPath.length q) :
    Ends fails (fun r sp' => r = loaded p ∧ Apart sp sp' ∧ Shows exact args sp'.ftsPath ⟨r, link, []⟩) (ftsLoad p) sp := by
  have stored : 0 + (p.ftsName ++ [0]).length ≤ sp.ftsPath.length := by
    rw [List.length_append, List.length_singleton, Nat.zero_add]
    exact root.room
  apply Ends.bind (writePath_within stored)
  rintro _ t rfl
  refine ⟨rfl, ⟨rfl, rfl⟩, ?_, [], p.ftsName, rfl, ?_, ?_, append_prefix_overwrite List.nil_prefix,
    fun none => ⟨rfl, root.empty none⟩⟩
  all_goals dsimp only; rw [length_overwrite stored]
  · exact small
  · exact listed
  · exact ⟨rfl, root.room, fun _ => ⟨root.level, fun asked => root.argument asked⟩, nofun, root.clean⟩

section Reads

variable (names : Names env.fs)

include unresolved names in
/-- Behind the last entry that was read of a directory: more of it is read, if it is still open. -/
theorem next_end_within {q : Ftsent}
    (below : Below exact args sp.ftsPath ((q, link) :: parents) [] above)
    (careful : Careful exact sp (nextBuilt ((q, link) :: parents) [])) :
    Within (Arrives exact args sp) (next p ((q, link) :: parents) []) sp := by
  obtain ⟨nonempty, outer, stack, sits, waiting⟩ := below.stack
  unfold next
  dsimp only
  split_ifs with again
  · have stored : q.ftsPathlen + [(0 : UInt8)].length ≤ sp.ftsPath.length := by
      have room := sits.room
      rw [sits.length, List.length_singleton]
      omega
    have size := length_overwrite stored
    apply Ends.modify_bind
    refine Ends.bind (writePath_within stored) ?_
    rintro _ t rfl
    obtain ⟨dp, dirp⟩ := Option.isSome_iff_exists.mp again
    have shown : above ++ [0] <+: overwrite sp.ftsPath q.ftsPathlen [0] := by
      rw [sits.length]
      exact append_prefix_overwrite below.starts
    refine Ends.bind (ftsBuild_within names (size ▸ below.small) sits.level sits.clean sits.length nonempty shown) ?_
    rintro ⟨head, q'⟩ u builds
    have kept : exact → ¬ Loses above
        { sp with ftsCur := some ⟨q, link, parents⟩, ftsPath := overwrite sp.ftsPath q.ftsPathlen [0] } q := by
      intro asked loses
      have built : nextBuilt ((q, link) :: parents) [] = some q := by
        rw [nextBuilt, Option.filter_eq_some_iff]
        exact ⟨rfl, again⟩
      rw [built] at careful
      exact careful.not_loses below.starts sits.length nonempty asked ⟨loses.nochdir, loses.ends,
        fun reliable cwdfd => Blank.of_open dirp (by rfl) (loses.blank reliable cwdfd)⟩
    rw [← size] at stack sits waiting
    apply Ends.modify_bind
    cases head with
    | nil =>
      apply Ends.get_bind
      rcases builds.below stack sits waiting nonempty kept with ⟨-, halts⟩ | ⟨alike, path', below', -⟩
      · have stop : u.ftsOptions.stop = true := by rw [halts.2]
        rw [if_pos stop]
        exact .stopped halts.alike stop
      · split_ifs with stop
        · exact .stopped alike stop
        · refine Ends.mono (cdDotDot_within below') ?_
          exact fun r v arrives => arrives.after (by exact alike)
    | cons child rest =>
      rcases builds.below stack sits waiting nonempty kept with ⟨none, -⟩ | ⟨alike, path', below', -⟩
      · exact absurd none nofun
      · obtain ⟨kid, others⟩ := List.forall_mem_cons.mp below'.listed
        have below : Below exact args u.ftsPath ((q', link) :: parents) rest path' :=
          ⟨below'.small, below'.stack, others, below'.starts⟩
        refine Ends.mono (name_within unresolved below (List.cons_ne_nil _ _) kid.1 kid.2) ?_
        exact fun r v arrives => arrives.after (by exact alike)
  · exact cdDotDot_within below

include unresolved in
/-- The next root is loaded. -/
theorem next_root_within {q : Ftsent} (below : Below exact args sp.ftsPath [] (q :: link) above) :
    Within (Arrives exact args sp) (next p [] (q :: link)) sp := by
  obtain ⟨first, listed⟩ := List.forall_mem_cons.mp below.listed
  unfold next
  apply Ends.modify_bind
  have root : Unread exact args sp.ftsPath.length q := first
  rw [if_pos root.level]
  apply Ends.bind (restoreInitialCwd_aside _)
  rintro lost t ⟨-, view⟩
  obtain ⟨apart, bytes⟩ := view_eq view
  split_ifs
  · apply Ends.modify_bind
    exact .stopped (by unfold Alike; rw [← apart.options]) rfl
  · have small : t.ftsPath.length ≤ ptrdiffMax := by
      rw [bytes]
      exact below.small
    rw [← show t.ftsPath = sp.ftsPath from bytes] at root listed
    apply Ends.bind (ftsLoad_within root small listed)
    rintro _ u ⟨rfl, apart', shows⟩
    apply Ends.modify_bind
    apply Ends.bind (setupDir_aside _)
    rintro _ v ⟨-, view'⟩
    obtain ⟨apart'', bytes'⟩ := view_eq view'
    rw [← show v.ftsPath = u.ftsPath from bytes'] at shows
    refine Ends.mono (checkForDir_within unresolved shows) ?_
    exact fun r w arrives => arrives.written ((apart''.options.trans apart'.options).trans apart.options)

include unresolved names in
private theorem next_within (below : Below exact args sp.ftsPath parents link above)
    (careful : Careful exact sp (nextBuilt parents link)) :
    Within (Arrives exact args sp) (next p parents link) sp := by
  induction link generalizing p sp with
  | nil =>
    cases parents with
    | nil =>
      unfold next
      dsimp only
      split_ifs
      · exact nofun
      · exact cdDotDot_within below
    | cons entry parents => exact next_end_within unresolved names below careful
  | cons q link ih =>
    cases parents with
    | nil => exact next_root_within unresolved below
    | cons entry parents =>
      obtain ⟨first, listed⟩ := List.forall_mem_cons.mp below.listed
      unfold next
      apply Ends.modify_bind
      obtain ⟨kid, clean⟩ : Kid above sp.ftsPath.length q ∧ Clean q := first
      have below' : Below exact args sp.ftsPath (entry :: parents) link above := { below with listed := listed }
      have inner : q.ftsLevel ≠ rootLevel := ne_of_gt kid.level
      rw [if_neg inner]
      split_ifs with skip follow
      · rw [nextBuilt, if_pos ⟨inner, skip⟩] at careful
        refine Ends.mono (ih below' careful) ?_
        exact fun r v arrives => arrives.written rfl
      · apply Ends.bind (followLink_within unresolved)
        rintro q' t ⟨stays, dirp, view, -⟩
        obtain ⟨apart, bytes⟩ := view_eq view
        have kid : Kid above sp.ftsPath.length { q' with ftsInstr := .noInstr } :=
          kid.stays ⟨stays.address, stays.name, stays.level, stays.pathlen, stays.accpath⟩
        rw [← show t.ftsPath = sp.ftsPath from bytes] at below' kid
        refine Ends.mono (name_within unresolved below' (List.cons_ne_nil _ _) kid (clean.same dirp)) ?_
        exact fun r v arrives => arrives.written apart.options
      · refine Ends.mono (name_within unresolved below' (List.cons_ne_nil _ _) kid clean) ?_
        exact fun r v arrives => arrives.written rfl

theorem Shows.below (shows : Shows exact args sp.ftsPath pos) :
    ∃ above, Below exact args sp.ftsPath pos.parents pos.link above := by
  obtain ⟨small, above, path, stack, listed, sits, shown, -⟩ := shows
  have starts : path <+: sp.ftsPath := (List.prefix_append ..).trans shown
  exact ⟨above, small, stack, listed, ((sits.above_starts stack).trans stem_starts).trans starts⟩

/-- An entry is returned in post-order. -/
theorem leave_within (shows : Shows exact args sp.ftsPath { pos with cur := q }) :
    Within (Arrives exact args sp) (do
      setCur { pos with cur := q }
      leaveDirChecked q (parent pos.parents)
      return some q) sp := by
  apply Ends.modify_bind
  apply Ends.bind (leaveDirChecked_aside _ _ _)
  rintro _ t ⟨-, view⟩
  obtain ⟨apart, bytes⟩ := view_eq view
  rw [← show t.ftsPath = sp.ftsPath from bytes] at shows
  exact Arrives.of_shows (.of_same apart.options) apart.cur shows fun p result => Option.some.inj result

include unresolved names in
private theorem preorder_within {instr : Instr} (shows : Shows exact args sp.ftsPath pos)
    (directory : pos.cur.ftsInfo = .d)
    (careful : Careful exact sp
      (if instr = .skip ∨ sp.ftsOptions.xdev ∧ pos.cur.ftsStatp.stDev ≠ sp.ftsDev then none else some pos.cur)) :
    Within (Arrives exact args sp) (preorder pos instr) sp := by
  have left : Shows exact args sp.ftsPath { pos with cur := { pos.cur with ftsInfo := .dp } } :=
    shows.change ⟨rfl, rfl, rfl, rfl, rfl⟩ shows.clean (.inl directory)
  apply Ends.get_bind
  split_ifs at careful ⊢ with skip
  · apply Ends.bind (close_aside _ sp)
    rintro _ t ⟨-, view⟩
    obtain ⟨apart, bytes⟩ := view_eq view
    rw [← bytes] at left
    exact (leave_within left).mono fun r u arrives => arrives.after apart.alike
  · exact leave_within left
  · obtain ⟨small, above, path, stack, listed, sits, shown, empty⟩ := shows
    have nonempty : path ≠ [] := fun none => (empty none).2 directory
    have starts : path <+: sp.ftsPath := (List.prefix_append ..).trans shown
    apply Ends.bind (ftsBuild_within names small sits.level sits.clean sits.length nonempty shown)
    rintro ⟨head, p⟩ t builds
    have result := builds.below stack sits listed nonempty (careful.not_loses starts sits.length nonempty)
    apply Ends.modify_bind
    cases head with
    | nil =>
      apply Ends.get_bind
      rcases result with ⟨-, halts⟩ | ⟨alike, path', below, shows⟩
      · have stop : t.ftsOptions.stop = true := by rw [halts.2]
        rw [if_pos stop]
        exact .stopped halts.alike stop
      · split_ifs with stop failed
        · exact .stopped alike stop
        · have shows := (shows rfl).change (q := { p with ftsInfo := .err }) ⟨rfl, rfl, rfl, rfl, rfl⟩ builds.clean
            (.inr fun _ => nofun)
          refine Ends.mono (leave_within shows) ?_
          exact fun r u arrives => arrives.after (by exact alike)
        · refine Ends.mono (leave_within (shows rfl)) ?_
          exact fun r u arrives => arrives.after (by exact alike)
    | cons child rest =>
      rcases result with ⟨none, -⟩ | ⟨alike, path', below, -⟩
      · exact absurd none nofun
      · obtain ⟨kid, others⟩ := List.forall_mem_cons.mp below.listed
        have below : Below exact args t.ftsPath ((p, pos.link) :: pos.parents) rest path' :=
          ⟨below.small, below.stack, others, below.starts⟩
        refine Ends.mono (name_within unresolved below (List.cons_ne_nil _ _) kid.1 kid.2) ?_
        exact fun r u arrives => arrives.after (by exact alike)

/-- The directory that the next call of `fts_read` reads, if it reads one. -/
def built (sp : FTS env) : Option Ftsent :=
  match sp.ftsCur with
  | none => none
  | some pos =>
    let instr := pos.cur.ftsInstr
    let p : Ftsent := { pos.cur with ftsInstr := .noInstr }
    if sp.ftsOptions.stop ∨ instr = .again ∨ instr = .follow ∧ (p.ftsInfo = .sl ∨ p.ftsInfo = .slnone) then none
    else if p.ftsInfo = .d then
      if instr = .skip ∨ sp.ftsOptions.xdev ∧ p.ftsStatp.stDev ≠ sp.ftsDev then none else some p
    else nextBuilt pos.parents pos.link

include unresolved names in
/-- From a position at an entry. -/
theorem shown_within (shows : Shows exact args sp.ftsPath pos) (current : sp.ftsCur = some pos)
    (careful : Careful exact sp (built sp)) : Within (Arrives exact args sp) ftsRead sp := by
  have same : Stays pos.cur { pos.cur with ftsInstr := .noInstr } := ⟨rfl, rfl, rfl, rfl, rfl⟩
  have fresh : Shows exact args sp.ftsPath { pos with cur := { pos.cur with ftsInstr := .noInstr } } := by
    obtain ⟨small, above, path, stack, listed, sits, shown, empty⟩ := shows
    exact ⟨small, above, path, stack, listed, sits.stays same sits.clean, shown, empty⟩
  unfold built at careful
  rw [current] at careful
  apply Ends.get_bind
  rw [current]
  dsimp only at careful ⊢
  split_ifs with stop again follow directory
  · exact .stopped (.of_same rfl) stop
  · apply Ends.modify_bind
    apply Ends.bind (ftsStat_within unresolved)
    rintro p t ⟨stays, dirp, view, info⟩
    obtain ⟨apart, bytes⟩ := view_eq view
    have shows := fresh.change stays (fresh.clean.same dirp) (.inr info)
    rw [← show t.ftsPath = sp.ftsPath from bytes] at shows
    exact Arrives.of_shows (.of_same apart.options) rfl shows fun q result => Option.some.inj result
  · apply Ends.modify_bind
    apply Ends.bind (followLink_within unresolved)
    rintro p t ⟨stays, dirp, view, info⟩
    obtain ⟨apart, bytes⟩ := view_eq view
    have shows := fresh.change stays (fresh.clean.same dirp) (.inr info)
    rw [← show t.ftsPath = sp.ftsPath from bytes] at shows
    exact (checkForDir_within unresolved shows).mono fun r u arrives => arrives.written apart.options
  · apply Ends.modify_bind
    rw [if_neg (not_or.mpr ⟨stop, not_or.mpr ⟨again, follow⟩⟩), if_pos directory] at careful
    refine Ends.mono (preorder_within unresolved names fresh directory careful) ?_
    exact fun r u arrives => arrives.written rfl
  · apply Ends.modify_bind
    rw [if_neg (not_or.mpr ⟨stop, not_or.mpr ⟨again, follow⟩⟩), if_neg directory] at careful
    obtain ⟨above, below⟩ := fresh.below
    refine Ends.mono (next_within unresolved names below careful) ?_
    exact fun r u arrives => arrives.written rfl

include unresolved names in
theorem ftsRead_within (fits : Fits exact args sp) (careful : Careful exact sp (built sp)) :
    Within (Arrives exact args sp) ftsRead sp := by
  cases current : sp.ftsCur with
  | none =>
    apply Ends.get_bind
    rw [current]
    exact ⟨.of_same rfl, fun _ pos member => absurd (current.symm.trans member) nofun, fun _ absent => absurd absent nofun⟩
  | some pos =>
    cases stop : sp.ftsOptions.stop with
    | true =>
      apply Ends.get_bind
      rw [current]
      dsimp only
      rw [if_pos stop]
      exact .stopped (.of_same rfl) stop
    | false =>
      rcases fits stop pos current with starts | shows
      · have below : Below exact args sp.ftsPath pos.parents pos.link [] := by
          rw [starts.parents]
          exact ⟨starts.small, rfl, starts.roots, List.nil_prefix⟩
        unfold built at careful
        apply Ends.get_bind
        rw [current] at careful ⊢
        dsimp only at careful ⊢
        rw [starts.info, starts.instr, stop] at careful
        rw [starts.info, starts.instr, stop]
        apply Ends.modify_bind
        refine Ends.mono (next_within unresolved names below careful) ?_
        exact fun r u arrives => arrives.written rfl
      · exact shown_within unresolved names shows current careful

end Reads

end Steps

end Yalibct.Fts.Path

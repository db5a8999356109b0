import Yalibct.Soundness.FtsBuild

/-! # Traversals in a virtual working directory

In every run without failures that follows no link, the ring holds the ancestors of the current
directory whenever it is checked, and an entry is returned with the descriptor of its own directory.
-/

namespace Yalibct.Fts

open Machine

variable {env : Env} {fails : Fault → FTS env → Prop} {sp sp' : FTS env} {vs : List ℤ} {d : env.fs.Node}
variable {ds : List env.fs.Node} {dirs : List ℕ} {p q : Ftsent} {arg : List UInt8} {link : List Ftsent}
variable {parents : List (Ftsent × List Ftsent)} {pos : Position}

/-! ## Between two calls -/

/-- A list of entries that are still to be read, in the directory that the stream is in. -/
structure Amid (sp : FTS env) (arg : List UInt8) (ds : List env.fs.Node) (link : List Ftsent)
    (parents : List (Ftsent × List Ftsent)) : Prop where
  stands : ∃ vs, Stands sp vs ds (dirFds parents)
  waits : ∀ q ∈ link, Waits sp ds arg q
  above : Above sp arg parents ds
  spelled : ds ≠ [] → Spelled sp ds arg
  virtual : sp.ftsOptions.Virtual

theorem Amid.moved (amid : Amid sp arg ds link parents) (stands : ∃ vs, Stands sp' vs ds (dirFds parents))
    (moved : Moved sp sp') (spelled : ds ≠ [] → Spelled sp' ds arg) : Amid sp' arg ds link parents :=
  ⟨stands, waits_moved amid.waits moved, amid.above.moved moved, spelled, moved.virtual amid.virtual⟩

theorem Amid.grown (amid : Amid sp arg ds link parents) (stands : ∃ vs, Stands sp' vs ds (dirFds parents))
    (grown : Grown sp sp') : Amid sp' arg ds link parents :=
  amid.moved stands grown.toMoved fun nonempty => (amid.spelled nonempty).grown grown

theorem Amid.setCur (amid : Amid sp arg ds link parents) (cur : Option Position) :
    Amid { sp with ftsCur := cur } arg ds link parents := by
  obtain ⟨vs, stands⟩ := amid.stands
  exact amid.grown ⟨vs, stands.beside ⟨⟨rfl, rfl⟩, rfl, rfl, rfl, rfl⟩⟩ ⟨⟨rfl, rfl⟩, List.prefix_rfl⟩

theorem Amid.tail (amid : Amid sp arg ds (p :: link) parents) : Amid sp arg ds link parents :=
  ⟨amid.stands, (List.forall_mem_cons.mp amid.waits).2, amid.above, amid.spelled, amid.virtual⟩

/-- In the directory of an entry, before the entries that were read. -/
theorem Inside.amid (inside : Inside sp d ds (dirFds parents) arg link p) {others : List Ftsent}
    (waits : ∀ q ∈ others, Waits sp ds arg q) (above : Above sp arg parents ds) (spelled : Spelled sp (d :: ds) arg)
    (virtual : sp.ftsOptions.Virtual) : Amid sp arg (d :: ds) link ((p, others) :: parents) :=
  ⟨inside.stands, inside.waits, ⟨inside.opened, waits, above⟩, fun _ => spelled, virtual⟩

theorem Amid.checks (amid : Amid sp arg ds link parents) : ∀ c ∈ sp.checks, c.Sound := by
  obtain ⟨vs, stands⟩ := amid.stands
  exact stands.checks

/-- The directory above is one. -/
theorem Above.directory (above : Above sp arg parents ds) : ∀ d ∈ ds.head?, (env.fs.stat d).stMode = some .directory := by
  cases ds with
  | nil => exact nofun
  | cons d ds =>
    cases parents with
    | nil => exact absurd above id
    | cons entry parents =>
      rintro _ ⟨⟩
      exact above.1.directory

/-- An entry that was returned, with the rest of its list. -/
structure Rests (sp : FTS env) (arg : List UInt8) (ds : List env.fs.Node) (pos : Position) : Prop where
  amid : Amid sp arg ds pos.link pos.parents
  visited : Visited sp ds arg pos.cur
  spelled : Spelled sp ds arg

theorem Visited.moved (visited : Visited sp ds arg p) (moved : Moved sp sp') : Visited sp' ds arg p :=
  ⟨visited.placed, visited.closed, visited.found.moved moved⟩

theorem Rests.grown (rests : Rests sp arg ds pos) (stands : ∃ vs, Stands sp' vs ds (dirFds pos.parents))
    (grown : Grown sp sp') : Rests sp' arg ds pos :=
  ⟨rests.amid.grown stands grown, rests.visited.moved grown.toMoved, rests.spelled.grown grown⟩

/-- A change that no list and no directory depends on. -/
theorem Rests.beside (rests : Rests sp arg ds pos) (beside : Beside sp sp') (path : sp'.ftsPath = sp.ftsPath) :
    Rests sp' arg ds pos := by
  obtain ⟨vs, stands⟩ := rests.amid.stands
  exact rests.grown ⟨vs, stands.beside beside⟩ ⟨beside.toMoved, path ▸ List.prefix_rfl⟩

theorem Rests.setCur (rests : Rests sp arg ds pos) (cur : Option Position) :
    Rests { sp with ftsCur := cur } arg ds pos := rests.beside ⟨⟨rfl, rfl⟩, rfl, rfl, rfl, rfl⟩ rfl

theorem Rests.same (rests : Rests sp arg ds pos) (same : Leaves sp.kernel.fds sp sp') : Rests sp' arg ds pos :=
  rests.beside same.beside same.kept.path

/-- How a call of `fts_read` ends: the traversal is ended, or the current entry may be returned. -/
def Returns (r : Option Ftsent) (sp : FTS env) : Prop :=
  r = none ∧ (sp.ftsOptions.stop = true ∨ sp.ftsCur = none) ∧ (∀ c ∈ sp.checks, c.Sound) ∨
  ∃ pos ds arg, sp.ftsCur = some pos ∧ Rests sp arg ds pos ∧ ∀ p ∈ r, p = pos.cur

section Unfailing

variable (reliable : env.Reliable)

/-- The current entry is made out anew. -/
theorem Rests.set (rests : Rests sp arg ds pos) (visited : Visited sp ds arg p) :
    Rests sp arg ds { pos with cur := p } :=
  ⟨rests.amid, visited, rests.spelled⟩

include reliable in
theorem restat_spec (rests : Rests sp arg ds pos) :
    Ends fails (fun q sp' => Rests sp' arg ds { pos with cur := q }) (ftsStat pos.cur false) sp := by
  obtain ⟨vs, stands⟩ := rests.amid.stands
  have visited := rests.visited
  apply (ftsStat_spec reliable rests.amid.virtual stands.base visited.placed.level).mono
  rintro q t ⟨same, found, closed, leaves⟩
  apply (rests.same leaves).set
  rw [visited.placed.accpath rests.spelled] at found
  refine ⟨visited.placed.same same, closed.trans visited.closed, ?_⟩
  rw [same]
  rw [same] at found
  exact found

include reliable in
theorem statDeferred_spec (rests : Rests sp arg ds pos) :
    Ends Excused (fun q sp' => Rests sp' arg ds { pos with cur := q }) (statDeferred pos.cur) sp := by
  unfold statDeferred
  split_ifs
  · exact restat_spec reliable rests
  · exact rests
  · exact Excused.assertion rests.amid.checks
  · exact rests

theorem Found.entered {path : List UInt8} (found : Found sp ds path p) (entered : Entered p q) : Found sp ds path q := by
  rcases entered with rfl | ⟨ent, rfl⟩
  · exact found
  · exact .ofInfo nofun

theorem Visited.entered (visited : Visited sp ds arg p) (entered : Entered p q) : Visited sp ds arg q := by
  refine ⟨visited.placed.same entered.same, entered.dirp.trans visited.closed, ?_⟩
  have found := visited.found.entered entered
  rw [entered.same]
  rw [entered.same] at found
  exact found

include reliable in
theorem checkForDir_spec (rests : Rests sp arg ds pos) : Ends Excused Returns (checkForDir pos) sp := by
  apply Ends.modify_bind
  have rests := rests.setCur (some pos)
  refine .bind (statDeferred_spec reliable rests) fun p t rests => ?_
  refine .modify_bind ?_
  have rests := rests.setCur (some { pos with cur := p })
  split
  · apply Ends.modify_bind
    have rests : Rests { t with
        ftsCur := some { pos with cur := p }
        ftsDev := if p.ftsLevel = rootLevel then p.ftsStatp.stDev else t.ftsDev } arg ds { pos with cur := p } :=
      rests.beside ⟨⟨rfl, rfl⟩, rfl, rfl, rfl, rfl⟩ rfl
    obtain ⟨ws, stands⟩ := rests.amid.stands
    apply Ends.bind (enterDir_spec reliable stands)
    rintro ⟨success, q⟩ u ⟨entered, steady, stands⟩
    have rests := rests.grown ⟨ws, stands⟩ steady.grown
    have rests := rests.set (rests.visited.entered entered)
    apply Ends.modify_bind
    have rests := rests.setCur (some { pos with cur := q })
    split_ifs
    · exact .inr ⟨_, ds, arg, rfl, rests, fun _ equal => (Option.some.inj equal).symm⟩
    · refine .bind setErrno_spec fun _ w same => ?_
      have cur : w.ftsCur = some { pos with cur := q } := by rw [same.rest]
      exact .inr ⟨_, ds, arg, cur, rests.same same, fun _ member => absurd member (Option.not_mem_none _)⟩
  · exact .inr ⟨_, ds, arg, rfl, rests, fun _ equal => (Option.some.inj equal).symm⟩

/-! ## To the next entry -/

include reliable in
theorem name_spec (amid : Amid sp arg (d :: ds) link parents) (waits : Waits sp (d :: ds) arg p) :
    Ends Excused Returns (name ⟨p, link, parents⟩) sp := by
  have spelled := amid.spelled (List.cons_ne_nil d ds)
  have placed := waits.placed (List.cons_ne_nil d ds)
  obtain ⟨vs, stands⟩ := amid.stands
  unfold name
  cases parents with
  | nil => exact absurd amid.above id
  | cons entry above =>
    obtain ⟨q, others⟩ := entry
    apply Ends.bind (nappend_spec stands.checks)
    rintro t u ⟨unchanged, place⟩
    have place : t = q.ftsPathlen ∨ t + 1 = q.ftsPathlen ∧ sp.ftsPath[t]? = some slash := place
    rw [unchanged]
    apply Ends.bind (writePath_spec stands.checks)
    rintro _ w ⟨bound, rfl⟩
    have long : arg.length ≤ q.ftsPathlen := amid.above.1.placed.long
    have inside : t ≤ sp.ftsPath.length := by omega
    have buffer : arg <+: overwrite sp.ftsPath t (slash :: p.ftsName ++ [0]) := by
      rcases place with rfl | ⟨last, there⟩
      · exact prefix_overwrite spelled.buffer inside long
      · exact prefix_overwrite_slash spelled.buffer there (by omega)
    have moved : Moved sp { sp with ftsPath := overwrite sp.ftsPath t (slash :: p.ftsName ++ [0]) } := ⟨rfl, rfl⟩
    have spelled : Spelled { sp with ftsPath := overwrite sp.ftsPath t (slash :: p.ftsName ++ [0]) } (d :: ds) arg :=
      ⟨spelled.string, buffer, nofun⟩
    apply checkForDir_spec reliable
    refine ⟨amid.moved ⟨vs, stands.beside ⟨⟨rfl, rfl⟩, rfl, rfl, rfl, rfl⟩⟩ moved fun _ => spelled, ⟨placed, waits.closed, ?_⟩, spelled⟩
    exact waits.found.moved moved

private theorem prefix_overwrite_nul {bytes : List UInt8} (starts : arg <+: bytes)
    (inside : arg.length ≤ bytes.length) :
    arg ++ [0] <+: overwrite bytes arg.length [0] := by
  obtain ⟨rest, rfl⟩ := starts
  rw [overwrite, List.take_left]
  exact List.prefix_append ..

include reliable in
/-- The way back to the directory that an entry is in. -/
theorem leaveEntries_spec (virtual : sp.ftsOptions.Virtual) (stands : Stands sp vs (d :: ds) dirs)
    (placed : Placed env ds arg p) (above : Above sp arg parents ds) :
    Ends fails (fun r sp' => r.1 = false ∧ Kept sp sp' ∧ ∃ ws, Stands sp' ws ds dirs) (leaveEntries p parents) sp := by
  unfold leaveEntries
  have root := placed.root
  cases ds with
  | nil =>
    rw [if_pos (beq_iff_eq.mp root)]
    apply Ends.bind (restore_spec reliable virtual stands)
    rintro _ t ⟨rfl, kept, stands⟩
    exact ⟨rfl, kept, [], stands⟩
  | cons u us =>
    rw [if_neg (beq_eq_false_iff_ne.mp root), placed.straight, placed.chdir]
    apply Ends.bind (changedirUp_spec reliable virtual stands above)
    rintro _ t ⟨rfl, kept, stands⟩
    exact ⟨rfl, kept, stands⟩

include reliable in
/-- In the directory of an entry, after its own. -/
theorem arrive_spec {errno : Errno} (amid : Amid sp arg ds link parents) (spelled : Spelled sp ds arg)
    (placed : Placed env ds arg p) (closed : p.ftsDirp = none) :
    Ends Excused Returns (arrive p link parents false errno) sp := by
  -- The entry, after its last visit or with the flag of a cycle.
  have returned : ∀ {q : Ftsent}, Same p q → q.ftsInfo ≠ .d → q.ftsDirp = none → Ends Excused Returns (do
      setCur ⟨q, link, parents⟩
      if q.ftsInfo = .dp then leaveDirChecked q (parent parents)
      return if (← get).ftsOptions.stop then none else some q) sp := by
    intro q same info closed
    have rests : Rests sp arg ds ⟨q, link, parents⟩ := ⟨amid, ⟨placed.same same, closed, .ofInfo info⟩, spelled⟩
    have last : ∀ {t : FTS env}, t.ftsCur = some ⟨q, link, parents⟩ → Rests t arg ds ⟨q, link, parents⟩ →
        Ends Excused Returns (do return if (← get).ftsOptions.stop then none else some q) t := by
      intro t cur rests
      refine .get_bind (.inr ⟨_, ds, arg, cur, rests, fun r member => ?_⟩)
      split_ifs at member
      · exact absurd member (Option.not_mem_none _)
      · exact (Option.some.inj member).symm
    have rests := rests.setCur (some ⟨q, link, parents⟩)
    apply Ends.modify_bind
    split_ifs
    · obtain ⟨vs, stands⟩ := rests.amid.stands
      apply Ends.bind (leaveDirChecked_spec reliable stands)
      rintro _ t ⟨steady, stands⟩
      exact last steady.cur (rests.grown ⟨vs, stands⟩ steady.grown)
    · exact last rfl rests
  unfold arrive
  simp only [Bool.false_eq_true, ↓reduceIte]
  by_cases cycle : p.ftsInfo ≠ .dc
  · rw [if_pos cycle]
    refine returned rfl ?_ closed
    dsimp only
    split_ifs <;> nofun
  · rw [if_neg cycle]
    exact returned rfl (fun info => cycle (info ▸ nofun)) closed

include reliable in
/-- Up to the directory above, when the list of entries is at its end. -/
theorem cdDotDot_spec (amid : Amid sp arg ds [] parents) (closed : ∀ entry ∈ parents.head?, entry.1.ftsDirp = none) :
    Ends Excused Returns (cdDotDot parents) sp := by
  obtain ⟨vs, stands⟩ := amid.stands
  cases parents with
  | nil =>
    refine .modify_bind (.bind setErrno_spec fun _ t same => .inl ⟨rfl, .inr ?_, ?_⟩)
    · rw [same.rest]
    · rw [same.checks]
      exact stands.checks
  | cons entry above =>
    obtain ⟨p, others⟩ := entry
    cases ds with
    | nil => exact absurd amid.above id
    | cons d ds =>
      obtain ⟨opened, waits, higher⟩ := amid.above
      have spelled := amid.spelled (List.cons_ne_nil d ds)
      have stands : Stands sp vs (d :: ds) (dirFds above) := by
        have none : held p = [] := by rw [held, closed _ rfl]; rfl
        have stands : Stands sp vs (d :: ds) (held p ++ dirFds above) := stands
        rw [none] at stands
        exact stands
      apply Ends.modify_bind
      split_ifs
      · exact Excused.assertion stands.checks
      refine .bind (writePath_spec stands.checks) ?_
      rintro _ t ⟨bound, written⟩
      have inside : p.ftsPathlen ≤ sp.ftsPath.length := Nat.le_of_succ_le bound
      have moved : Moved sp t := written ▸ ⟨rfl, rfl⟩
      have spelled : Spelled t ds arg := by
        rw [written]
        refine ⟨spelled.string, prefix_overwrite spelled.buffer inside opened.placed.long, fun first => ?_⟩
        have length := (opened.placed.first first).2
        dsimp only
        rw [length] at inside ⊢
        exact prefix_overwrite_nul spelled.buffer inside
      have stands : Stands t vs (d :: ds) (dirFds above) := by
        rw [written]
        exact stands.beside ⟨⟨rfl, rfl⟩, rfl, rfl, rfl, rfl⟩
      refine .bind (leaveEntries_spec reliable (moved.virtual amid.virtual) stands opened.placed
        (higher.moved moved)) ?_
      rintro ⟨lost, errno⟩ u ⟨rfl, kept, ws, stands⟩
      have spelled := spelled.grown kept.grown
      have moved : Moved sp u := ⟨kept.options.trans moved.options, kept.cwd.trans moved.cwd⟩
      have amid : Amid u arg ds others above := ⟨⟨ws, stands⟩, waits_moved waits moved, higher.moved moved,
        fun _ => spelled, moved.virtual amid.virtual⟩
      have placed := opened.placed
      exact arrive_spec reliable amid spelled placed (closed _ rfl)

include reliable in
theorem setupDir_spec :
    Ends fails (fun _ sp' => Beside sp sp' ∧ sp'.ftsPath = sp.ftsPath ∧ sp'.ftsCur = sp.ftsCur) setupDir sp := by
  apply Ends.get_bind
  split_ifs
  · apply Ends.bind (request_spec reliable)
    rintro _ t ⟨rfl, same⟩
    exact ⟨same.beside.trans ⟨⟨rfl, rfl⟩, rfl, rfl, rfl, rfl⟩, same.kept.path, same.kept.cur⟩
  · apply Ends.bind (allocated_spec reliable)
    rintro _ t ⟨rfl, same⟩
    exact ⟨same.beside.trans ⟨⟨rfl, rfl⟩, rfl, rfl, rfl, rfl⟩, same.kept.path, same.kept.cur⟩

/-- A root that is loaded, with the roots after it. -/
theorem ftsLoad_spec (waits : Waits sp [] arg p) (others : ∀ q ∈ link, Waits sp [] arg q) (stands : Stands sp vs [] [])
    (virtual : sp.ftsOptions.Virtual) :
    Ends Excused (fun q sp' => Rests sp' p.ftsName [] ⟨q, link, []⟩) (ftsLoad p) sp := by
  have root := waits.root rfl
  apply Ends.bind (writePath_spec stands.checks)
  rintro _ t ⟨bound, rfl⟩
  have buffer : p.ftsName ++ [0] <+: overwrite sp.ftsPath 0 (p.ftsName ++ [0]) := by
    rw [overwrite, List.take_zero, List.nil_append]
    exact List.prefix_append ..
  have none : ¬ ([] : List env.fs.Node) ≠ [] := fun nonempty => nonempty rfl
  refine ⟨⟨⟨vs, stands.beside ⟨⟨rfl, rfl⟩, rfl, rfl, rfl, rfl⟩⟩, fun q member => ?_, trivial, fun some => absurd some none, virtual⟩,
    ⟨?_, waits.closed, ?_⟩, root.string, (List.prefix_append ..).trans buffer, fun _ => buffer⟩
  · have other := others q member
    exact ⟨other.accpath, other.closed, other.found.moved ⟨rfl, rfl⟩, fun some => absurd some none, other.root⟩
  · exact ⟨root.level, root.chdir, root.straight, root.instr, Nat.le_refl _, fun _ => ⟨rfl, rfl⟩,
      fun _ member => absurd member (Option.not_mem_none _)⟩
  · intro info
    exact ⟨fun some => absurd some none, (waits.found info).2⟩

include reliable in
theorem next_nil_spec (tmp : Ftsent) (amid : Amid sp arg ds [] parents) :
    Ends Excused Returns (next tmp parents []) sp := by
  cases parents with
  | nil =>
    unfold next
    dsimp only
    split_ifs
    · exact ⟨⟨nofun, nofun⟩, amid.checks⟩
    · exact cdDotDot_spec reliable amid fun _ member => absurd member (Option.not_mem_none _)
  | cons entry above =>
    obtain ⟨p, others⟩ := entry
    unfold next
    dsimp only
    split_ifs with isOpen
    · apply Ends.modify_bind
      obtain ⟨vs, stands⟩ := amid.stands
      refine .bind (writePath_spec stands.checks) ?_
      rintro _ t ⟨bound, written⟩
      cases ds with
      | nil => exact absurd amid.above id
      | cons d ds =>
        obtain ⟨opened, waits, higher⟩ := amid.above
        have moved : Moved sp t := written ▸ ⟨rfl, rfl⟩
        have inside : p.ftsPathlen ≤ sp.ftsPath.length := Nat.le_of_succ_le bound
        have spelled : Spelled t (d :: ds) arg := by
          have spelled := amid.spelled (List.cons_ne_nil d ds)
          rw [written]
          exact ⟨spelled.string, prefix_overwrite spelled.buffer inside opened.placed.long, nofun⟩
        have stands : Stands t vs (d :: ds) (held p ++ dirFds above) := by
          rw [written]
          exact stands.beside ⟨⟨rfl, rfl⟩, rfl, rfl, rfl, rfl⟩
        have virtual := moved.virtual amid.virtual
        apply Ends.bind (ftsBuild_next_spec reliable virtual stands (opened.moved moved) isOpen)
        rintro ⟨head, q⟩ u (⟨rfl, halted⟩ | ⟨grown, inside⟩)
        · refine .modify_bind (.get_bind ?_)
          rw [if_pos halted.stop]
          exact .inl ⟨rfl, .inl halted.stop, halted.checks⟩
        · have amid := (inside.amid (waits_moved (waits_moved waits moved) grown.toMoved)
            ((higher.moved moved).moved grown.toMoved) (spelled.grown grown) (grown.virtual virtual)).setCur
            (some ⟨q, others, above⟩)
          apply Ends.modify_bind
          cases head with
          | nil =>
            apply Ends.get_bind
            split_ifs with stopped
            · exact .inl ⟨rfl, .inl stopped, amid.checks⟩
            · apply cdDotDot_spec reliable amid
              rintro _ ⟨⟩
              exact inside.ended rfl
          | cons child rest => exact name_spec reliable amid.tail (amid.waits child (List.mem_cons_self ..))
    · apply cdDotDot_spec reliable amid
      rintro _ ⟨⟩
      exact Option.not_isSome_iff_eq_none.mp isOpen

include reliable in
theorem next_spec (tmp : Ftsent) (amid : Amid sp arg ds link parents) :
    Ends Excused Returns (next tmp parents link) sp := by
  induction link generalizing sp tmp with
  | nil => exact next_nil_spec reliable tmp amid
  | cons p link ih =>
    obtain ⟨waits, others⟩ := List.forall_mem_cons.mp amid.waits
    obtain ⟨vs, stands⟩ := amid.stands
    apply Ends.modify_bind
    have stands : Stands { sp with ftsCur := some ⟨p, link, parents⟩ } vs ds (dirFds parents) :=
      stands.beside ⟨⟨rfl, rfl⟩, rfl, rfl, rfl, rfl⟩
    have moved : Moved sp { sp with ftsCur := some ⟨p, link, parents⟩ } := ⟨rfl, rfl⟩
    cases ds with
    | nil =>
      cases parents with
      | cons entry above => exact absurd amid.above id
      | nil =>
        rw [if_pos (waits.root rfl).level]
        apply Ends.bind (restore_spec reliable (moved.virtual amid.virtual) stands)
        rintro _ t ⟨rfl, kept, stands⟩
        have moved : Moved sp t := ⟨kept.options.trans moved.options, kept.cwd.trans moved.cwd⟩
        refine .bind (ftsLoad_spec (waits.moved moved) (waits_moved others moved) stands
          (moved.virtual amid.virtual)) fun q u rests => ?_
        apply Ends.modify_bind
        have rests := rests.setCur (some ⟨q, link, []⟩)
        apply Ends.bind (setupDir_spec reliable)
        rintro _ w ⟨beside, path, -⟩
        exact checkForDir_spec reliable (rests.beside beside path)
    | cons d ds =>
      have placed := waits.placed (List.cons_ne_nil d ds)
      have inner : p.ftsLevel ≠ rootLevel := beq_eq_false_iff_ne.mp placed.root
      have amid : Amid { sp with ftsCur := some ⟨p, link, parents⟩ } arg (d :: ds) link parents :=
        ⟨⟨vs, stands⟩, waits_moved others moved, amid.above.moved moved,
          fun some => ⟨(amid.spelled some).string, (amid.spelled some).buffer, nofun⟩, amid.virtual⟩
      rw [if_neg inner, if_neg placed.instr]
      split_ifs
      · exact ih p amid
      · exact name_spec reliable amid (waits.moved moved)

/-! ## `fts_read` -/

include reliable in
/-- The last visit of a directory that was not read. -/
theorem leave_spec (rests : Rests sp arg ds pos) (visited : Visited sp ds arg p) :
    Ends Excused Returns (do
      setCur { pos with cur := p }
      leaveDirChecked p (parent pos.parents)
      return some p) sp := by
  have rests := (rests.set visited).setCur (some { pos with cur := p })
  obtain ⟨vs, stands⟩ := rests.amid.stands
  refine .modify_bind (.bind (leaveDirChecked_spec reliable stands) ?_)
  rintro _ t ⟨steady, stands⟩
  exact .inr ⟨_, ds, arg, steady.cur, rests.grown ⟨vs, stands⟩ steady.grown, fun _ equal => (Option.some.inj equal).symm⟩

include reliable in
theorem preorder_spec {instr : Instr} (tree : Tree env.fs) (rests : Rests sp arg ds pos) (info : pos.cur.ftsInfo = .d) :
    Ends Excused Returns (preorder pos instr) sp := by
  obtain ⟨vs, stands⟩ := rests.amid.stands
  have visited := rests.visited
  apply Ends.get_bind
  dsimp only
  split
  · rw [if_neg (ne_of_eq_of_ne visited.placed.straight Bool.false_ne_true)]
    exact leave_spec reliable rests ⟨visited.placed.same rfl, visited.closed, .ofInfo nofun⟩
  · refine .bind (ftsBuild_spec reliable tree rests.amid.virtual stands visited info rests.spelled
      rests.amid.above.directory rests.amid.above) ?_
    rintro ⟨head, p⟩ t (⟨rfl, halted⟩ | ⟨grown, ⟨rfl, stands, visited⟩ | ⟨nonempty, d, inside⟩⟩)
    · refine .modify_bind (.get_bind ?_)
      rw [if_pos halted.stop]
      exact .inl ⟨rfl, .inl halted.stop, halted.checks⟩
    · have rests := ((rests.grown stands grown).set visited).setCur (some { pos with cur := p })
      refine .modify_bind (.get_bind ?_)
      split
      · rename_i stopped
        exact .inl ⟨rfl, .inl stopped, rests.amid.checks⟩
      · apply leave_spec reliable rests
        have visited := rests.visited
        split_ifs
        · exact ⟨visited.placed.same rfl, visited.closed, .ofInfo nofun⟩
        · exact visited
    · have amid := (inside.amid (waits_moved rests.amid.waits grown.toMoved) (rests.amid.above.moved grown.toMoved)
        ((rests.spelled.grown grown).below d) (grown.virtual rests.amid.virtual)).setCur (some { pos with cur := p })
      apply Ends.modify_bind
      cases head with
      | nil => exact absurd rfl nonempty
      | cons child rest => exact name_spec reliable amid.tail (amid.waits child (List.mem_cons_self ..))

/-- A stream whose first entry is not yet read. -/
structure Before (sp : FTS env) (pos : Position) : Prop where
  info : pos.cur.ftsInfo = .init
  instr : pos.cur.ftsInstr = .noInstr
  top : pos.parents = []
  amid : Amid sp [] [] pos.link []

/-- What holds between the calls of a traversal. -/
structure Valid (sp : FTS env) : Prop where
  checks : ∀ c ∈ sp.checks, c.Sound
  current : sp.ftsOptions.stop = false → ∀ pos ∈ sp.ftsCur, Before sp pos ∨ ∃ ds arg, Rests sp arg ds pos

theorem Returns.valid {r : Option Ftsent} (returns : Returns r sp) : Valid sp := by
  rcases returns with ⟨-, ended, checks⟩ | ⟨pos, ds, arg, cur, rests, -⟩
  · refine ⟨checks, fun going pos member => ?_⟩
    rcases ended with stop | none
    · exact absurd (stop.symm.trans going) (by decide)
    · exact absurd (none ▸ member) (Option.not_mem_none pos)
  · refine ⟨rests.amid.checks, fun _ other member => .inr ⟨ds, arg, ?_⟩⟩
    rw [← Option.some.inj (cur.symm.trans member)]
    exact rests

include reliable in
theorem ftsRead_spec (tree : Tree env.fs) (valid : Valid sp) : Ends Excused Returns ftsRead sp := by
  apply Ends.get_bind
  split
  · rename_i ended
    exact .inl ⟨rfl, .inr ended, valid.checks⟩
  · rename_i pos cur
    split_ifs with stopped
    · exact .inl ⟨rfl, .inl stopped, valid.checks⟩
    have going := Bool.eq_false_iff.mpr stopped
    apply Ends.modify_bind
    rcases valid.current going pos cur with before | ⟨ds, arg, rests⟩
    · simp only [before.instr, before.info, reduceCtorEq, false_and, ↓reduceIte]
      rw [before.top]
      exact next_spec reliable _ (before.amid.setCur _)
    · have visited := rests.visited
      have placed := visited.placed
      have again : Visited sp ds arg { pos.cur with ftsInstr := .noInstr } :=
        ⟨⟨placed.level, placed.chdir, placed.straight, nofun, placed.long, placed.first, placed.inside⟩, visited.closed,
          visited.found⟩
      have rests := (rests.set again).setCur (some { pos with cur := { pos.cur with ftsInstr := .noInstr } })
      split_ifs with revisit follow info
      · refine .bind (restat_spec reliable rests) fun p t rests => ?_
        exact .inr ⟨_, ds, arg, rfl, rests.setCur _, fun _ equal => (Option.some.inj equal).symm⟩
      · exact absurd follow.1 placed.instr
      · exact preorder_spec reliable tree rests info
      · exact next_spec reliable _ rests.amid

end Unfailing

/-! ## `fts_set` -/

section Instructions

variable (address : ℕ) {i : Instr} (other : i ≠ .follow)

/-- An entry, with a new instruction if it is the one at the address. -/
def instructed (address : ℕ) (i : Instr) (p : Ftsent) : Ftsent :=
  if p.address = address then { p with ftsInstr := i } else p

private theorem held_instructed (p : Ftsent) : held (instructed address i p) = held p := by
  unfold instructed
  split_ifs
  · rfl
  · rfl

include other

theorem Placed.instructed (placed : Placed env ds arg p) : Placed env ds arg (instructed address i p) := by
  unfold Fts.instructed
  split_ifs
  · exact ⟨placed.level, placed.chdir, placed.straight, other, placed.long, placed.first, placed.inside⟩
  · exact placed

theorem Waits.instructed (waits : Waits sp ds arg p) : Waits sp ds arg (instructed address i p) := by
  have placed := fun nonempty => (waits.placed nonempty).instructed address other
  unfold Fts.instructed at placed ⊢
  split_ifs at placed ⊢
  · refine ⟨waits.accpath, waits.closed, waits.found, placed, fun first => ?_⟩
    have root := waits.root first
    exact ⟨root.level, root.chdir, root.straight, other, root.string⟩
  · exact waits

theorem Visited.instructed (visited : Visited sp ds arg p) : Visited sp ds arg (instructed address i p) := by
  have placed := visited.placed.instructed address other
  unfold Fts.instructed at placed ⊢
  split_ifs at placed ⊢
  · exact ⟨placed, visited.closed, visited.found⟩
  · exact visited

theorem Opened.instructed (opened : Opened sp d ds arg p) : Opened sp d ds arg (instructed address i p) := by
  have placed := opened.placed.instructed address other
  unfold Fts.instructed at placed ⊢
  split_ifs at placed ⊢
  · exact ⟨placed, opened.directory, opened.recorded, opened.reached, opened.rest⟩
  · exact opened

private theorem waits_instructed (waits : ∀ q ∈ link, Waits sp ds arg q) :
    ∀ q ∈ link.map (instructed address i), Waits sp ds arg q := by
  intro q member
  obtain ⟨p, listed, rfl⟩ := List.mem_map.mp member
  exact (waits p listed).instructed address other

theorem Above.instructed (above : Above sp arg parents ds) :
    Above sp arg (parents.map fun (p, link) => (instructed address i p, link.map (instructed address i))) ds := by
  induction parents generalizing ds with
  | nil => exact above
  | cons entry parents ih =>
    cases ds with
    | nil => exact above
    | cons d ds =>
      obtain ⟨opened, waits, rest⟩ := above
      exact ⟨opened.instructed address other, waits_instructed address other waits, ih rest⟩

theorem Rests.update (rests : Rests sp arg ds pos) :
    Rests sp arg ds (pos.update address fun p => { p with ftsInstr := i }) := by
  obtain ⟨vs, stands⟩ := rests.amid.stands
  have dirs : dirFds (pos.parents.map fun (p, link) => (Fts.instructed address i p, link.map (Fts.instructed address i))) =
      dirFds pos.parents := by
    simp only [dirFds, List.flatMap_map, held_instructed]
  refine ⟨⟨⟨vs, ?_⟩, waits_instructed address other rests.amid.waits, rests.amid.above.instructed address other,
    rests.amid.spelled, rests.amid.virtual⟩, rests.visited.instructed address other, rests.spelled⟩
  exact dirs ▸ stands

end Instructions

theorem ftsSet_spec {address : ℕ} {instr : ℤ} (valid : Valid sp) (shown : ∀ pos, sp.ftsCur = some pos → pos.cur.ftsInfo ≠ .init)
    (other : instr ≠ 2) : Ends fails (fun _ sp' => Valid sp') (ftsSet address instr) sp := by
  unfold ftsSet
  split
  · exact ⟨valid.checks, fun going pos member => (valid.current going pos member).imp
      (fun before => absurd before.info (shown pos member))
      fun ⟨ds, arg, rests⟩ => ⟨ds, arg, rests.beside ⟨⟨rfl, rfl⟩, rfl, rfl, rfl, rfl⟩ rfl⟩⟩
  · rename_i i known
    have other : i ≠ .follow := by
      rintro rfl
      unfold Instr.ofInt at known
      split at known <;> first | exact other rfl | cases known
    refine ⟨valid.checks, fun going pos member => ?_⟩
    obtain ⟨old, cur, rfl⟩ := Option.map_eq_some_iff.mp member
    rcases valid.current going old cur with before | ⟨ds, arg, rests⟩
    · exact absurd before.info (shown old cur)
    · exact .inr ⟨ds, arg, (rests.update address other).setCur _⟩

/-! ## `fts_close` -/

section Closing

variable (reliable : env.Reliable)

include reliable in
/-- The ring is emptied, whether or not the descriptor of the current directory was closed before. -/
private theorem fdRingClear_standing {fds : Descriptors env.fs.Node} {t : FTS env} (stands : Stands sp vs ds dirs)
    (left : Leaves fds sp t) (found : ∀ n ∈ opened vs, (fds.find n).isSome) (distinct : (opened vs).Nodup) :
    Ends fails (fun _ sp' => sp'.ftsFdRing.Holds [] ∧ sp'.kernel.fds = (opened vs).foldl Descriptors.close fds)
      (fdRingClear 4) t := by
  have cleared := @fdRingClear_spec env t vs [] fails reliable 4 (left.ring ▸ stands.ring) stands.ring.bound
    ((congrArg _ left.ring).trans stands.default) (by rwa [List.append_nil, left.fds]) (by rwa [List.append_nil])
  refine cleared.mono fun _ u result => ?_
  obtain ⟨-, -, -, empty, -, -, fds⟩ := result
  exact ⟨empty, left.fds ▸ fds⟩

include reliable in
/-- The descriptor of the current directory is closed, and those that are in the ring. -/
theorem ftsClose_standing (virtual : sp.ftsOptions.Virtual) (stands : Stands sp vs ds dirs) :
    Ends fails (fun r sp' => r = 0 ∧ sp'.ftsFdRing.Holds [] ∧
      sp'.kernel.fds = (opened (sp.ftsCwdFd :: vs)).foldl Descriptors.close sp.kernel.fds) ftsClose sp := by
  have found : ∀ n ∈ opened (sp.ftsCwdFd :: vs), (sp.kernel.fds.find n).isSome := fun n member =>
    stands.isOpen (List.mem_append_left _ member)
  have distinct := stands.distinct.of_append_left
  unfold ftsClose
  apply Ends.get_bind
  simp only [virtual.cwdfd, ↓reduceIte]
  split_ifs with real
  · obtain ⟨n, here⟩ := Int.eq_ofNat_of_zero_le real
    rw [here, opened_natCast] at found distinct
    obtain ⟨fresh, distinct⟩ := List.nodup_cons.mp distinct
    obtain ⟨node, there⟩ := Option.isSome_iff_exists.mp (found n (List.mem_cons_self ..))
    rw [here, opened_natCast, List.foldl_cons]
    apply Ends.bind (close_returns reliable there)
    rintro _ t ⟨rfl, left⟩
    rw [if_neg (not_not_intro rfl)]
    have others : ∀ m ∈ opened vs, ((sp.kernel.fds.close n).find m).isSome := by
      intro m member
      have differ : m ≠ n := by
        rintro rfl
        exact fresh member
      rw [Descriptors.find_close_of_ne differ]
      exact found m (List.mem_cons_of_mem _ member)
    rw [pure_bind]
    refine .bind (fdRingClear_standing reliable stands left others distinct) fun _ u closed => ?_
    rw [if_neg (not_not_intro rfl)]
    exact ⟨rfl, closed⟩
  · have none : opened (sp.ftsCwdFd :: vs) = opened vs := by
      simp [opened, real]
    rw [none] at found distinct ⊢
    rw [pure_bind]
    refine .bind (fdRingClear_standing reliable stands (.refl sp) found distinct) fun _ u closed => ?_
    rw [if_neg (not_not_intro rfl)]
    exact ⟨rfl, closed⟩

end Closing

/-- Between two calls, `fts_close` succeeds and closes all that the ring holds, and the current directory. -/
theorem ftsClose_spec (reliable : env.Reliable) (valid : Valid sp) (going : sp.ftsOptions.stop = false)
    (current : sp.ftsCur = some pos) :
    Ends fails (fun r sp' => r = 0 ∧ sp'.ftsFdRing.Holds [] ∧ ∃ vs, sp.ftsFdRing.Holds vs ∧
      sp'.kernel.fds = (opened (sp.ftsCwdFd :: vs)).foldl Descriptors.close sp.kernel.fds) ftsClose sp := by
  have standing : sp.ftsOptions.Virtual ∧ ∃ vs ds dirs, Stands sp vs ds dirs := by
    rcases valid.current going pos current with before | ⟨ds, arg, rests⟩
    · obtain ⟨vs, stands⟩ := before.amid.stands
      exact ⟨before.amid.virtual, vs, _, _, stands⟩
    · obtain ⟨vs, stands⟩ := rests.amid.stands
      exact ⟨rests.amid.virtual, vs, _, _, stands⟩
  obtain ⟨virtual, vs, ds, dirs, stands⟩ := standing
  refine (ftsClose_standing reliable virtual stands).mono fun r t closed => ?_
  exact ⟨closed.1, closed.2.1, vs, stands.ring, closed.2.2⟩

/-! ## `fts_open` -/

theorem mem_trimSlashes {v : List UInt8} {c : UInt8} (member : c ∈ trimSlashes v) (other : c ≠ slash) : c ∈ v := by
  unfold trimSlashes at member
  split_ifs at member
  · rw [List.mem_reverse, List.mem_cons] at member
    rcases member with rfl | member
    · exact absurd rfl other
    · exact List.mem_reverse.mp ((List.dropWhile_sublist _).subset member)
  · exact member

section Opening

variable (reliable : env.Reliable)

include reliable in
theorem openRoots_spec {argv : List (List UInt8)} {root : List Ftsent} (virtual : sp.ftsOptions.Virtual)
    (here : sp.ftsCwdFd = atFdcwd) (strings : ∀ v ∈ argv, 0 ∉ v) (waits : ∀ p ∈ root, Waits sp [] [] p) :
    Ends fails (fun r sp' => Beside sp sp' ∧ ∀ listed ∈ r, ∀ p ∈ listed, Waits sp' [] [] p) (openRoots argv root) sp := by
  induction argv generalizing sp root with
  | nil =>
    refine ⟨.refl sp, fun listed member => ?_⟩
    rw [← Option.some.inj member]
    exact waits
  | cons v argv ih =>
    obtain ⟨string, strings⟩ := List.forall_mem_cons.mp strings
    refine .get_bind (.bind (ftsAlloc_spec reliable) ?_)
    rintro new t ⟨fresh, same⟩
    cases new with
    | none => exact ⟨same.beside, nofun⟩
    | some p =>
    have fresh := fresh p rfl
    have others : ∀ {u : FTS env} {q : Ftsent}, Beside sp u → Waits u [] [] q →
        Ends fails (fun r sp' => Beside sp sp' ∧ ∀ listed ∈ r, ∀ p ∈ listed, Waits sp' [] [] p)
          (openRoots argv (if env.compar.isSome then q :: root else root ++ [q])) u := by
      intro u q beside first
      have waits := waits_moved waits beside.toMoved
      refine (ih (beside.toMoved.virtual virtual) (beside.cwdFd.trans here) strings ?_).mono ?_
      · split_ifs
        · exact List.forall_mem_cons.mpr ⟨first, waits⟩
        · exact List.forall_mem_append.mpr ⟨waits, List.forall_mem_singleton.mpr first⟩
      · rintro r w ⟨beside', listed⟩
        exact ⟨beside.trans beside', listed⟩
    have name : 0 ∉ p.ftsName := by
      rw [fresh.name]
      split_ifs
      · exact string
      · exact fun member => string (mem_trimSlashes member (by decide))
    dsimp only
    split
    · refine others same.beside ⟨rfl, fresh.closed, .ofInfo nofun, fun some => absurd rfl some, fun _ => ?_⟩
      exact ⟨rfl, fresh.chdir, fresh.straight, ne_of_eq_of_ne fresh.instr nofun, name⟩
    · have base : t.kernel.base t.ftsCwdFd = some (origin t []) := by
        rw [same.cwdFd, here]
        exact if_pos rfl
      apply Ends.bind (ftsStat_spec reliable (same.grown.virtual virtual) base rfl)
      rintro q u ⟨alike, found, closed, same'⟩
      refine others (same.beside.trans same'.beside) ⟨?_, closed.trans fresh.closed, ?_, fun some => absurd rfl some,
        fun _ => ?_⟩
      · rw [alike]
      · rw [alike]
        rw [alike] at found
        exact found
      · rw [alike]
        exact ⟨rfl, fresh.chdir, fresh.straight, ne_of_eq_of_ne fresh.instr nofun, name⟩

include reliable in
theorem openParent_spec {argv : List (List UInt8)} :
    Ends fails (fun _ sp' => Beside sp sp') (openParent argv) sp := by
  unfold openParent
  split_ifs
  · exact (allocated_spec reliable).mono fun _ t result => result.2.beside
  · exact .refl sp

include reliable in
/-- The ring is made when all else of the stream is there. -/
theorem openFirst_spec {root : List Ftsent} (virtual : sp.ftsOptions.Virtual) (here : sp.ftsCwdFd = atFdcwd)
    (checks : sp.checks = []) (waits : ∀ p ∈ root, Waits sp [] [] p) :
    Ends fails (fun r sp' => r = true → Valid sp') (openFirst root) sp := by
  apply Ends.bind (ftsAlloc_spec reliable)
  rintro new t ⟨fresh, same⟩
  cases new with
  | none => exact nofun
  | some cur =>
  have fresh := fresh cur rfl
  refine .modify_bind (.bind (setupDir_spec reliable) ?_)
  rintro success u ⟨beside, path, current⟩
  have moved : Moved sp u := ⟨beside.options.trans same.kept.options, beside.cwd.trans same.cwd⟩
  cases success with
  | false => exact nofun
  | true =>
    have physical : Ends fails (fun _ w => w = u) openRfd u := by
      apply Ends.get_bind
      simp only [(moved.virtual virtual).cwdfd, Bool.not_true, Bool.and_false, Bool.false_eq_true, ↓reduceIte]
      exact rfl
    refine .bind physical fun _ w unchanged => ?_
    rw [unchanged]
    have none : u.checks = [] := (beside.checks.trans same.checks).trans checks
    have base : u.ftsCwdFd = atFdcwd := (beside.cwdFd.trans same.cwdFd).trans here
    have stands : Stands { u with ftsFdRing := .init (-1) } [] [] [] := by
      refine ⟨IRing.holds_init (-1), rfl, ⟨base, rfl⟩, nofun, ?_, .nil, none ▸ nofun⟩
      change (opened [u.ftsCwdFd] ++ []).Nodup
      rw [base]
      exact .nil
    refine fun _ => ⟨none ▸ nofun, fun going pos member => .inl ?_⟩
    rw [← Option.some.inj (current.symm.trans member)]
    exact ⟨rfl, fresh.instr, rfl, ⟨[], stands⟩, waits_moved waits ⟨moved.options, moved.cwd⟩, trivial,
      fun some => absurd rfl some, moved.virtual virtual⟩

include reliable in
theorem ftsOpen_spec {argv : List (List UInt8)} {options : Options} {kernel : Kernel env.fs.Node}
    (cwdfd : options.cwdfd = true) (nochdir : options.nochdir = false) (logical : options.logical = false)
    (strings : ∀ v ∈ argv, 0 ∉ v) :
    Ends fails (fun r sp' => r = true → Valid sp') (ftsOpen argv) (blank options kernel) := by
  apply Ends.get_bind
  change Ends fails _ (if options.nochdir ∧ options.cwdfd ∨ ¬ (options.logical ∨ options.physical) then _ else _) _
  split
  · exact .bind setErrno_spec fun _ t same => nofun
  rename_i accepted
  have physical : options.physical = true := by
    rw [logical] at accepted
    simpa using (not_or.mp accepted).2
  have virtual : options.Virtual := ⟨cwdfd, nochdir, logical, physical⟩
  apply Ends.bind (allocated_spec reliable)
  rintro _ t ⟨rfl, same⟩
  simp only [↓reduceIte]
  have made : Beside { blank options kernel with kernel := t.kernel, ftsCwdFd := atFdcwd }
      { t with ftsOptions := t.ftsOptions.opened, ftsCwdFd := atFdcwd } := by
    rw [same.rest]
    refine ⟨⟨?_, rfl⟩, rfl, rfl, rfl, rfl⟩
    change options.opened = options
    rw [Options.opened, logical]
    rfl
  refine .modify_bind (.bind (ftsPalloc_spec reliable) ?_)
  rintro room u ⟨beside, -⟩
  have made := made.trans beside
  cases room with
  | false => exact nofun
  | true =>
    refine .bind (openParent_spec reliable) fun parent w beside => ?_
    have made := made.trans beside
    cases parent with
    | false => exact nofun
    | true =>
      refine .bind (openRoots_spec reliable (made.toMoved.virtual virtual) made.cwdFd strings
        (List.forall_mem_nil _)) ?_
      rintro roots x ⟨beside, waits⟩
      have made := made.trans beside
      cases roots with
      | none => exact nofun
      | some roots =>
        apply Ends.bind (ftsSortGiven_spec reliable)
        rintro sorted y ⟨perm, beside, path⟩
        have made := made.trans beside
        have waits := waits_moved (waits roots rfl) beside.toMoved
        exact openFirst_spec reliable (made.toMoved.virtual virtual) made.cwdFd made.checks fun p member =>
          waits p (perm.mem_iff.mp member)

end Opening

/-! ## Whole runs -/

/-- The directory that the entries below these ones are in. The path of a root leads from the directory
of the process; other names lead from the directory above. -/
def Holder (sp : FTS env) : List (Ftsent × List Ftsent) → env.fs.Node → Prop
  | [], d => d = sp.kernel.cwd
  | [(p, _)], d => env.fs.resolve sp.kernel.cwd (sp.ftsPath.take p.ftsPathlen) sp.ftsOptions.comfollow = .ok d
  | (p, _) :: entry :: parents, d => ∃ u, Holder sp (entry :: parents) u ∧ env.fs.resolve u p.ftsName false = .ok d

theorem Above.holder (above : Above sp arg parents ds) (buffer : ds ≠ [] → arg <+: sp.ftsPath) :
    Holder sp parents (origin sp ds) := by
  induction parents generalizing ds with
  | nil =>
    cases ds with
    | nil => rfl
    | cons d ds => exact absurd above id
  | cons entry parents ih =>
    obtain ⟨p, link⟩ := entry
    cases ds with
    | nil => exact absurd above id
    | cons d ds =>
      obtain ⟨opened, -, higher⟩ := above
      have starts := buffer (List.cons_ne_nil d ds)
      have reached := opened.reached
      cases ds with
      | nil =>
        cases parents with
        | cons entry parents => exact absurd higher id
        | nil =>
          unfold Holder
          rw [(opened.placed.first rfl).2, ← List.prefix_iff_eq_take.mp starts]
          rw [spelling, if_pos rfl, followsRoot, List.isEmpty_nil, Bool.and_true] at reached
          exact reached
      | cons u us =>
        cases parents with
        | nil => exact absurd higher id
        | cons entry parents =>
          refine ⟨u, ih higher fun _ => starts, ?_⟩
          rw [spelling, if_neg (List.cons_ne_nil u us), followsRoot, List.isEmpty_cons, Bool.and_false] at reached
          exact reached

/-- The calls of a traversal keep what holds between them. -/
theorem valid_step (tree : Tree env.fs) (reliable : env.Reliable) {call : Call} (plain : ∀ address, call ≠ .set address 2)
    (valid : Valid sp) (step : (traversal env).Step sp call sp') : Valid sp' := by
  cases call with
  | read r => exact ((ftsRead_spec reliable tree valid).of_ok step).valid
  | set address instr =>
    obtain ⟨shown, r, ran⟩ := step
    have other : instr ≠ 2 := by
      rintro rfl
      exact plain address rfl
    have sets : Ends (fun _ _ => True) (fun _ sp' => Valid sp') (ftsSet address instr) sp := ftsSet_spec valid shown other
    exact sets.of_ok ran

/-- At every check, the ring holds the ancestors of the current directory, so that no check fails; and
an entry is returned with the descriptor of the directory that it is in. -/
theorem ring_holds_ancestors (tree : Tree env.fs) (reliable : env.Reliable) {argv : List (List UInt8)}
    {options : Options} {kernel : Kernel env.fs.Node} (cwdfd : options.cwdfd = true) (nochdir : options.nochdir = false)
    (logical : options.logical = false) (strings : ∀ v ∈ argv, 0 ∉ v) {s t : FTS env} {calls : List Call}
    (opens : (ftsOpen argv).run (blank options kernel) = .ok true s) (run : Run (traversal env) s calls t)
    (unfollowed : ∀ address, Call.set address 2 ∉ calls) :
    (∀ c ∈ t.checks, c.Sound) ∧
    (∀ e t', ftsRead.run t = .error e t' → e ≠ .ring ∧ e ≠ .advance ∧ ∀ c ∈ t'.checks, c.Sound) ∧
    ∀ p t', ftsRead.run t = .ok (some p) t' → (∀ c ∈ t'.checks, c.Sound) ∧
      ∃ pos d, t'.ftsCur = some pos ∧ pos.cur = p ∧ Holder t' pos.parents d ∧ t'.kernel.base t'.ftsCwdFd = some d := by
  have initial : Valid s := by
    have opened : Ends (fun _ _ => True) (fun r sp' => r = true → Valid sp') (ftsOpen argv) (blank options kernel) :=
      ftsOpen_spec reliable cwdfd nochdir logical strings
    exact opened.of_ok opens rfl
  have valid : Valid t := by
    apply run.invariant_of_events (p := fun call => ∀ address, call ≠ Call.set address 2) Valid
    · exact fun plain valid step => valid_step tree reliable plain valid step
    · intro call member address equal
      exact unfollowed address (equal ▸ member)
    · exact initial
  have reads := ftsRead_spec reliable tree valid
  refine ⟨valid.checks, fun e t' ran => ?_, fun p t' ran => ?_⟩
  · obtain ⟨other, checks⟩ := reads.of_error ran
    exact ⟨other.1, other.2, checks⟩
  · have returns := reads.of_ok ran
    refine ⟨returns.valid.checks, ?_⟩
    rcases returns with ⟨none, -⟩ | ⟨pos, ds, arg, cur, rests, same⟩
    · cases none
    · obtain ⟨vs, stands⟩ := rests.amid.stands
      refine ⟨pos, origin t' ds, cur, (same p rfl).symm, ?_, stands.base⟩
      exact rests.amid.above.holder fun _ => rests.spelled.buffer

/-! ## A chain of directories -/

/-- Directories one below the other, each called `a`. -/
def chain (depth : ℕ) : FileSystem where
  Node := ℕ
  stat d := ⟨1, d, some .directory, 2, 0⟩
  resolve d name _ :=
    if name = dotdot then .ok (d - 1) else if name = [97] ∧ d < depth then .ok (d + 1) else .error .enoent
  entries d := if d < depth then [⟨d + 1, none, [97]⟩] else []

theorem chain_up {depth d c : ℕ} {e : Dirent} (listed : e ∈ (chain depth).entries d)
    (resolved : (chain depth).resolve d e.dName false = .ok c) (follow : Bool) :
    (chain depth).resolve c dotdot follow = .ok d := by
  have other : ([97] : List UInt8) ≠ dotdot := by decide
  dsimp only [chain] at listed resolved ⊢
  split_ifs at listed with below
  · rw [List.mem_singleton.mp listed, if_neg other, if_pos ⟨rfl, below⟩] at resolved
    cases resolved
    exact if_pos rfl
  · cases listed

/-- Nothing fails, and new memory is cleared. -/
def chainEnv (depth : ℕ) : Env where
  fs := chain depth
  fails _ := none
  numbering := .lowest
  table := ⟨Unit, fun _ => none, fun _ _ => none, fun _ _ => none⟩
  compar := none
  qsort _ entries := entries
  qsort_perm _ entries := .refl entries
  maxReaddirEntries := 100000
  inodeSortDirEntriesThreshold := 10000
  inodeSortMayBeUseful _ := false
  leafOptimization _ := false
  rawEntry _ := ⟨0, none, none, .ftsName, 0, 0, 0, 0, [], .init, false, false, .noInstr, .zero⟩
  rawState _ := ⟨⟨0, 0⟩, 0, 0⟩
  rawPath _ size := List.replicate size 0
  length_rawPath _ _ := List.length_replicate

/-- So many calls of `fts_read`. -/
def reads : ℕ → FTS env → Option (FTS env)
  | 0, sp => some sp
  | n + 1, sp =>
    match ftsRead.run sp with
    | .ok _ sp => reads n sp
    | .error _ _ => none

theorem reads_run {n : ℕ} (read : reads n sp = some sp') :
    ∃ calls, Run (traversal env) sp calls sp' ∧ ∀ address instr, Call.set address instr ∉ calls := by
  induction n generalizing sp with
  | zero =>
    cases read
    exact ⟨[], .done _, fun _ _ => List.not_mem_nil⟩
  | succ n ih =>
    unfold reads at read
    split at read
    · rename_i r t first
      obtain ⟨calls, run, plain⟩ := ih read
      refine ⟨.read r :: calls, .step (m := traversal env) first run, fun address instr member => ?_⟩
      rcases List.mem_cons.mp member with equal | member
      · cases equal
      · exact plain address instr member
    · cases read

/-- The stream for the first directory of a chain. -/
def chainOpened (depth : ℕ) : Option (FTS (chainEnv depth)) :=
  match (ftsOpen [[97]]).run (blank { cwdfd := true, physical := true } ⟨0, (0 : ℕ), [], 0, false⟩) with
  | .ok true sp => some sp
  | _ => none

theorem chainOpened_eq_some {depth : ℕ} {s : FTS (chainEnv depth)} (started : chainOpened depth = some s) :
    (ftsOpen [[97]]).run (blank { cwdfd := true, physical := true } ⟨0, (0 : ℕ), [], 0, false⟩) = .ok true s := by
  unfold chainOpened at started
  split at started
  · rename_i opened
    cases started
    exact opened
  · cases started

/-- In a chain of seven directories, the ring runs empty on the way up. -/
theorem chain_ring_holds_ancestors :
    ∃ t : FTS (chainEnv 7),
      t.checks.map (fun c => (c.cwdFd, popAll 4 c.ring)) = [(6, []), (7, [6]), (8, [7, 6]), (9, [8, 7, 6])] ∧
      (∀ c ∈ t.checks, c.Sound) ∧
      (∀ e t', ftsRead.run t = .error e t' → e ≠ .ring ∧ e ≠ .advance ∧ ∀ c ∈ t'.checks, c.Sound) ∧
      ∀ p t', ftsRead.run t = .ok (some p) t' → (∀ c ∈ t'.checks, c.Sound) ∧
        ∃ pos d, t'.ftsCur = some pos ∧ pos.cur = p ∧ Holder t' pos.parents d ∧
          t'.kernel.base t'.ftsCwdFd = some d := by
  have seen : ((chainOpened 7).bind (reads 11)).any fun t => t.checks.map (fun c => (c.cwdFd, popAll 4 c.ring)) =
      [(6, []), (7, [6]), (8, [7, 6]), (9, [8, 7, 6])] := by decide +kernel
  obtain ⟨t, run, seen⟩ := (Option.any_eq_true _ _).mp seen
  obtain ⟨s, started, read⟩ := Option.bind_eq_some_iff.mp run
  have opens := chainOpened_eq_some started
  obtain ⟨calls, run, plain⟩ := reads_run read
  have tree : Tree (chainEnv 7).fs := ⟨fun listed _ resolved _ follow => chain_up listed resolved follow⟩
  exact ⟨t, of_decide_eq_true seen, ring_holds_ancestors tree (fun _ => rfl) rfl rfl rfl (by decide) opens run
    fun address => plain address 2⟩

end Yalibct.Fts

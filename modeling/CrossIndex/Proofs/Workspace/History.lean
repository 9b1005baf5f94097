import CrossIndex.Proofs.Workspace.Recorded
import CrossIndex.Proofs.Workspace.Run

/-!
The history of a workspace. What a workspace answers from can be read off the operations that it has
seen and the trees that they met: the plan of the last start that succeeded, and the tree of the last
scan that succeeded. Main statement: after any operations the workspace follows their history.
-/

namespace CrossIndex

/-- A plan and the tree that it is carried out on. -/
structure Build where
  plan : Plan
  tree : FileTree

namespace Build

/-- The generation that the scan finds, if it succeeds. -/
def generation? (b : Build) : Option Generation := (Generation.build b.tree b.plan).toOption

/-- The scan succeeds. -/
def succeeds (b : Build) : Bool := b.generation?.isSome

/-- What the scan puts in place, if it succeeds. -/
def published? (b : Build) : Option Published := b.generation?.map (Published.mk b.plan)

/-- What is published after a scan has been tried, if it has, with what was published before. -/
def tried (b? : Option Build) (before? : Option Published) : Option Published :=
  (b?.bind published?).or before?

theorem published?_ok {plan : Plan} {tree : FileTree} {g : Generation}
    (h : Generation.build tree plan = .ok g) :
    (Build.mk plan tree).published? = some ⟨plan, g⟩ := by
  rw [published?, generation?, h]
  rfl

theorem published?_error {plan : Plan} {tree : FileTree} {glob : GlobError}
    (h : Generation.build tree plan = .error glob) : (Build.mk plan tree).published? = none := by
  rw [published?, generation?, h]
  rfl

/-- A scan finds the generation of a root that is the one of its plan. -/
theorem root_of_generation? {b : Build} {g : Generation} (h : b.generation? = some g) :
    g.root = b.plan.root := by
  rw [generation?] at h
  cases hb : Generation.build b.tree b.plan with
  | error glob =>
    rw [hb] at h
    cases h
  | ok found =>
    rw [hb] at h
    cases h
    obtain ⟨sources, rfl⟩ := Generation.exists_sources_of_build hb
    rfl

end Build

namespace Workspace

variable (w : Workspace) (tree : FileTree)

theorem scan_published? (plan : Plan) :
    (w.scan tree plan).1.published? = Build.tried (some ⟨plan, tree⟩) w.published? := by
  obtain ⟨g, hb, h⟩ | ⟨glob, hb, h⟩ := w.scan_cases tree plan
  · rw [h, Build.tried, Option.bind_some, Build.published?_ok hb]
    rfl
  · rw [h, Build.tried, Option.bind_some, Build.published?_error hb]
    rfl

theorem start_published? (root : Path) :
    (w.start tree root).1.published? =
      Build.tried ((Plan.ofRoot tree root).toOption.map (Build.mk · tree)) w.published? := by
  obtain ⟨e, hp, h⟩ | ⟨plan, hp, h⟩ := w.start_cases tree root
  · rw [h, hp]
    rfl
  · rw [h, hp, scan_published?]
    rfl

theorem published?_of_start {tree : FileTree} {root : Path} {plan : Plan} {g : Generation}
    (hplan : (Plan.ofRoot tree root).toOption = some plan)
    (hbuild : Generation.build tree plan = .ok g) :
    (w.after [⟨tree, .start root⟩]).published? = some ⟨plan, g⟩ := by
  change (w.start tree root).1.published? = _
  rw [start_published?, hplan, Option.map_some, Build.tried, Option.bind_some,
    Build.published?_ok hbuild]
  rfl

theorem start_reloadRequested (root : Path) :
    (w.start tree root).1.reloadRequested =
      (w.reloadRequested && !(Plan.ofRoot tree root).toOption.isSome) := by
  obtain ⟨e, hp, h⟩ | ⟨plan, hp, h⟩ := w.start_cases tree root
  · rw [h, hp]
    exact (Bool.and_true _).symm
  · rw [h, hp, scan_reloadRequested, takeRequest_reloadRequested]
    exact (Bool.and_false _).symm

theorem reload_published? :
    (w.reload tree).1.published? =
      Build.tried ((w.published?.map Published.plan).map (Build.mk · tree)) w.published? := by
  obtain ⟨hp, h⟩ | ⟨p, hp, h⟩ := w.reload_cases tree
  · rw [h, hp]
    rfl
  · rw [h, scan_published?, hp]
    rfl

theorem refresh_published? :
    (w.refresh tree).published? =
      Build.tried ((if w.reloadRequested then w.published?.map Published.plan else none).map
        (Build.mk · tree)) w.published? := by
  cases hr : w.reloadRequested with
  | true => rw [w.refresh_of_requested tree hr, reload_published?, takeRequest_published?, if_pos rfl]
  | false =>
    rw [w.refresh_of_not_requested tree hr]
    rfl

end Workspace

namespace Moment

/-- The plan of a start that comes to its scan. -/
def planned? (m : Moment) : Option Plan :=
  match m.operation with
  | .start root => (Plan.ofRoot m.tree root).toOption
  | _ => none

/-- The plan of a start that succeeds: its scan does. -/
def started? (m : Moment) : Option Plan :=
  m.planned?.filter fun plan => (Build.mk plan m.tree).succeeds

/-- The moment asks for a reload. -/
def requests (m : Moment) : Bool :=
  match m.operation with
  | .requestReload => true
  | _ => false

/-- The moment leaves no request open: a query answers it, and so does the scan of a start. -/
def settles (m : Moment) : Bool :=
  match m.operation with
  | .query q => q.looks
  | _ => m.planned?.isSome

end Moment

namespace History

/-- The plan of the last start that succeeded. -/
def plan? (h : List Moment) : Option Plan := h.findSome? Moment.started?

/-- A reload was asked for, and nothing has settled that since. -/
def requested (h : List Moment) : Bool := (h.takeWhile fun m => !m.settles).any Moment.requests

/-- The plan that is scanned with at a moment: that of a start, or the last one that succeeded for a
reload and for a query that finds a request. -/
def attempt? (m : Moment) (before : List Moment) : Option Plan :=
  match m.operation with
  | .start _ => m.planned?
  | .reload => plan? before
  | .query q => if q.looks && requested before then plan? before else none
  | _ => none

/-- The last scan that succeeded. -/
def build? : List Moment → Option Build
  | [] => none
  | m :: before =>
    (((attempt? m before).map (Build.mk · m.tree)).filter Build.succeeds).or (build? before)

/-- What the last scan that succeeded has found. -/
def generation? (h : List Moment) : Option Generation := (build? h).bind Build.generation?

theorem plan?_cons (m : Moment) (before : List Moment) :
    plan? (m :: before) = m.started?.or (plan? before) := by
  rw [plan?, List.findSome?_cons]
  cases m.started? with
  | some plan => rfl
  | none => rfl

theorem requested_cons (m : Moment) (before : List Moment) :
    requested (m :: before) = (!m.settles && (m.requests || requested before)) := by
  rw [requested, List.takeWhile_cons]
  cases m.settles with
  | true => rfl
  | false => rfl

theorem attempt?_cases (m : Moment) (before : List Moment) :
    attempt? m before = m.planned? ∨
      m.planned? = none ∧ (attempt? m before = none ∨ attempt? m before = plan? before) := by
  obtain ⟨tree, op⟩ := m
  cases op with
  | start root => exact Or.inl rfl
  | reload => exact Or.inr ⟨rfl, Or.inr rfl⟩
  | requestReload => exact Or.inl rfl
  | inspect f => exact Or.inl rfl
  | query q =>
    refine Or.inr ⟨rfl, ?_⟩
    cases hq : q.looks && requested before with
    | true => exact Or.inr (if_pos hq)
    | false => exact Or.inl (if_neg (by simp [hq]))

/-- The last scan that succeeded was made with the plan of the last start that succeeded. -/
theorem build?_plan (h : List Moment) : (build? h).map Build.plan = plan? h := by
  induction h with
  | nil => rfl
  | cons m before ih =>
    rw [plan?_cons, build?, Moment.started?]
    -- a start scans with its own plan, and everything else with the last one if it scans at all
    obtain he | ⟨hn, he | he⟩ := attempt?_cases m before
    · rw [he]
      cases m.planned? with
      | none => exact ih
      | some plan =>
        rw [Option.map_some, Option.filter_some, Option.filter_some]
        cases (Build.mk plan m.tree).succeeds with
        | true => rfl
        | false => exact ih
    · rw [hn, he]
      exact ih
    · rw [hn, he]
      cases hp : plan? before with
      | none => exact ih.trans hp
      | some plan =>
        rw [Option.map_some, Option.filter_some]
        cases (Build.mk plan m.tree).succeeds with
        | true => rfl
        | false => exact ih.trans hp

theorem build?_succeeds {h : List Moment} {b : Build} (hb : build? h = some b) :
    b.succeeds = true := by
  induction h with
  | nil => cases hb
  | cons m before ih =>
    rw [build?] at hb
    obtain hl | ⟨-, hr⟩ := Option.or_eq_some_iff.mp hb
    · exact (Option.filter_eq_some_iff.mp hl).2
    · exact ih hr

theorem generation?_root (h : List Moment) :
    (generation? h).map Generation.root = (plan? h).map Plan.root := by
  rw [generation?, ← build?_plan]
  cases hb : build? h with
  | none => rfl
  | some b =>
    obtain ⟨g, hg⟩ := Option.isSome_iff_exists.mp (build?_succeeds hb)
    rw [Option.bind_some, hg]
    exact congrArg some (Build.root_of_generation? hg)

theorem published?_cons (m : Moment) (before : List Moment) :
    (build? (m :: before)).bind Build.published? =
      Build.tried ((attempt? m before).map (Build.mk · m.tree))
        ((build? before).bind Build.published?) := by
  rw [build?]
  cases attempt? m before with
  | none => rfl
  | some plan =>
    rw [Option.map_some, Option.filter_some, Build.tried, Option.bind_some, Build.published?,
      Build.succeeds]
    -- what succeeds is what finds a generation, so the filter and the trial go the same way
    cases hg : (Build.mk plan m.tree).generation? with
    | none => rfl
    | some g =>
      change (Build.mk plan m.tree).published? = _
      rw [Build.published?, hg]
      rfl

end History

namespace Workspace

/-- The state of a workspace is the one that its history tells. -/
structure Records (w : Workspace) (h : List Moment) : Prop where
  published : w.published? = (History.build? h).bind Build.published?
  requested : w.reloadRequested = History.requested h

theorem Records.plan {w : Workspace} {h : List Moment} (r : w.Records h) :
    w.published?.map Published.plan = History.plan? h := by
  rw [r.published, ← History.build?_plan]
  cases hb : History.build? h with
  | none => rfl
  | some b =>
    obtain ⟨g, hg⟩ := Option.isSome_iff_exists.mp (History.build?_succeeds hb)
    rw [Option.bind_some, Build.published?, hg]
    rfl

/-- Each operation does to a workspace what it adds to the history. -/
theorem Records.step {w : Workspace} {before : List Moment} (r : w.Records before) (m : Moment) :
    (m.operation.run m.tree w).2.Records (m :: before) := by
  obtain ⟨tree, op⟩ := m
  cases op with
  | start root =>
    constructor
    · rw [History.published?_cons, ← r.published]
      exact w.start_published? tree root
    · rw [History.requested_cons, ← r.requested, Bool.and_comm]
      exact w.start_reloadRequested tree root
  | reload =>
    constructor
    · rw [History.published?_cons, ← r.published]
      have hr := w.reload_published? tree
      rw [r.plan] at hr
      exact hr
    · rw [History.requested_cons, ← r.requested]
      exact w.reload_reloadRequested tree
  | requestReload =>
    constructor
    · rw [History.published?_cons, ← r.published]
      rfl
    · rw [History.requested_cons]
      rfl
  | inspect f =>
    constructor
    · rw [History.published?_cons, ← r.published]
      rfl
    · rw [History.requested_cons, ← r.requested]
      rfl
  | query q =>
    have hrun : (q.run tree w).2 = if q.looks then w.refresh tree else w := by rw [Query.run_eq]
    change (q.run tree w).2.Records _
    rw [hrun]
    -- a query that never looks at the generation leaves a request open as well
    constructor
    · rw [History.published?_cons, ← r.published]
      have hr := w.refresh_published? tree
      rw [r.requested, r.plan] at hr
      change (if q.looks then w.refresh tree else w).published? =
        Build.tried ((if q.looks && History.requested before then History.plan? before
          else none).map (Build.mk · tree)) w.published?
      cases q.looks with
      | true => exact hr
      | false => rfl
    · rw [History.requested_cons, ← r.requested]
      change (if q.looks then w.refresh tree else w).reloadRequested =
        (!q.looks && (false || w.reloadRequested))
      cases q.looks with
      | true => exact w.refresh_reloadRequested tree
      | false => rfl

/-- The state after a history that starts from nothing is the one that the history tells. -/
theorem records_after (h : List Moment) : (empty.after h).Records h := by
  induction h with
  | nil => exact ⟨rfl, rfl⟩
  | cons m before ih => exact ih.step m

namespace Records

variable {w : Workspace} {h : List Moment}

theorem generation (r : w.Records h) : w.generation? = History.generation? h := by
  rw [generation?, r.published, History.generation?]
  cases History.build? h with
  | none => rfl
  | some b =>
    rw [Option.bind_some, Option.bind_some, Build.published?, Option.map_map]
    exact Option.map_id'

/-- A query answers from the generation that is the last one once the query belongs to the history
itself. -/
theorem answer {α : Type} (r : w.Records h) (tree : FileTree) (q : Query α) :
    (q.run tree w).1 = q.against (History.generation? (⟨tree, .query q⟩ :: h)) := by
  cases q with
  | answer a => rfl
  | look next =>
    -- the scan that the query may cause counts for it already
    have hs : (w.refresh tree).Records (⟨tree, .query (.look next)⟩ :: h) := by
      have hrun : ((Query.look next).run tree w).2 = w.refresh tree := by rw [Query.run_eq]; rfl
      rw [← hrun]
      exact r.step ⟨tree, .query (.look next)⟩
    rw [Query.run_eq, hs.generation]

end Records

/-- What the history of a workspace says about it. -/
structure Follows (w : Workspace) (h : List Moment) : Prop where
  /-- The workspace is ready when a start has succeeded. -/
  ready_iff : w.isReady = true ↔ ∃ m ∈ h, m.started?.isSome = true
  start_ok_iff : ∀ tree root,
    (w.start tree root).2 = .ok () ↔ (Moment.mk tree (.start root)).started?.isSome = true
  /-- A workspace that is ready stays so, whatever comes. -/
  ready_later : w.isReady = true → ∀ later, (w.after later).isReady = true
  root : w.root? = (History.plan? h).map Plan.root
  /-- The last scan that succeeded was made with the plan of the last start that succeeded. -/
  plan : (History.build? h).map Build.plan = History.plan? h
  stats_root : ∀ tree, (Query.stats.run tree w).1.map Stats.root = w.root?
  stats : ∀ tree, (Query.stats.run tree w).1 =
    (History.generation? (⟨tree, .query Query.stats⟩ :: h)).map Generation.stats
  defsForKey : ∀ tree key, ((Query.defsForKey key).run tree w).1 =
    ((History.generation? (⟨tree, .query (Query.defsForKey key)⟩ :: h)).map
      (·.index.defs key)).getD []
  /-- A reload that fails changes nothing. -/
  reload_error : ∀ tree e, (w.reload tree).2 = .error e → (w.reload tree).1 = w

theorem start_ok_iff (w : Workspace) (tree : FileTree) (root : Path) :
    (w.start tree root).2 = .ok () ↔ (Moment.mk tree (.start root)).started?.isSome = true := by
  rw [Moment.started?, Moment.planned?]
  obtain ⟨e, hp, h⟩ | ⟨plan, hp, h⟩ := w.start_cases tree root
  · simp [h, hp, Except.toOption]
  · simp only [h, hp, Except.toOption, Option.filter_some, Build.succeeds, Build.generation?]
    obtain ⟨g, hb, hs⟩ | ⟨glob, hb, hs⟩ := w.takeRequest.scan_cases tree plan
    · simp [hs, hb]
    · simp [hs, hb]

theorem reload_error {w : Workspace} {tree : FileTree} {e : WorkspaceError}
    (h : (w.reload tree).2 = .error e) : (w.reload tree).1 = w := by
  obtain ⟨-, hr⟩ | ⟨p, -, hr⟩ := w.reload_cases tree
  · rw [hr]
  · obtain ⟨g, -, hs⟩ | ⟨glob, -, hs⟩ := w.scan_cases tree p.plan
    · rw [hr, hs] at h
      cases h
    · rw [hr, hs]

theorem follows_after (h : List Moment) : (empty.after h).Follows h := by
  have r := records_after h
  have hready : ∀ h' : List Moment, (empty.after h').isReady = (History.plan? h').isSome := by
    intro h'
    rw [isReady, ← (records_after h').plan, Option.isSome_map]
  have hroot : (empty.after h).root? = (History.plan? h).map Plan.root := by
    rw [root?, ← r.plan, Option.map_map]
    rfl
  have hstats := fun tree => r.answer tree Query.stats
  constructor
  case ready_iff => rw [hready, History.plan?, List.findSome?_isSome_iff]
  case start_ok_iff => exact (empty.after h).start_ok_iff
  case ready_later =>
    -- a start that has succeeded is never lost from the history
    intro hw later
    rw [← after_append, hready, History.plan?, List.findSome?_append, Option.isSome_or,
      ← History.plan?, ← History.plan?, ← hready h, hw, Bool.or_true]
  case root => exact hroot
  case plan => exact History.build?_plan h
  case stats => exact hstats
  case stats_root =>
    -- the query is no start, so that the plan of the history is the same with it
    intro tree
    rw [hstats, hroot]
    change ((History.generation? (⟨tree, .query Query.stats⟩ :: h)).map Generation.stats).map
      Stats.root = (History.plan? (⟨tree, .query Query.stats⟩ :: h)).map Plan.root
    rw [← History.generation?_root, Option.map_map]
    rfl
  case defsForKey => exact fun tree key => r.answer tree (Query.defsForKey key)
  case reload_error => exact fun tree e => reload_error

end Workspace

end CrossIndex

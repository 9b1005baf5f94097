import CrossIndex.Proofs.Workspace.Run

/-!
Starts that fail. A start makes its plan before it touches the workspace, but takes the request for a
reload before its scan. Main statement: a failed start leaves the workspace as it was, except that a
bad glob, which only the scan meets, costs it a request for a reload.
-/

namespace CrossIndex

theorem error_of_mapError_bind {ε δ α β : Type} {x : Except ε α} {f : ε → δ} {g : α → Except δ β}
    {e : δ} (h : (x.mapError f >>= g) = .error e) : (∃ e', f e' = e) ∨ ∃ a, g a = .error e := by
  cases x with
  | error e' =>
    cases h
    exact Or.inl ⟨e', rfl⟩
  | ok a => exact Or.inr ⟨a, h⟩

/-- Globs are read by a scan alone. -/
theorem Plan.ofRoot_ne_badGlob (tree : FileTree) (root : Path) (glob : GlobError) :
    Plan.ofRoot tree root ≠ .error (.badGlob glob) := by
  intro h
  rw [ofRoot] at h
  split at h
  · obtain ⟨e, he⟩ | ⟨settings, hs⟩ := error_of_mapError_bind h
    · cases he
    · obtain ⟨e, he⟩ | ⟨dialects, hd⟩ := error_of_mapError_bind hs
      · cases he
      · cases hd
  · cases h

namespace Workspace

/-- Two workspaces are alike when nobody can tell them apart: they are the same, or neither has been
started, and then a request for a reload makes no difference. -/
def Alike (w v : Workspace) : Prop :=
  w = v ∨ w.published? = none ∧ v.published? = none

theorem refresh_unstarted {w : Workspace} (h : w.published? = none) (tree : FileTree) :
    (w.refresh tree).published? = none := by
  cases hr : w.reloadRequested with
  | false => rw [w.refresh_of_not_requested tree hr, h]
  | true =>
    rw [w.refresh_of_requested tree hr]
    obtain ⟨-, hw⟩ | ⟨p, hp, -⟩ := w.takeRequest.reload_cases tree
    · rw [hw, takeRequest_published?, h]
    · rw [takeRequest_published?, h] at hp
      cases hp

/-- An operation answers alike on workspaces that are alike, and leaves them alike. -/
theorem Alike.run {w v : Workspace} (h : w.Alike v) (op : Operation) (tree : FileTree) :
    (op.run tree w).1 = (op.run tree v).1 ∧ (op.run tree w).2.Alike (op.run tree v).2 := by
  rcases h with rfl | ⟨hw, hv⟩
  · exact ⟨rfl, Or.inl rfl⟩
  -- neither has been started, and only a start that comes to its scan makes a difference to that
  cases op with
  | start root =>
    have htake : w.takeRequest = v.takeRequest := by rw [takeRequest, takeRequest, hw, hv]
    change (w.start tree root).2 = (v.start tree root).2 ∧
      (w.start tree root).1.Alike (v.start tree root).1
    obtain ⟨e, hp, hs⟩ | ⟨plan, hp, hs⟩ := w.start_cases tree root
    · have hs' : v.start tree root = (v, .error e) := by rw [start, hp]
      rw [hs, hs']
      exact ⟨rfl, Or.inr ⟨hw, hv⟩⟩
    · have hs' : v.start tree root = w.takeRequest.scan tree plan := by rw [start, hp, htake]
      rw [hs, hs']
      exact ⟨rfl, Or.inl rfl⟩
  | reload =>
    have hr : w.reload tree = (w, .ok ()) := by rw [reload, hw]
    have hr' : v.reload tree = (v, .ok ()) := by rw [reload, hv]
    change (w.reload tree).2 = (v.reload tree).2 ∧ (w.reload tree).1.Alike (v.reload tree).1
    rw [hr, hr']
    exact ⟨rfl, Or.inr ⟨hw, hv⟩⟩
  | requestReload => exact ⟨rfl, Or.inr ⟨hw, hv⟩⟩
  | inspect f => exact ⟨congrArg f (hw.trans hv.symm), Or.inr ⟨hw, hv⟩⟩
  | query q =>
    have hrw := refresh_unstarted hw tree
    have hrv := refresh_unstarted hv tree
    change (q.run tree w).1 = (q.run tree v).1 ∧ (q.run tree w).2.Alike (q.run tree v).2
    rw [Query.run_eq, Query.run_eq, generation?, generation?, hrw, hrv]
    refine ⟨rfl, Or.inr ?_⟩
    cases q.looks with
    | true => exact ⟨hrw, hrv⟩
    | false => exact ⟨hw, hv⟩

theorem Alike.after {w v : Workspace} (h : w.Alike v) (later : List Moment) :
    (w.after later).Alike (v.after later) := by
  induction later with
  | nil => exact h
  | cons m later ih => exact (ih.run m.operation m.tree).2

/-- A start that fails publishes nothing. It leaves the workspace as it was, unless a request for a
reload meets a bad glob; and unless this happens to a workspace that has been started, no later
operation can tell that the start has been tried. -/
theorem start_error {w : Workspace} {tree : FileTree} {root : Path} {e : WorkspaceError}
    (h : (w.start tree root).2 = .error e) :
    (w.start tree root).1.published? = w.published? ∧
      ((w.start tree root).1 = w ↔
        ¬(w.reloadRequested = true ∧ ∃ glob, e = .badGlob glob)) ∧
      (¬(w.isReady = true ∧ w.reloadRequested = true ∧ ∃ glob, e = .badGlob glob) →
        ∀ (later : List Moment) (op : Operation) (on : FileTree),
          (op.run on ((w.start tree root).1.after later)).1 = (op.run on (w.after later)).1) := by
  obtain ⟨e', hp, hs⟩ | ⟨plan, -, hs⟩ := w.start_cases tree root
  · -- there is no plan, and nothing has been touched
    rw [hs] at h ⊢
    cases h
    have hglob : ¬∃ glob, e = .badGlob glob := by
      rintro ⟨glob, rfl⟩
      exact Plan.ofRoot_ne_badGlob tree root glob hp
    exact ⟨rfl, by simp [hglob], fun _ _ _ _ => rfl⟩
  · obtain ⟨g, -, hscan⟩ | ⟨glob, -, hscan⟩ := w.takeRequest.scan_cases tree plan
    · rw [hs, hscan] at h
      cases h
    · -- the plan is there, and the request was taken before the scan failed
      rw [hs, hscan] at h ⊢
      cases h
      have hsame : w.takeRequest = w ↔ ¬w.reloadRequested = true := by
        constructor
        · intro he
          rw [← he, takeRequest_reloadRequested]
          simp
        · intro hr
          exact w.takeRequest_of_not_requested (by simpa using hr)
      refine ⟨rfl, by simpa using hsame, ?_⟩
      intro hc later op on
      have halike : w.takeRequest.Alike w := by
        by_cases hr : w.reloadRequested = true
        · have hw : w.published? = none := by simpa [isReady, hr] using hc
          exact Or.inr ⟨hw, hw⟩
        · exact Or.inl (hsame.mpr hr)
      exact ((halike.after later).run op on).1

deriving instance DecidableEq for Except

/-- A workspace that is asked for a reload after a scan that has found one header. -/
def markedWorkspace : Workspace :=
  (empty.start (FileTree.empty.write ["src", "a.h"] []) (.ofString "/")).1.requestReload

/-- The tree from which the header has gone, with settings that hold a bad glob. -/
def badGlobTree : FileTree :=
  (FileTree.empty.makeDirectory ["src"]).write [Settings.fileName]
    "[workspace]\nextensions = [\"[\"]".toUTF8.toList

theorem start_error_markedWorkspace :
    (markedWorkspace.start badGlobTree (.ofString "/")).2 = .error (.badGlob .badBracket) ∧
      (markedWorkspace.start badGlobTree (.ofString "/")).1.published? =
        markedWorkspace.published? := by
  have h : (markedWorkspace.start badGlobTree (.ofString "/")).2 =
      .error (.badGlob .badBracket) := by decide +kernel
  exact ⟨h, (start_error h).1⟩

/-- A start that fails may cost a request: the next query should scan the tree again and find no
file, but still answers from the scan before. -/
theorem start_loses_request :
    (markedWorkspace.start badGlobTree (.ofString "/")).2 = .error (.badGlob .badBracket) ∧
      (markedWorkspace.start badGlobTree (.ofString "/")).1 ≠ markedWorkspace ∧
      ((Query.stats.run badGlobTree markedWorkspace).1.map Stats.files = some 0) ∧
      (Query.stats.run badGlobTree
          (markedWorkspace.start badGlobTree (.ofString "/")).1).1.map Stats.files = some 1 := by
  have hs : ((Query.stats.run badGlobTree markedWorkspace).1.map Stats.files = some 0) := by
    decide +kernel
  have hs' : (Query.stats.run badGlobTree
      (markedWorkspace.start badGlobTree (.ofString "/")).1).1.map Stats.files = some 1 := by
    decide +kernel
  refine ⟨by decide +kernel, ?_, hs, hs'⟩
  intro he
  rw [he, hs] at hs'
  cases hs'

end Workspace

end CrossIndex

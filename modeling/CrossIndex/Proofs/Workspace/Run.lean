import CrossIndex.Workspace.Query

/-!
Runs of a workspace: operations one after another, each of which meets a file tree of its own, so
that anything may happen to the files in between. Main statement: a query that is not interrupted
answers from one generation, and its first look alone can change the workspace.
-/

namespace CrossIndex

namespace Workspace

variable (w : Workspace) (tree : FileTree) (plan : Plan)

@[simp] theorem requestReload_published? : w.requestReload.published? = w.published? := rfl

@[simp] theorem requestReload_reloadRequested : w.requestReload.reloadRequested = true := rfl

@[simp] theorem takeRequest_published? : w.takeRequest.published? = w.published? := rfl

@[simp] theorem takeRequest_reloadRequested : w.takeRequest.reloadRequested = false := rfl

@[simp] theorem publish_published? (g : Generation) :
    (w.publish plan g).published? = some ⟨plan, g⟩ := rfl

@[simp] theorem publish_reloadRequested (g : Generation) :
    (w.publish plan g).reloadRequested = w.reloadRequested := rfl

theorem takeRequest_of_not_requested (h : w.reloadRequested = false) : w.takeRequest = w := by
  rw [takeRequest, ← h]

/-- A scan publishes the generation that it builds, or leaves the workspace as it was. -/
theorem scan_cases :
    (∃ g, Generation.build tree plan = .ok g ∧ w.scan tree plan = (w.publish plan g, .ok ())) ∨
      ∃ glob, Generation.build tree plan = .error glob ∧
        w.scan tree plan = (w, .error (.badGlob glob)) := by
  unfold scan
  cases hb : Generation.build tree plan with
  | ok g => exact Or.inl ⟨g, rfl, rfl⟩
  | error glob => exact Or.inr ⟨glob, rfl, rfl⟩

/-- A start stops before its scan and leaves the workspace as it was, or takes the request for a
reload and scans. -/
theorem start_cases (root : Path) :
    (∃ e, Plan.ofRoot tree root = .error e ∧ w.start tree root = (w, .error e)) ∨
      ∃ plan, Plan.ofRoot tree root = .ok plan ∧
        w.start tree root = w.takeRequest.scan tree plan := by
  unfold start
  cases hp : Plan.ofRoot tree root with
  | error e => exact Or.inl ⟨e, rfl, rfl⟩
  | ok plan => exact Or.inr ⟨plan, rfl, rfl⟩

/-- A reload does nothing before the first start, and scans with the published plan after it. -/
theorem reload_cases :
    (w.published? = none ∧ w.reload tree = (w, .ok ())) ∨
      ∃ p, w.published? = some p ∧ w.reload tree = w.scan tree p.plan := by
  unfold reload
  cases hp : w.published? with
  | none => exact Or.inl ⟨rfl, rfl⟩
  | some p => exact Or.inr ⟨p, rfl, rfl⟩

@[simp] theorem scan_reloadRequested :
    (w.scan tree plan).1.reloadRequested = w.reloadRequested := by
  obtain ⟨g, -, h⟩ | ⟨glob, -, h⟩ := w.scan_cases tree plan
  · rw [h, publish_reloadRequested]
  · rw [h]

@[simp] theorem reload_reloadRequested :
    (w.reload tree).1.reloadRequested = w.reloadRequested := by
  obtain ⟨-, h⟩ | ⟨p, -, h⟩ := w.reload_cases tree
  · rw [h]
  · rw [h, scan_reloadRequested]

theorem refresh_of_requested (h : w.reloadRequested = true) :
    w.refresh tree = (w.takeRequest.reload tree).1 := if_pos h

theorem refresh_of_not_requested (h : w.reloadRequested = false) : w.refresh tree = w :=
  if_neg (by simp [h])

@[simp] theorem refresh_reloadRequested : (w.refresh tree).reloadRequested = false := by
  cases h : w.reloadRequested with
  | true => rw [w.refresh_of_requested tree h, reload_reloadRequested, takeRequest_reloadRequested]
  | false => rw [w.refresh_of_not_requested tree h, h]

end Workspace

namespace Query

variable {α : Type}

/-- The query looks at the published generation at least once. -/
def looks : Query α → Bool
  | answer _ => false
  | look _ => true

/-- When nothing comes in between, all looks of a query see the generation that the first one
sees. -/
theorem run_eq (tree : FileTree) (q : Query α) (w : Workspace) :
    q.run tree w =
      (q.against (w.refresh tree).generation?, if q.looks then w.refresh tree else w) := by
  induction q generalizing w with
  | answer a => rfl
  | look next ih =>
    -- the first look has answered the request, so that the next ones change nothing
    have hdone : (w.refresh tree).refresh tree = w.refresh tree :=
      (w.refresh tree).refresh_of_not_requested tree (w.refresh_reloadRequested tree)
    have hnext := ih (w.refresh tree).generation? (w.refresh tree)
    rw [hdone, ite_self] at hnext
    exact hnext

instance : LawfulMonad Query := LawfulMonad.mk' Query
  (by
    intro α q
    induction q with
    | answer a => rfl
    | look next ih => exact congrArg look (funext ih))
  (fun _ _ => rfl)
  (by
    intro α β γ q f h
    induction q with
    | answer a => rfl
    | look next ih => exact congrArg look (funext ih))

variable {β : Type} (g? : Option Generation)

/-- When every look sees the same generation, queries are answered one after another. -/
theorem against_bind (q : Query α) (f : α → Query β) :
    (q >>= f).against g? = (f (q.against g?)).against g? := by
  induction q with
  | answer a => rfl
  | look next ih => exact ih g?

theorem against_mapM (f : α → Query β) (items : List α) :
    (items.mapM f).against g? = items.map fun a => (f a).against g? := by
  induction items with
  | nil => rfl
  | cons a items ih =>
    rw [List.mapM_cons, against_bind, against_bind, ih, List.map_cons]
    rfl

/-- The answer of a query has a property, whatever its looks see. -/
def Always (P : α → Prop) : Query α → Prop
  | answer a => P a
  | look next => ∀ g?, (next g?).Always P

namespace Always

variable {P : α → Prop} {q : Query α}

theorem run (h : q.Always P) (tree : FileTree) (w : Workspace) : P (q.run tree w).1 := by
  induction q generalizing w with
  | answer a => exact h
  | look next ih => exact ih _ (h _) _

theorem against (h : q.Always P) (g? : Option Generation) : P (q.against g?) := by
  induction q with
  | answer a => exact h
  | look next ih => exact ih g? (h g?)

/-- What comes last decides. -/
theorem bind {P : β → Prop} (q : Query α) {f : α → Query β} (h : ∀ a, (f a).Always P) :
    (q >>= f).Always P := by
  induction q with
  | answer a => exact h a
  | look next ih => exact ih

end Always

end Query

/-- What is asked of a workspace. -/
inductive Operation : Type 1 where
  | start (root : Path)
  | reload
  | requestReload
  /-- Asks what is published, and answers no request for a reload. -/
  | inspect {α : Type} (f : Option Published → α)
  | query {α : Type} (q : Query α)

namespace Operation

/-- What an operation gives back. -/
def Outcome : Operation → Type
  | start _ | reload => Except WorkspaceError Unit
  | requestReload => Unit
  | @inspect α _ | @query α _ => α

/-- Runs an operation on a workspace. -/
def run (tree : FileTree) : (op : Operation) → Workspace → op.Outcome × Workspace
  | start root, w => (w.start tree root).swap
  | reload, w => (w.reload tree).swap
  | requestReload, w => ((), w.requestReload)
  | inspect f, w => (f w.published?, w)
  | query q, w => q.run tree w

end Operation

/-- An operation with the file tree that it meets. -/
structure Moment where
  tree : FileTree
  operation : Operation

namespace Workspace

/-- The workspace after some moments, of which the last one comes first. -/
def after (w : Workspace) : List Moment → Workspace
  | [] => w
  | m :: before => (m.operation.run m.tree (w.after before)).2

@[simp] theorem after_nil (w : Workspace) : w.after [] = w := rfl

@[simp] theorem after_cons (w : Workspace) (m : Moment) (before : List Moment) :
    w.after (m :: before) = (m.operation.run m.tree (w.after before)).2 := rfl

theorem after_append (w : Workspace) (later before : List Moment) :
    w.after (later ++ before) = (w.after before).after later := by
  induction later with
  | nil => rfl
  | cons m later ih => rw [List.cons_append, after_cons, after_cons, ih]

end Workspace

end CrossIndex

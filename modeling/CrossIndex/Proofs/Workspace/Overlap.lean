import CrossIndex.Proofs.Workspace.History

/-!
Queries that overlap. Several threads share a workspace; each takes the steps of its own query, and
the steps of different threads come in any order. A look at the published generation is no single
step: it takes the request for a reload, copies the plan, reads the tree, publishes what it has
found, and copies what is published then. Main statement: if no scan fails and none is published
over a scan of a later tree, then a request that a query has taken before it returned is answered
for every query that begins after that.
-/

namespace CrossIndex

/-- How far a query has come. -/
inductive Stage (α : Type) where
  /-- The query has its answer, or is to look at the published generation next. -/
  | ready (q : Query α)
  /-- Its look has taken a request for a reload. -/
  | requested (next : Option Generation → Query α)
  | planned (next : Option Generation → Query α) (plan : Plan)
  /-- Its look has built a generation, from a tree read when so many requests had been made. -/
  | built (next : Option Generation → Query α) (plan : Plan) (generation : Generation) (date : Nat)
  /-- Its look has nothing left to reload. -/
  | settled (next : Option Generation → Query α)

/-- What is left of the query. -/
def Stage.query {α : Type} : Stage α → Query α
  | ready q => q
  | requested next | planned next _ | built next _ _ _ | settled next => .look next

/-- What a look has seen, and how many requests had been made when the tree for it was read. -/
structure Sight where
  generation? : Option Generation
  date : Nat

/-- A thread with the query that it runs. Requests count from one, and none is zero. -/
structure Thread (α : Type) where
  asked : Query α
  stage : Stage α
  /-- The last request that the query has taken. -/
  taken : Nat
  /-- The last request that was taken by a query that had returned when this one began. -/
  owed : Nat
  /-- What the looks so far have seen, the last one first. -/
  seen : List Sight

/-- A workspace that threads share. -/
structure Session (α : Type) where
  workspace : Workspace
  /-- How many requests have been made. -/
  requests : Nat
  /-- How many of them had been made when the tree of the published generation was read. -/
  date : Nat
  /-- The last request that was taken by a query that has returned. -/
  answered : Nat
  threads : Nat → Option (Thread α)

/-- What can happen next: a request, a query on a thread, or a step of a thread with the tree as it
is at that moment. -/
inductive Event (α : Type) where
  | request
  | ask (t : Nat) (q : Query α)
  | advance (t : Nat) (tree : FileTree)

namespace Query

variable {α : Type}

/-- What is left of a query that has been shown some generations, the last one first. -/
def shown (q : Query α) : List (Option Generation) → Query α
  | [] => q
  | g? :: before =>
    match q.shown before with
    | answer a => answer a
    | look next => next g?

def answer? : Query α → Option α
  | answer a => some a
  | look _ => none

end Query

namespace Session

variable {α : Type}

/-- The workspace with no query on it. A request that is still open is the first one. -/
def ofWorkspace (w : Workspace) : Session α := ⟨w, w.reloadRequested.toNat, 0, 0, fun _ => none⟩

def put (s : Session α) (t : Nat) (th? : Option (Thread α)) : Session α :=
  { s with threads := fun u => if u = t then th? else s.threads u }

/-- The next step of a thread. A query that has its answer returns. -/
def advance (s : Session α) (tree : FileTree) (t : Nat) (th : Thread α) : Session α :=
  match th.stage with
  | .ready (.answer _) => { s with answered := max s.answered th.taken }.put t none
  | .ready (.look next) =>
    if s.workspace.reloadRequested then
      { s with workspace := s.workspace.takeRequest }.put t
        (some { th with stage := .requested next, taken := s.requests })
    else s.put t (some { th with stage := .settled next })
  | .requested next =>
    match s.workspace.published? with
    | none => s.put t (some { th with stage := .settled next })
    | some p => s.put t (some { th with stage := .planned next p.plan })
  | .planned next plan =>
    match Generation.build tree plan with
    | .error _ => s.put t (some { th with stage := .settled next })
    | .ok g => s.put t (some { th with stage := .built next plan g s.requests })
  | .built next plan g date =>
    { s with workspace := s.workspace.publish plan g, date := date }.put t
      (some { th with stage := .settled next })
  | .settled next =>
    s.put t (some { th with
      stage := .ready (next s.workspace.generation?)
      seen := ⟨s.workspace.generation?, s.date⟩ :: th.seen })

/-- What an event does. A busy thread takes no other query, and an idle one takes no step. -/
def step (s : Session α) : Event α → Session α
  | .request => { s with workspace := s.workspace.requestReload, requests := s.requests + 1 }
  | .ask t q =>
    match s.threads t with
    | none => s.put t (some ⟨q, .ready q, 0, s.answered, []⟩)
    | some _ => s
  | .advance t tree =>
    match s.threads t with
    | none => s
    | some th => s.advance tree t th

/-- The session after some events, of which the last one comes first. -/
def after (s : Session α) : List (Event α) → Session α
  | [] => s
  | e :: before => (s.after before).step e

/-- The event reads the tree for a plan. -/
def reads? (s : Session α) : Event α → Option Build
  | .advance t tree =>
    match (s.threads t).map Thread.stage with
    | some (.planned _ plan) => some ⟨plan, tree⟩
    | _ => none
  | _ => none

/-- The event publishes over a generation whose tree was read later. -/
def outdates (s : Session α) : Event α → Bool
  | .advance t _ =>
    match (s.threads t).map Thread.stage with
    | some (.built _ _ _ date) => date < s.date
    | _ => false
  | _ => false

/-- In the course of the events no scan fails. -/
def scans (s : Session α) : List (Event α) → Bool
  | [] => true
  | e :: before => ((s.after before).reads? e).all Build.succeeds && s.scans before

/-- In the course of the events nothing is published over a generation whose tree was read later. -/
def inOrder (s : Session α) : List (Event α) → Bool
  | [] => true
  | e :: before => !(s.after before).outdates e && s.inOrder before

/-- The generation was found by one of the events, which read the tree when so many requests had
been made. -/
def Found (s : Session α) (events : List (Event α)) (g : Generation) (date : Nat) : Prop :=
  ∃ later e before build, events = later ++ e :: before ∧ (s.after before).reads? e = some build ∧
    build.generation? = some g ∧ (s.after before).requests = date

/-- What a look has seen is a generation, of a tree that was read after the last request that is
owed to the query. -/
def Fresh (s : Session α) (events : List (Event α)) (owed : Nat) (sight : Sight) : Prop :=
  ∃ g, sight.generation? = some g ∧ owed ≤ sight.date ∧
    (0 < sight.date → s.Found events g sight.date)

/-- How a thread stands to the session `s` after the events since `start`. -/
structure Keeps (start : Session α) (events : List (Event α)) (s : Session α) (th : Thread α) :
    Prop where
  owed : th.owed ≤ s.answered
  /-- What the query has taken is answered by what is published, or will be. -/
  taken : match th.stage with
    | .ready _ | .settled _ => th.taken ≤ s.date
    | .requested _ | .planned _ _ => th.taken ≤ s.requests
    | .built _ _ g date => th.taken ≤ date ∧ date ≤ s.requests ∧ start.Found events g date
  seen : ∀ sight ∈ th.seen, start.Fresh events th.owed sight
  left : th.stage.query = th.asked.shown (th.seen.map Sight.generation?)

/-- Every request that a query has taken before it returned is answered by what is published. -/
structure Answering (start : Session α) (events : List (Event α)) (s : Session α) : Prop where
  published : ∃ p, s.workspace.published? = some p ∧
    (0 < s.date → start.Found events p.generation s.date)
  date : s.date ≤ s.requests
  answered : s.answered ≤ s.date
  threads : ∀ t th, s.threads t = some th → start.Keeps events s th

variable {start s s' : Session α} {before : List (Event α)} {e : Event α}

theorem Found.later {g : Generation} {date : Nat} (h : start.Found before g date) :
    start.Found (e :: before) g date := by
  obtain ⟨later, e', earlier, build, rfl, hread⟩ := h
  exact ⟨e :: later, e', earlier, build, rfl, hread⟩

theorem Fresh.later {owed : Nat} {sight : Sight} (h : start.Fresh before owed sight) :
    start.Fresh (e :: before) owed sight := by
  obtain ⟨g, hg, howed, hfound⟩ := h
  exact ⟨g, hg, howed, fun hdate => (hfound hdate).later⟩

/-- A thread does not mind when others make requests, publish later trees, and return. -/
theorem Keeps.later {th : Thread α} (h : start.Keeps before s th)
    (hrequests : s.requests ≤ s'.requests) (hdate : s.date ≤ s'.date)
    (hanswered : s.answered ≤ s'.answered) : start.Keeps (e :: before) s' th := by
  refine ⟨Nat.le_trans h.owed hanswered, ?_, fun sight hsight => (h.seen sight hsight).later, h.left⟩
  have htaken := h.taken
  cases hstage : th.stage with
  | ready _ | settled _ =>
    rw [hstage] at htaken
    exact Nat.le_trans htaken hdate
  | requested _ | planned _ _ =>
    rw [hstage] at htaken
    exact Nat.le_trans htaken hrequests
  | built _ _ g date =>
    rw [hstage] at htaken
    exact ⟨htaken.1, Nat.le_trans htaken.2.1 hrequests, htaken.2.2.later⟩

theorem Answering.put (h : start.Answering before s) (t : Nat) {th? : Option (Thread α)}
    (hth : ∀ th, th? = some th → start.Keeps before s th) :
    start.Answering before (s.put t th?) := by
  refine ⟨h.published, h.date, h.answered, ?_⟩
  intro u th hu
  by_cases htu : u = t
  · have hth? : th? = some th := by simpa [Session.put, htu] using hu
    have hkeeps := hth th hth?
    exact ⟨hkeeps.owed, hkeeps.taken, hkeeps.seen, hkeeps.left⟩
  · have hold := h.threads u th (by simpa [Session.put, htu] using hu)
    exact ⟨hold.owed, hold.taken, hold.seen, hold.left⟩

theorem Answering.put_some (h : start.Answering before s) (t : Nat) {th : Thread α}
    (hth : start.Keeps before s th) : start.Answering before (s.put t (some th)) := by
  refine h.put t ?_
  rintro _ ⟨⟩
  exact hth

/-- A change of the session that no thread minds. -/
theorem Answering.later (h : start.Answering before s) (hthreads : s'.threads = s.threads)
    (hpublished : ∃ p, s'.workspace.published? = some p ∧
      (0 < s'.date → start.Found (e :: before) p.generation s'.date))
    (hrequests : s.requests ≤ s'.requests) (hdate : s.date ≤ s'.date)
    (hdate' : s'.date ≤ s'.requests) (hanswered : s.answered ≤ s'.answered)
    (hanswered' : s'.answered ≤ s'.date) : start.Answering (e :: before) s' := by
  refine ⟨hpublished, hdate', hanswered', ?_⟩
  intro t th hth
  rw [hthreads] at hth
  exact (h.threads t th hth).later hrequests hdate hanswered

theorem Answering.quiet (h : start.Answering before s) : start.Answering (e :: before) s := by
  obtain ⟨p, hp, hfound⟩ := h.published
  exact h.later rfl ⟨p, hp, fun hdate => (hfound hdate).later⟩ (Nat.le_refl _) (Nat.le_refl _) h.date
    (Nat.le_refl _) h.answered

/-- A step of a thread. -/
theorem Answering.advance {t : Nat} {th : Thread α} {tree : FileTree}
    (h : start.Answering before s) (hs : start.after before = s) (hth : s.threads t = some th)
    (hscan : (s.reads? (.advance t tree)).all Build.succeeds = true)
    (horder : s.outdates (.advance t tree) = false) :
    start.Answering (.advance t tree :: before) (s.advance tree t th) := by
  have hquiet := h.quiet (e := .advance t tree)
  have hkeeps := hquiet.threads t th hth
  have htaken := hkeeps.taken
  have hleft := hkeeps.left
  obtain ⟨p, hp, hfound⟩ := hquiet.published
  unfold Session.advance
  split
  case h_1 a hstage =>
    rw [hstage] at htaken
    have hreturn : start.Answering (.advance t tree :: before)
        { s with answered := max s.answered th.taken } :=
      h.later rfl ⟨p, hp, hfound⟩ (Nat.le_refl _) (Nat.le_refl _) h.date (Nat.le_max_left _ _)
        (Nat.max_le.mpr ⟨h.answered, htaken⟩)
    exact hreturn.put t (fun _ hnone => by cases hnone)
  case h_2 next hstage =>
    rw [hstage] at htaken hleft
    split
    · have htake : start.Answering (.advance t tree :: before)
          { s with workspace := s.workspace.takeRequest } :=
        h.later rfl ⟨p, hp, hfound⟩ (Nat.le_refl _) (Nat.le_refl _) h.date (Nat.le_refl _) h.answered
      exact htake.put_some t ⟨hkeeps.owed, Nat.le_refl _, hkeeps.seen, hleft⟩
    · exact hquiet.put_some t ⟨hkeeps.owed, htaken, hkeeps.seen, hleft⟩
  case h_3 next hstage =>
    rw [hstage] at htaken hleft
    -- what is published is the plan of the last start, and it is there
    rw [hp]
    exact hquiet.put_some t ⟨hkeeps.owed, htaken, hkeeps.seen, hleft⟩
  case h_4 next plan hstage =>
    rw [hstage] at htaken hleft
    have hreads : s.reads? (.advance t tree) = some ⟨plan, tree⟩ := by
      simp only [reads?, hth, Option.map_some, hstage]
    rw [hreads, Option.all_some] at hscan
    obtain ⟨g, hg⟩ := Option.isSome_iff_exists.mp hscan
    have hfound' : start.Found (.advance t tree :: before) g s.requests :=
      ⟨[], _, before, _, rfl, by rw [hs, hreads], hg, by rw [hs]⟩
    cases hb : Generation.build tree plan with
    | error glob =>
      rw [Build.generation?, hb] at hg
      cases hg
    | ok found =>
      rw [Build.generation?, hb] at hg
      cases hg
      exact hquiet.put_some t ⟨hkeeps.owed, ⟨htaken, Nat.le_refl _, hfound'⟩, hkeeps.seen, hleft⟩
  case h_5 next plan g date hstage =>
    rw [hstage] at htaken hleft
    obtain ⟨htaken, hdate, hfound'⟩ := htaken
    have hle : s.date ≤ date := by
      simpa [outdates, hth, hstage] using horder
    have hpublish : start.Answering (.advance t tree :: before)
        { s with workspace := s.workspace.publish plan g, date := date } :=
      h.later rfl ⟨⟨plan, g⟩, rfl, fun _ => hfound'⟩ (Nat.le_refl _) hle hdate (Nat.le_refl _)
        (Nat.le_trans h.answered hle)
    exact hpublish.put_some t ⟨hkeeps.owed, htaken, hkeeps.seen, hleft⟩
  case h_6 next hstage =>
    rw [hstage] at htaken hleft
    refine hquiet.put_some t ⟨hkeeps.owed, htaken, ?_, ?_⟩
    · intro sight hsight
      rcases List.mem_cons.mp hsight with rfl | hsight
      · refine ⟨p.generation, ?_, Nat.le_trans hkeeps.owed h.answered, hfound⟩
        rw [Workspace.generation?, hp]
        rfl
      · exact hkeeps.seen sight hsight
    · rw [List.map_cons, Query.shown, ← hleft]
      rfl

/-- Each event keeps a session in which every request that is due has been answered. -/
theorem Answering.step (h : start.Answering before s) (hs : start.after before = s)
    (hscan : (s.reads? e).all Build.succeeds = true) (horder : s.outdates e = false) :
    start.Answering (e :: before) (s.step e) := by
  have hquiet := h.quiet (e := e)
  cases e with
  | request =>
    obtain ⟨p, hp, hfound⟩ := hquiet.published
    exact h.later rfl ⟨p, hp, hfound⟩ (Nat.le_succ _) (Nat.le_refl _)
      (Nat.le_succ_of_le h.date) (Nat.le_refl _) h.answered
  | ask t q =>
    rw [Session.step]
    split
    · exact hquiet.put_some t
        ⟨Nat.le_refl _, Nat.zero_le _, fun _ hsight => (List.not_mem_nil hsight).elim, rfl⟩
    · exact hquiet
  | advance t tree =>
    rw [Session.step]
    split
    · exact hquiet
    · next th hth => exact h.advance hs hth hscan horder

/-- The same in the course of any events. -/
theorem answering_after {w : Workspace} (hready : w.isReady = true) (events : List (Event α))
    (hscans : (ofWorkspace w).scans events = true)
    (horder : (ofWorkspace w).inOrder events = true) :
    (ofWorkspace w).Answering events ((ofWorkspace w).after events) := by
  induction events with
  | nil =>
    obtain ⟨p, hp⟩ := Option.isSome_iff_exists.mp hready
    exact ⟨⟨p, hp, fun h => (Nat.lt_irrefl 0 h).elim⟩, Nat.zero_le _, Nat.le_refl _,
      fun t th hth => by cases hth⟩
  | cons e before ih =>
    rw [scans, Bool.and_eq_true] at hscans
    rw [inOrder, Bool.and_eq_true, Bool.not_eq_true'] at horder
    exact (ih hscans.2 horder.2).step rfl hscans.1 horder.1

/-- Queries answer from what their looks see. If no scan fails, and none is published over a scan of
a later tree, each look sees a generation of a tree that was read after every request that had been
taken by a query that had returned when this one began. -/
theorem seen_fresh {w : Workspace} (hready : w.isReady = true) {events : List (Event α)}
    (hscans : (ofWorkspace w).scans events = true)
    (horder : (ofWorkspace w).inOrder events = true) {t : Nat} {th : Thread α}
    (hth : ((ofWorkspace w).after events).threads t = some th) :
    th.stage.query = th.asked.shown (th.seen.map Sight.generation?) ∧
      ∀ sight ∈ th.seen, (ofWorkspace w).Fresh events th.owed sight := by
  have hkeeps := (answering_after hready events hscans horder).threads t th hth
  exact ⟨hkeeps.left, hkeeps.seen⟩

section Alone

variable (s : Session α) (tree : FileTree) (t : Nat)

theorem after_append (later before : List (Event α)) :
    s.after (later ++ before) = (s.after before).after later := by
  induction later with
  | nil => rfl
  | cons e later ih => rw [List.cons_append, after, after, ih]

@[simp] theorem put_workspace (th? : Option (Thread α)) : (s.put t th?).workspace = s.workspace := rfl

@[simp] theorem put_threads (th? : Option (Thread α)) : (s.put t th?).threads t = th? := if_pos rfl

/-- Some steps of a thread, with nothing in between. -/
def alone (n : Nat) : Session α := s.after (List.replicate n (.advance t tree))

theorem alone_add (n m : Nat) : s.alone tree t (n + m) = (s.alone tree t m).alone tree t n := by
  rw [alone, alone, alone, ← after_append, List.replicate_append_replicate]

theorem alone_succ {n : Nat} {th : Thread α} (hth : (s.alone tree t n).threads t = some th) :
    s.alone tree t (n + 1) = (s.alone tree t n).advance tree t th := by
  change (s.alone tree t n).step (.advance t tree) = _
  rw [step, hth]

/-- A look that nobody disturbs refreshes the workspace. -/
theorem alone_settled {th : Thread α} {next : Option Generation → Query α}
    (hth : s.threads t = some th) (hstage : th.stage = .ready (.look next)) :
    ∃ n th', (s.alone tree t n).threads t = some th' ∧ th'.stage = .settled next ∧
      (s.alone tree t n).workspace = s.workspace.refresh tree := by
  have hone := s.alone_succ tree t (n := 0) hth
  change s.alone tree t 1 = s.advance tree t th at hone
  rw [advance, hstage] at hone
  cases hr : s.workspace.reloadRequested with
  | false =>
    simp only [hr, Bool.false_eq_true, if_false] at hone
    rw [s.workspace.refresh_of_not_requested tree hr]
    exact ⟨1, _, by rw [hone, put_threads], rfl, by rw [hone, put_workspace]⟩
  | true =>
    simp only [hr, if_true] at hone
    have htwo := s.alone_succ tree t (n := 1) (by rw [hone, put_threads])
    rw [s.workspace.refresh_of_requested tree hr]
    obtain ⟨hp, hreload⟩ | ⟨p, hp, hreload⟩ := s.workspace.takeRequest.reload_cases tree
    · rw [hone, advance] at htwo
      simp only [put_workspace, hp] at htwo
      rw [hreload]
      exact ⟨2, _, by rw [htwo, put_threads], rfl, by rw [htwo]; rfl⟩
    · rw [hone, advance] at htwo
      simp only [put_workspace, hp] at htwo
      have hthree := s.alone_succ tree t (n := 2) (by rw [htwo, put_threads])
      rw [htwo, advance] at hthree
      rw [hreload]
      obtain ⟨g, hb, hscan⟩ | ⟨glob, hb, hscan⟩ := s.workspace.takeRequest.scan_cases tree p.plan
      · simp only [hb] at hthree
        have hfour := s.alone_succ tree t (n := 3) (by rw [hthree, put_threads])
        rw [hthree, advance] at hfour
        rw [hscan]
        exact ⟨4, _, by rw [hfour, put_threads], rfl, by rw [hfour]; rfl⟩
      · simp only [hb] at hthree
        rw [hscan]
        exact ⟨3, _, by rw [hthree, put_threads], rfl, by rw [hthree]; rfl⟩

/-- A query that nobody disturbs runs as it does on the workspace by itself. -/
theorem alone_run (q : Query α) {th : Thread α} (hth : s.threads t = some th)
    (hstage : th.stage = .ready q) :
    ∃ n th', (s.alone tree t n).threads t = some th' ∧
      th'.stage = .ready (.answer (q.run tree s.workspace).1) ∧
      (s.alone tree t n).workspace = (q.run tree s.workspace).2 := by
  induction q generalizing s th with
  | answer a => exact ⟨0, th, hth, hstage, rfl⟩
  | look next ih =>
    obtain ⟨n, settled, hsettled, hnext, hw⟩ := s.alone_settled tree t hth hstage
    have hlook := s.alone_succ tree t hsettled
    rw [advance, hnext] at hlook
    obtain ⟨m, th', hth', hanswer, hw'⟩ := ih (s.workspace.refresh tree).generation?
      (s.alone tree t (n + 1)) (by rw [hlook, put_threads]) (by rw [hw])
    rw [← alone_add] at hth' hw'
    rw [hlook, put_workspace, hw] at hanswer hw'
    exact ⟨m + (n + 1), th', hth', hanswer, hw'⟩

end Alone

/-- Asks how many files the published generation has. -/
def fileCount : Query (Option Nat) := .look fun g? => .answer (g?.map Generation.fileCount)

/-- A tree with one header, and the tree from which it has gone. -/
def headerTree : FileTree := FileTree.empty.write ["src", "a.h"] []

def bareTree : FileTree := FileTree.empty.makeDirectory ["src"]

def headerWorkspace : Workspace := (Workspace.empty.start headerTree (.ofString "/")).1

/-- Two queries that each take a request, with the header gone in between, and a third one after
them. The first query has read its tree when the second one begins, and publishes what it has found
after some of the steps in which the second one comes to its end. -/
def overlap (wait : Nat) : List (Event (Option Nat)) :=
  let first : List (Event (Option Nat)) := [.request, .ask 1 fileCount, .advance 1 headerTree,
    .advance 1 headerTree, .advance 1 headerTree, .request]
  let second : List (Event (Option Nat)) :=
    .ask 2 fileCount :: List.replicate 6 (.advance 2 bareTree)
  let third : List (Event (Option Nat)) :=
    [.ask 3 fileCount, .advance 3 bareTree, .advance 3 bareTree]
  (first ++ second.take wait ++ [Event.advance 1 bareTree] ++ second.drop wait ++ third).reverse

/-- What a thread has come to: the request that is owed to it, when the trees of what it has seen
were read, and its answer. -/
def report (s : Session α) (t : Nat) : Option (Nat × List Nat × Option α) :=
  (s.threads t).map fun th => (th.owed, th.seen.map Sight.date, th.stage.query.answer?)

theorem seen_fresh_overlap :
    (ofWorkspace headerWorkspace).scans (overlap 3) = true ∧
      (ofWorkspace headerWorkspace).inOrder (overlap 3) = true ∧
      ((ofWorkspace headerWorkspace).after (overlap 3)).report 3 = some (2, [2], some (some 0)) ∧
      ∃ th, ((ofWorkspace headerWorkspace).after (overlap 3)).threads 3 = some th ∧
        th.stage.query = th.asked.shown (th.seen.map Sight.generation?) ∧
        ∀ sight ∈ th.seen, (ofWorkspace headerWorkspace).Fresh (overlap 3) th.owed sight := by
  have hready : headerWorkspace.isReady = true := by decide +kernel
  have hscans : (ofWorkspace headerWorkspace).scans (overlap 3) = true := by decide +kernel
  have horder : (ofWorkspace headerWorkspace).inOrder (overlap 3) = true := by decide +kernel
  have hreport : ((ofWorkspace headerWorkspace).after (overlap 3)).report 3 =
      some (2, [2], some (some 0)) := by decide +kernel
  obtain ⟨th, hth, -⟩ := Option.map_eq_some_iff.mp hreport
  exact ⟨hscans, horder, hreport, th, hth, seen_fresh hready hscans horder hth⟩

/-- A scan that was overtaken is published all the same. No scan fails, and the second query has
taken the second request and returned; but the third one sees what the first one has found in the
tree before that request, with the header that has gone. On a workspace that has not been started
the requests are taken for nothing. -/
theorem seen_overtaken :
    headerWorkspace.isReady = true ∧
      (ofWorkspace headerWorkspace).scans (overlap 7) = true ∧
      ((ofWorkspace headerWorkspace).after (overlap 7)).report 3 = some (2, [1], some (some 1)) ∧
      (fileCount.run bareTree headerWorkspace.requestReload).1 = some 0 ∧
      (ofWorkspace Workspace.empty).scans (overlap 7) = true ∧
      ((ofWorkspace Workspace.empty).after (overlap 7)).report 3 = some (2, [0], some none) := by
  decide +kernel

end Session

end CrossIndex

import CrossIndex.Proofs.Workspace.Overlap

/-!
What one query sees while others publish. Each look of a query sees the generation that is published at
that moment, and a query may look several times. Main statement: a query answers from a single generation
when all its looks have seen the same one, as they do when nothing is published from before its first look
until it has its answer.
-/

namespace CrossIndex

namespace Query

variable {α : Type}

/-- Looks that have all seen one generation do not change the answer against it. -/
theorem against_shown {g? : Option Generation} (q : Query α) {views : List (Option Generation)}
    (h : ∀ view ∈ views, view = g?) : (q.shown views).against g? = q.against g? := by
  induction views with
  | nil => rfl
  | cons view before ih =>
    have hbefore := ih fun v hv => h v (List.mem_cons_of_mem _ hv)
    rw [shown]
    cases hq : q.shown before with
    | answer a =>
      rw [hq] at hbefore
      exact hbefore
    | look next =>
      rw [hq] at hbefore
      rw [h view List.mem_cons_self]
      exact hbefore

end Query

/-- A query that is at its answer is to look no more. -/
theorem Stage.eq_ready {α : Type} {stage : Stage α} {a : α} (h : stage.query.answer? = some a) :
    stage = .ready (.answer a) := by
  cases stage with
  | ready q =>
    cases q with
    | answer b =>
      rw [Stage.query, Query.answer?, Option.some.injEq] at h
      rw [h]
    | look next => cases h
  | requested next => cases h
  | planned next plan => cases h
  | built next plan g date => cases h
  | settled next => cases h

namespace Session

variable {α : Type} {s : Session α} {t u : Nat} {th th' : Thread α} {tree : FileTree} {e : Event α}

/-! ### What a step does to a thread -/

theorem put_threads_of_ne (s : Session α) (th? : Option (Thread α)) (h : u ≠ t) :
    (s.put t th?).threads u = s.threads u := if_neg h

/-- A step of a thread leaves all others alone. -/
theorem advance_threads_of_ne (s : Session α) (tree : FileTree) (th : Thread α) (h : u ≠ t) :
    (s.advance tree t th).threads u = s.threads u := by
  unfold advance
  split
  case h_1 => exact put_threads_of_ne _ _ h
  case h_2 =>
    split
    · exact put_threads_of_ne _ _ h
    · exact put_threads_of_ne _ _ h
  case h_3 =>
    split
    · exact put_threads_of_ne _ _ h
    · exact put_threads_of_ne _ _ h
  case h_4 =>
    split
    · exact put_threads_of_ne _ _ h
    · exact put_threads_of_ne _ _ h
  case h_5 => exact put_threads_of_ne _ _ h
  case h_6 => exact put_threads_of_ne _ _ h

/-- The thread goes on with its query: it comes nearer to a look, or takes one. -/
inductive GoesOn (s : Session α) (th th' : Thread α) : Prop where
  | on (asked : th'.asked = th.asked) (left : th'.stage.query = th.stage.query)
      (seen : th'.seen = th.seen)
  | sees (asked : th'.asked = th.asked) (next : Option Generation → Query α)
      (before : th.stage.query = .look next)
      (left : th'.stage.query = next s.workspace.generation?)
      (seen : th'.seen = ⟨s.workspace.generation?, s.date⟩ :: th.seen)

/-- The thread has gone to another stage, with the same look before it. -/
theorem GoesOn.of_put {s' : Session α} {stage : Stage α} {taken : Nat}
    (hstage : stage.query = th.stage.query)
    (h : (s'.put t (some { th with stage := stage, taken := taken })).threads t = some th') :
    s.GoesOn th th' := by
  rw [put_threads, Option.some.injEq] at h
  subst h
  exact .on rfl hstage rfl

theorem goesOn_of_advance (h : (s.advance tree t th).threads t = some th') : s.GoesOn th th' := by
  unfold advance at h
  split at h
  case h_1 =>
    rw [put_threads] at h
    cases h
  case h_2 next hstage =>
    split at h
    · exact .of_put (by rw [hstage]; rfl) h
    · exact .of_put (by rw [hstage]; rfl) h
  case h_3 next hstage =>
    split at h
    · exact .of_put (by rw [hstage]; rfl) h
    · exact .of_put (by rw [hstage]; rfl) h
  case h_4 next plan hstage =>
    split at h
    · exact .of_put (by rw [hstage]; rfl) h
    · exact .of_put (by rw [hstage]; rfl) h
  case h_5 next plan g date hstage => exact .of_put (by rw [hstage]; rfl) h
  case h_6 next hstage =>
    rw [put_threads, Option.some.injEq] at h
    subst h
    exact .sees rfl next (by rw [hstage]; rfl) rfl rfl

/-- A thread that is there after an event was there before, or has just begun, or goes on. -/
theorem step_threads (h : (s.step e).threads t = some th') :
    s.threads t = some th' ∨ (∃ q, th' = ⟨q, .ready q, 0, s.answered, []⟩) ∨
      ∃ th, s.threads t = some th ∧ s.GoesOn th th' := by
  cases e with
  | request => exact .inl h
  | ask u q =>
    rw [step] at h
    split at h
    case h_1 hidle =>
      by_cases hut : t = u
      · subst hut
        rw [put_threads, Option.some.injEq] at h
        exact .inr (.inl ⟨q, h.symm⟩)
      · rw [put_threads_of_ne _ _ hut] at h
        exact .inl h
    case h_2 => exact .inl h
  | advance u tree =>
    rw [step] at h
    split at h
    case h_1 => exact .inl h
    case h_2 th hth =>
      by_cases hut : t = u
      · subst hut
        exact .inr (.inr ⟨th, hth, goesOn_of_advance h⟩)
      · rw [advance_threads_of_ne _ _ _ hut] at h
        exact .inl h

/-! ### What is published -/

/-- The event publishes a generation. -/
def publishes (s : Session α) : Event α → Bool
  | .advance t _ =>
    match (s.threads t).map Thread.stage with
    | some (.built _ _ _ _) => true
    | _ => false
  | _ => false

/-- In the course of the events nothing is published. -/
def quiet (s : Session α) : List (Event α) → Bool
  | [] => true
  | e :: before => !(s.after before).publishes e && s.quiet before

/-- Requests, taken or not, leave the published generation in place. -/
theorem step_generation? (h : s.publishes e = false) :
    (s.step e).workspace.generation? = s.workspace.generation? := by
  cases e with
  | request => rfl
  | ask t q =>
    rw [step]
    split
    · rfl
    · rfl
  | advance t tree =>
    rw [step]
    split
    case h_1 => rfl
    case h_2 th hth =>
      unfold advance
      split
      case h_1 => rfl
      case h_2 => split <;> rfl
      case h_3 => split <;> rfl
      case h_4 => split <;> rfl
      case h_5 next plan g date hstage =>
        rw [publishes, hth, Option.map_some, hstage] at h
        cases h
      case h_6 => rfl

theorem generation?_of_quiet {later : List (Event α)} (h : s.quiet later = true) :
    (s.after later).workspace.generation? = s.workspace.generation? := by
  induction later with
  | nil => rfl
  | cons e before ih =>
    rw [quiet, Bool.and_eq_true, Bool.not_eq_true'] at h
    calc (s.after (e :: before)).workspace.generation?
        = (s.after before).workspace.generation? := step_generation? h.1
      _ = s.workspace.generation? := ih h.2

/-! ### What the looks have seen -/

/-- What is published after some events. -/
def generationAfter? (s : Session α) (events : List (Event α)) : Option Generation :=
  (s.after events).workspace.generation?

/-- The moments, each given by the events before it, at which the query of a thread has looked, the
last one first. -/
structure Looked (start : Session α) (events : List (Event α)) (t : Nat) (th : Thread α)
    (moments : List (List (Event α))) : Prop where
  /-- What the looks have seen leads from the query to what is left of it. -/
  left : th.stage.query = th.asked.shown (moments.map start.generationAfter?)
  seen : th.seen.map Sight.generation? = moments.map start.generationAfter?
  past : ∀ moment ∈ moments, moment <:+ events
  inTurn : moments.Pairwise fun later before => before <:+ later
  running : ∀ moment ∈ moments, ∃ th', (start.after moment).threads t = some th' ∧
    th'.asked = th.asked

variable {start : Session α} {before : List (Event α)} {moments : List (List (Event α))}

theorem Looked.later (h : start.Looked before t th moments) :
    start.Looked (e :: before) t th moments :=
  ⟨h.left, h.seen, fun moment hmoment => (h.past moment hmoment).trans (List.suffix_cons e before),
    h.inTurn, h.running⟩

theorem Looked.goesOn (h : start.Looked before t th moments)
    (hth : (start.after before).threads t = some th) (hgoes : (start.after before).GoesOn th th') :
    ∃ moments', start.Looked (e :: before) t th' moments' := by
  cases hgoes with
  | on asked left seen =>
    refine ⟨moments, ?_, ?_, h.later.past, h.inTurn, ?_⟩
    · rw [left, asked]
      exact h.left
    · rw [seen]
      exact h.seen
    · rw [asked]
      exact h.running
  | sees asked next look left seen =>
    -- the moment of this look is the present one
    refine ⟨before :: moments, ?_, ?_, ?_, ?_, ?_⟩
    · rw [left, asked, List.map_cons, Query.shown, ← h.left, look]
      rfl
    · rw [seen, List.map_cons, List.map_cons, h.seen]
      rfl
    · intro moment hmoment
      rcases List.mem_cons.mp hmoment with rfl | hmoment
      · exact List.suffix_cons e _
      · exact h.later.past moment hmoment
    · exact List.pairwise_cons.mpr ⟨h.past, h.inTurn⟩
    · intro moment hmoment
      rw [asked]
      rcases List.mem_cons.mp hmoment with rfl | hmoment
      · exact ⟨th, hth, rfl⟩
      · exact h.running moment hmoment

theorem looked_after (hidle : ∀ u, start.threads u = none) {events : List (Event α)}
    (hth : (start.after events).threads t = some th) :
    ∃ moments, start.Looked events t th moments := by
  induction events generalizing th with
  | nil =>
    rw [after, hidle t] at hth
    cases hth
  | cons e before ih =>
    obtain hold | ⟨q, rfl⟩ | ⟨old, hold, hgoes⟩ := step_threads hth
    · obtain ⟨moments, hlooked⟩ := ih hold
      exact ⟨moments, hlooked.later⟩
    · exact ⟨[], rfl, rfl, fun _ h => (List.not_mem_nil h).elim, .nil,
        fun _ h => (List.not_mem_nil h).elim⟩
    · obtain ⟨moments, hlooked⟩ := ih hold
      exact hlooked.goesOn hold hgoes

/-- As long as nothing is published, every look that a thread takes sees what is published. -/
theorem seen_of_quiet {later : List (Event α)} (hquiet : s.quiet later = true)
    (hnew : ∀ old, s.threads t = some old → old.seen = [])
    (hth : (s.after later).threads t = some th) :
    ∀ sight ∈ th.seen, sight.generation? = s.workspace.generation? := by
  induction later generalizing th with
  | nil =>
    rw [hnew th hth]
    exact fun _ h => (List.not_mem_nil h).elim
  | cons e before ih =>
    rw [quiet, Bool.and_eq_true] at hquiet
    obtain hold | ⟨q, rfl⟩ | ⟨old, hold, hgoes⟩ := step_threads hth
    · exact ih hquiet.2 hold
    · exact fun _ h => (List.not_mem_nil h).elim
    · have hseen := ih hquiet.2 hold
      cases hgoes with
      | on _ _ seen =>
        rw [seen]
        exact hseen
      | sees _ _ _ _ seen =>
        rw [seen]
        intro sight hsight
        rcases List.mem_cons.mp hsight with rfl | hsight
        · exact generation?_of_quiet hquiet.2
        · exact hseen sight hsight

/-- The answer of a query is what the generations published at the moments of its looks lead to. It is
the answer against one generation if that was published at all of these moments, as it was if nothing
was published from some time on at which the thread had not looked. -/
theorem answer_of_looks {w : Workspace} {events : List (Event α)} {a : α}
    (hth : ((ofWorkspace w).after events).threads t = some th)
    (hanswer : th.stage = .ready (.answer a)) :
    ∃ moments, (ofWorkspace w).Looked events t th moments ∧
      .answer a = th.asked.shown (moments.map (ofWorkspace w).generationAfter?) ∧
      (∀ g?, (∀ moment ∈ moments, (ofWorkspace w).generationAfter? moment = g?) →
        a = th.asked.against g?) ∧
      ∀ later before, events = later ++ before →
        (∀ old, ((ofWorkspace w).after before).threads t = some old → old.seen = []) →
        ((ofWorkspace w).after before).quiet later = true →
        a = th.asked.against ((ofWorkspace w).generationAfter? before) := by
  obtain ⟨moments, hlooked⟩ := looked_after (fun _ => rfl) hth
  have hshown : .answer a = th.asked.shown (moments.map (ofWorkspace w).generationAfter?) := by
    rw [← hlooked.left, hanswer]
    rfl
  have hone : ∀ g?, (∀ moment ∈ moments, (ofWorkspace w).generationAfter? moment = g?) →
      a = th.asked.against g? := by
    intro g? hall
    have hviews : ∀ view ∈ moments.map (ofWorkspace w).generationAfter?, view = g? := by
      intro view hview
      obtain ⟨moment, hmoment, rfl⟩ := List.mem_map.mp hview
      exact hall moment hmoment
    calc a = (Query.answer a).against g? := rfl
      _ = (th.asked.shown (moments.map (ofWorkspace w).generationAfter?)).against g? := by rw [← hshown]
      _ = th.asked.against g? := th.asked.against_shown hviews
  refine ⟨moments, hlooked, hshown, hone, ?_⟩
  -- from then on every look sees the one generation, and the moments are those of the looks
  intro later before hevents hnew hquiet
  rw [hevents, after_append] at hth
  have hseen := seen_of_quiet hquiet hnew hth
  apply hone
  intro moment hmoment
  have hview : (ofWorkspace w).generationAfter? moment ∈ th.seen.map Sight.generation? := by
    rw [hlooked.seen]
    exact List.mem_map_of_mem hmoment
  obtain ⟨sight, hsight, hview⟩ := List.mem_map.mp hview
  rw [← hview]
  exact hseen sight hsight

/-- A tree in which a Python module registers a function. -/
def pythonTree : FileTree :=
  FileTree.empty.write ["python", "tvm", "__init__.py"]
    "@register_func(\"k\")\ndef f():\n".toUTF8.toList

/-- A tree in which the function is native, and the module has gone. -/
def nativeTree : FileTree :=
  FileTree.empty.write ["src", "k.cc"] "TVM_REGISTER_GLOBAL(\"k\")\n".toUTF8.toList

def pythonWorkspace : Workspace := (Workspace.empty.start pythonTree (.ofString "/")).1

/-- Asks for the definitions of the key under a cursor in the module. -/
def atDecorator : Query (List Location) :=
  .definitionsAt nativeTree (.ofString "/python/tvm/__init__.py")
    ["@register_func(\"k\")", "def f():"] ⟨0, 16⟩

/-- The query, with a request after some of its steps and the tree that is there from then on. -/
def interrupted (tree : FileTree) (wait : Nat) : List (Event (List Location)) :=
  let steps := fun n => List.replicate n (Event.advance 1 tree)
  (Event.ask 1 atDecorator :: steps wait ++ .request :: steps (7 - wait)).reverse

theorem answer_of_looks_renewed :
    ∃ th, ((ofWorkspace pythonWorkspace).after (interrupted pythonTree 0)).threads 1 = some th ∧
      th.stage = .ready (.answer [⟨.ofString "/python/tvm/__init__.py", .onLine 0 16 17⟩]) ∧
      ((ofWorkspace pythonWorkspace).after ((interrupted pythonTree 0).drop 3)).quiet
        ((interrupted pythonTree 0).take 3) = true ∧
      [⟨.ofString "/python/tvm/__init__.py", .onLine 0 16 17⟩] = th.asked.against
        ((ofWorkspace pythonWorkspace).generationAfter? ((interrupted pythonTree 0).drop 3)) := by
  have hanswer : (((ofWorkspace pythonWorkspace).after (interrupted pythonTree 0)).threads 1).map
      (fun th => th.stage.query.answer?) =
        some (some [⟨.ofString "/python/tvm/__init__.py", .onLine 0 16 17⟩]) := by decide +kernel
  have hnew : (((ofWorkspace pythonWorkspace).after ((interrupted pythonTree 0).drop 3)).threads 1).all
      (fun old => old.seen.isEmpty) = true := by decide +kernel
  have hquiet : ((ofWorkspace pythonWorkspace).after ((interrupted pythonTree 0).drop 3)).quiet
      ((interrupted pythonTree 0).take 3) = true := by decide +kernel
  obtain ⟨th, hth, hstage⟩ := Option.map_eq_some_iff.mp hanswer
  have hready := Stage.eq_ready hstage
  obtain ⟨-, -, -, -, hagainst⟩ := answer_of_looks hth hready
  refine ⟨th, hth, hready, hquiet, hagainst _ _ (List.take_append_drop 3 _).symm ?_ hquiet⟩
  intro old hold
  rw [hold, Option.all_some] at hnew
  exact List.isEmpty_iff.mp hnew

/-- A tree with a use of a key in a native file and another one in a module, below some other text. -/
def usesTree (above : String) : FileTree :=
  (FileTree.empty.write ["python", "tvm", "__init__.py"]
    (above ++ "from ._ffi.function import _init_api\n_init_api(\"k\")\nfrom . import f\n" ++
      "f(1)\n").toUTF8.toList).write
    ["src", "use.cc"] (above ++ "GetPackedFunc(\"k.f\");\n").toUTF8.toList

/-- What a scan of these files finds. -/
def usesGeneration (tree : FileTree) : Generation :=
  .ofSources (.ofString "/") [.tvm]
    ([.ofString "/python/tvm/__init__.py", .ofString "/src/use.cc"].filterMap
      (Generation.source? tree))

/-- Asks for the references to the key under a cursor in the native file. -/
def atUse (tree : FileTree) : Query (List Location) :=
  .referencesAt tree (.ofString "/src/use.cc") ["GetPackedFunc(\"k.f\");"] ⟨0, 16⟩

/-- A request that comes between the looks of a query mixes two generations in its answer: the first
one has recognised the key under the cursor, the second one knows its native definition, and each of
them alone gives another answer. A single look can do so too, as it finds the uses in the index of the
generation, and those in the texts of the modules that are there by now. -/
theorem answer_mixed :
    (∃ th a, ((ofWorkspace pythonWorkspace).after (interrupted nativeTree 2)).threads 1 = some th ∧
      th.stage = .ready (.answer a) ∧ ∀ moment, moment <:+ interrupted nativeTree 2 →
        a ≠ th.asked.against ((ofWorkspace pythonWorkspace).generationAfter? moment)) ∧
      let old := usesTree ""
      let new := usesTree "\n"
      let answer := (atUse new).against (some (usesGeneration old))
      answer ≠ (atUse old).against (some (usesGeneration old)) ∧
        answer ≠ (atUse new).against (some (usesGeneration new)) := by
  constructor
  · have hanswer : (((ofWorkspace pythonWorkspace).after (interrupted nativeTree 2)).threads 1).map
        (fun th => (th.stage.query.answer?, (List.range 10).all fun n =>
          th.asked.against ((ofWorkspace pythonWorkspace).generationAfter?
              ((interrupted nativeTree 2).drop n)) ≠ [⟨.ofString "/src/k.cc", .onLine 0 21 22⟩])) =
          some (some [⟨.ofString "/src/k.cc", .onLine 0 21 22⟩], true) := by decide +kernel
    obtain ⟨th, hth, hreport⟩ := Option.map_eq_some_iff.mp hanswer
    obtain ⟨hstage, hall⟩ := Prod.mk.inj hreport
    refine ⟨th, _, hth, Stage.eq_ready hstage, ?_⟩
    intro moment hmoment
    -- a moment is told by how many events are still to come
    rw [List.suffix_iff_eq_drop.mp hmoment]
    have hn := List.all_eq_true.mp hall _ (List.mem_range.mpr
      (Nat.lt_succ_of_le (Nat.sub_le (interrupted nativeTree 2).length moment.length)))
    exact (of_decide_eq_true hn).symm
  · decide +kernel

end Session

end CrossIndex

import CrossIndex.Server.Basic

/-!
The buffers of open documents. A buffer is what the notifications of a client make of the text of a
document, and says nothing of the server. Main statement: a server holds for each open document the
buffer that is left when the first change of every notification is made and no other; where each
notification brings one change at most, that is the buffer.
-/

namespace CrossIndex

namespace Documents

variable (documents : Documents) (url other : Url) (text : String)

theorem get?_close :
    (documents.close other).get? url = if other = url then none else documents.get? url := by
  obtain ⟨texts⟩ := documents
  change ((texts.filter (·.1 ≠ other)).find? (·.1 = url)).map Prod.snd =
    if other = url then none else (texts.find? (·.1 = url)).map Prod.snd
  induction texts with
  | nil => simp
  | cons entry rest ih =>
    by_cases hother : entry.1 = other
    · -- the entry is dropped, and was none of another document
      rw [List.filter_cons_of_neg (by simpa using hother), ih]
      by_cases hsame : other = url
      · rw [if_pos hsame, if_pos hsame]
      · rw [if_neg hsame, if_neg hsame,
          List.find?_cons_of_neg (by simpa [hother] using hsame)]
    · rw [List.filter_cons_of_pos (by simpa using hother)]
      by_cases hurl : entry.1 = url
      · have hsame : ¬other = url := fun h => hother (hurl.trans h.symm)
        rw [if_neg hsame, List.find?_cons_of_pos (by simpa using hurl),
          List.find?_cons_of_pos (by simpa using hurl)]
      · rw [List.find?_cons_of_neg (by simpa using hurl),
          List.find?_cons_of_neg (by simpa using hurl), ih]

theorem get?_store :
    (documents.store other text).get? url =
      if other = url then some text else documents.get? url := by
  change (((other, text) :: (documents.close other).texts).find? (·.1 = url)).map Prod.snd = _
  by_cases hsame : other = url
  · rw [List.find?_cons_of_pos (by simpa using hsame), if_pos hsame, Option.map_some]
  · have hclose := documents.get?_close url other
    rw [if_neg hsame] at hclose
    rw [List.find?_cons_of_neg (by simpa using hsame), if_neg hsame, ← hclose, get?]

end Documents

namespace Notification

/-- The document that a notification is about. -/
def url? : Notification → Option Url
  | opened url _ | changed url _ | saved url _ | closed url => Url.read? url
  | started | fileChanged _ => none

/-- What a notification about a document makes of its buffer. A document that is not open has none.
Changes are made in order, and each of them is the whole new text. -/
def edit : Notification → Option String → Option String
  | opened _ text, _ => some text
  | changed _ texts, buffer? => buffer?.map fun text => texts.foldl (fun _ new => new) text
  | saved _ text?, buffer? => buffer?.map text?.getD
  | closed _, _ => none
  | started, buffer? | fileChanged _, buffer? => buffer?

/-- The new texts that a notification of changes brings. -/
def changes : Notification → List String
  | changed _ texts => texts
  | _ => []

/-- Only an open document can be changed or saved. -/
def needsOpen : Notification → Bool
  | changed _ _ | saved _ _ => true
  | _ => false

/-- The notification without its changes after the first one. -/
def withFirstChange : Notification → Notification
  | changed url texts => changed url (texts.take 1)
  | n => n

theorem url?_withFirstChange (n : Notification) : n.withFirstChange.url? = n.url? := by
  cases n <;> rfl

theorem foldl_changes (texts : List String) (text : String) :
    texts.foldl (fun _ new => new) text = texts.getLast?.getD text := by
  induction texts generalizing text with
  | nil => rfl
  | cons first rest ih => rw [List.foldl_cons, ih, List.getLast?_cons, Option.getD_some]

theorem getLast?_take_one (texts : List String) : (texts.take 1).getLast? = texts.head? := by
  cases texts with
  | nil => rfl
  | cons first rest => rfl

theorem edit_withFirstChange {n : Notification} (h : n.changes.head? = n.changes.getLast?) :
    n.withFirstChange.edit = n.edit := by
  cases n with
  | changed url texts =>
    have hlast : (texts.take 1).getLast? = texts.getLast? := (getLast?_take_one texts).trans h
    funext buffer?
    simp only [withFirstChange, edit, foldl_changes, hlast]
  | started | opened | saved | closed | fileChanged => rfl

theorem isSome_edit_withFirstChange (n : Notification) (buffer? : Option String) :
    (n.withFirstChange.edit buffer?).isSome = (n.edit buffer?).isSome := by
  cases n with
  | changed url texts => simp [withFirstChange, edit]
  | started | opened | saved | closed | fileChanged => rfl

end Notification

/-- The buffer of a document after notifications, of which the last one comes first. -/
def buffer? (url : Url) : List Notification → Option String
  | [] => none
  | n :: before => if n.url? = some url then n.edit (buffer? url before) else buffer? url before

/-- The document is changed and saved only while it is open. -/
def KeepsOrder (url : Url) : List Notification → Prop
  | [] => True
  | n :: before =>
    (n.url? = some url → n.needsOpen = true → (buffer? url before).isSome = true) ∧
      KeepsOrder url before

instance decidableKeepsOrder (url : Url) :
    (notes : List Notification) → Decidable (KeepsOrder url notes)
  | [] => .isTrue trivial
  | _ :: before =>
    have := decidableKeepsOrder url before
    inferInstanceAs (Decidable (_ ∧ _))

variable {url : Url} {notes : List Notification}

/-- Which changes are made says nothing about whether a document is open. -/
theorem isSome_buffer?_withFirstChange (url : Url) (notes : List Notification) :
    (buffer? url (notes.map .withFirstChange)).isSome = (buffer? url notes).isSome := by
  induction notes with
  | nil => rfl
  | cons n before ih =>
    rw [List.map_cons, buffer?, buffer?, n.url?_withFirstChange]
    split
    · rw [n.isSome_edit_withFirstChange]
      cases n with
      | opened | closed => rfl
      | started | changed | saved | fileChanged => simpa [Notification.edit] using ih
    · exact ih

/-- Where the first change of each notification is also its last one, no other change counts. -/
theorem buffer?_withFirstChange
    (h : ∀ n ∈ notes, n.url? = some url → n.changes.head? = n.changes.getLast?) :
    buffer? url (notes.map .withFirstChange) = buffer? url notes := by
  induction notes with
  | nil => rfl
  | cons n before ih =>
    have hbefore := ih fun m hm => h m (List.mem_cons_of_mem _ hm)
    rw [List.map_cons, buffer?, buffer?, n.url?_withFirstChange, hbefore]
    by_cases hurl : n.url? = some url
    · rw [if_pos hurl, if_pos hurl,
        Notification.edit_withFirstChange (h n List.mem_cons_self hurl)]
    · rw [if_neg hurl, if_neg hurl]

namespace Server

variable {server : Server} {tree : FileTree} {n : Notification}

theorem storeText_phase (server : Server) (url : Url) (text? : Option String) :
    (server.storeText url text?).phase = server.phase := by
  cases text? with
  | none => rfl
  | some text => rfl

theorem heed_phase (server : Server) (tree : FileTree) (n : Notification) :
    (server.heed tree n).1.phase = server.phase := by
  -- a notification with a URL that is none changes nothing at all
  have habout : ∀ (text : String) (act : Url → Server), (∀ url, (act url).phase = server.phase) →
      ((Url.read? text).elim server act).phase = server.phase := by
    intro text act hact
    cases Url.read? text with
    | none => rfl
    | some url => exact hact url
  cases n with
  | started => rfl
  | opened text _ => exact habout text _ fun url => server.storeText_phase url _
  | changed text texts => exact habout text _ fun url => server.storeText_phase url _
  | saved text text? => exact habout text _ fun url => server.storeText_phase url _
  | closed text => exact habout text _ fun _ => rfl
  | fileChanged text => exact habout text _ fun _ => rfl

/-- The text of an open document is replaced when there is a new one. -/
theorem get?_storeText {other : Url} (hopen : other = url → (server.documents.get? url).isSome = true)
    (text? : Option String) :
    (server.storeText other text?).documents.get? url =
      if other = url then (server.documents.get? url).map text?.getD
      else server.documents.get? url := by
  by_cases hsame : other = url
  · obtain ⟨old, hold⟩ := Option.isSome_iff_exists.mp (hopen hsame)
    rw [if_pos hsame, hold]
    cases text? with
    | none => exact hold
    | some new => exact (server.documents.get?_store url other new).trans (if_pos hsame)
  · rw [if_neg hsame]
    cases text? with
    | none => rfl
    | some new => exact (server.documents.get?_store url other new).trans (if_neg hsame)

/-- A notification about a document makes its first change, and one about another document none. -/
theorem get?_heed
    (hopen : n.url? = some url → n.needsOpen = true → (server.documents.get? url).isSome = true) :
    (server.heed tree n).1.documents.get? url =
      if n.url? = some url then n.withFirstChange.edit (server.documents.get? url)
      else server.documents.get? url := by
  have habout : ∀ (text : String) (act : Url → Server) (new? : Option String → Option String),
      (∀ other, Url.read? text = some other → (act other).documents.get? url =
        if other = url then new? (server.documents.get? url) else server.documents.get? url) →
      ((Url.read? text).elim server act).documents.get? url =
        if Url.read? text = some url then new? (server.documents.get? url)
        else server.documents.get? url := by
    intro text act new? hact
    cases hread : Url.read? text with
    | none => simp
    | some other => simpa using hact other hread
  cases n with
  | started => rfl
  | opened text new =>
    exact habout text _ _ fun other _ => server.documents.get?_store url other new
  | changed text texts =>
    refine habout text _ _ fun other hread => ?_
    rw [get?_storeText fun hsame => hopen (hsame ▸ hread) rfl]
    simp only [Notification.withFirstChange, Notification.edit, Notification.foldl_changes,
      Notification.getLast?_take_one]
  | saved text text? =>
    refine habout text _ _ fun other hread => ?_
    exact get?_storeText (fun hsame => hopen (hsame ▸ hread) rfl) text?
  | closed text =>
    exact habout text _ _ fun other _ => server.documents.get?_close url other
  | fileChanged text =>
    change ((Url.read? text).elim server fun _ => server.requestReload).documents.get? url = _
    cases Url.read? text <;> rfl

/-- The server after notifications, of which the last one comes first. Each meets a file tree of its
own. -/
def heedAll (server : Server) : List (FileTree × Notification) → Server
  | [] => server
  | (tree, n) :: before => ((server.heedAll before).notify tree n).1

/-- The documents of a running server are the buffers with the first change of each notification. -/
theorem get?_heedAll {notes : List (FileTree × Notification)} (hrunning : server.phase = .running)
    (hclosed : server.documents.get? url = none) (horder : KeepsOrder url (notes.map Prod.snd)) :
    (server.heedAll notes).phase = .running ∧
      (server.heedAll notes).documents.get? url =
        buffer? url ((notes.map Prod.snd).map .withFirstChange) := by
  induction notes with
  | nil => exact ⟨hrunning, hclosed⟩
  | cons note before ih =>
    obtain ⟨tree, n⟩ := note
    obtain ⟨hopen, hbefore⟩ := horder
    obtain ⟨hphase, hget⟩ := ih hbefore
    have hheed : server.heedAll ((tree, n) :: before) = ((server.heedAll before).heed tree n).1 := by
      rw [heedAll, notify, hphase]
    have hopen' : n.url? = some url → n.needsOpen = true →
        ((server.heedAll before).documents.get? url).isSome = true := by
      rw [hget, isSome_buffer?_withFirstChange]
      exact hopen
    rw [hheed, heed_phase, get?_heed hopen', hget]
    refine ⟨hphase, ?_⟩
    rw [List.map_cons, List.map_cons, buffer?, n.url?_withFirstChange]

/-- The text of a document that is open is its buffer, and after it is closed the file; but of several
changes in one notification the server makes the first alone. Where the first one is the last one as
well, no change is lost. -/
theorem text?_heedAll {notes : List (FileTree × Notification)} (hrunning : server.phase = .running)
    (hclosed : server.documents.get? url = none) (horder : KeepsOrder url (notes.map Prod.snd))
    (tree : FileTree) (path : Path) :
    (server.heedAll notes).documents.text? tree url path =
        (buffer? url ((notes.map Prod.snd).map .withFirstChange)).or (tree.readText? path) ∧
      ((∀ n ∈ notes.map Prod.snd, n.url? = some url → n.changes.head? = n.changes.getLast?) →
        (server.heedAll notes).documents.text? tree url path =
          (buffer? url (notes.map Prod.snd)).or (tree.readText? path)) := by
  have hget := (get?_heedAll hrunning hclosed horder).2
  constructor
  · rw [Documents.text?, hget]
  · intro hfirst
    rw [Documents.text?, hget, buffer?_withFirstChange hfirst]

/-- A server that has been started and has no document open. -/
def idleServer : Server := { fresh with phase := .running }

def sketchUrl : Url := .file ⟨"", ["sketch.py"], none, none⟩

/-- Two documents are edited by turns, and the other one is closed again. -/
def editing : List (FileTree × Notification) :=
  [.changed "file:///sketch.py" ["c = 3\n"], .closed "file:///other.py",
    .saved "file:///sketch.py" (some "b = 2\n"), .changed "file:///other.py" ["y = 2\n"],
    .opened "file:///other.py" "x = 1\n", .changed "file:///sketch.py" ["b = 2\n"],
    .opened "file:///sketch.py" "a = 1\n"].map (FileTree.empty, ·)

theorem text?_heedAll_editing :
    idleServer.phase = .running ∧ idleServer.documents.get? sketchUrl = none ∧
      KeepsOrder sketchUrl (editing.map Prod.snd) ∧
      (∀ n ∈ editing.map Prod.snd,
        n.url? = some sketchUrl → n.changes.head? = n.changes.getLast?) ∧
      (idleServer.heedAll editing).documents.text? .empty sketchUrl (.ofString "/sketch.py") =
        some "c = 3\n" := by
  have horder : KeepsOrder sketchUrl (editing.map Prod.snd) := by decide +kernel
  have hfirst : ∀ n ∈ editing.map Prod.snd,
      n.url? = some sketchUrl → n.changes.head? = n.changes.getLast? := by decide +kernel
  have hbuffer : buffer? sketchUrl (editing.map Prod.snd) = some "c = 3\n" := by decide +kernel
  have hrunning : idleServer.phase = .running := rfl
  have hclosed : idleServer.documents.get? sketchUrl = none := rfl
  have htext := (text?_heedAll hrunning hclosed horder .empty (.ofString "/sketch.py")).2 hfirst
  rw [hbuffer, Option.some_or] at htext
  exact ⟨hrunning, hclosed, horder, hfirst, htext⟩

/-- Of two changes in one notification the second one is lost. -/
theorem text?_heedAll_two_changes :
    let notes := [(FileTree.empty, Notification.changed "file:///sketch.py" ["b = 2\n", "c = 3\n"]),
      (FileTree.empty, .opened "file:///sketch.py" "a = 1\n")]
    idleServer.phase = .running ∧ idleServer.documents.get? sketchUrl = none ∧
      KeepsOrder sketchUrl (notes.map Prod.snd) ∧
      buffer? sketchUrl (notes.map Prod.snd) = some "c = 3\n" ∧
      (idleServer.heedAll notes).documents.text? .empty sketchUrl (.ofString "/sketch.py") =
        some "b = 2\n" := by
  decide +kernel

end Server

end CrossIndex

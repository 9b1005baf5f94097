import CrossIndex.Workspace.Generation

/-!
Workspaces: the published generation of a source tree, and whether it is to be scanned again before
the next query. A scan builds a whole new generation, which then takes the place of the one before;
a scan that fails leaves the one before in place.
-/

namespace CrossIndex

/-- What a workspace answers from: the last plan that led to a generation, and that generation. -/
structure Published where
  plan : Plan
  generation : Generation
  deriving Repr

structure Workspace where
  published? : Option Published
  reloadRequested : Bool
  deriving Repr

namespace Workspace

/-- A workspace that has not been started. -/
def empty : Workspace := ⟨none, false⟩

def isReady (w : Workspace) : Bool := w.published?.isSome

def root? (w : Workspace) : Option Path := w.published?.map (·.plan.root)

def generation? (w : Workspace) : Option Generation := w.published?.map (·.generation)

/-- Asks for a reload before the next query. -/
def requestReload (w : Workspace) : Workspace := { w with reloadRequested := true }

/-- Takes a request for a reload, which is answered from then on. -/
def takeRequest (w : Workspace) : Workspace := { w with reloadRequested := false }

/-- Puts a new generation in place of the one before. -/
def publish (w : Workspace) (plan : Plan) (generation : Generation) : Workspace :=
  { w with published? := some ⟨plan, generation⟩ }

def scan (w : Workspace) (tree : FileTree) (plan : Plan) :
    Workspace × Except WorkspaceError Unit :=
  match Generation.build tree plan with
  | .ok generation => (w.publish plan generation, .ok ())
  | .error e => (w, .error (.badGlob e))

/-- Starts the workspace on the source tree below a root, or starts it anew on another. The plan is
made first; with it all requests so far are answered by the scan. -/
def start (w : Workspace) (tree : FileTree) (root : Path) :
    Workspace × Except WorkspaceError Unit :=
  match Plan.ofRoot tree root with
  | .error e => (w, .error e)
  | .ok plan => w.takeRequest.scan tree plan

/-- Scans the source tree again. A workspace that has not been started has nothing to scan. -/
def reload (w : Workspace) (tree : FileTree) : Workspace × Except WorkspaceError Unit :=
  match w.published? with
  | none => (w, .ok ())
  | some ⟨plan, _⟩ => w.scan tree plan

/-- Answers a request for a reload where there is one. A reload that fails changes nothing else. -/
def refresh (w : Workspace) (tree : FileTree) : Workspace :=
  if w.reloadRequested then (w.takeRequest.reload tree).1 else w

end Workspace

end CrossIndex

import CrossIndex.Matcher.Decorator
import CrossIndex.Proofs.Matcher.Window

/-!
Searches window by window. Main statement: what a matcher finds in a window, and what is made of each
match there, is what it finds in the two parts of the window one after the other, wherever the window
is cut; so windows that follow one another through a file find what a search of the whole file does.
-/

namespace CrossIndex

variable {β γ : Type}

namespace Window

/-- The windows between cuts, one after the other. The first begins at the line `first`, and the last
goes as far as the whole. -/
def tiles (stop? : Option Nat) (first : Nat) : List Nat → List Window
  | [] => [⟨first, stop?⟩]
  | middle :: cuts => ⟨first, some middle⟩ :: tiles stop? middle cuts

/-- A window can be searched in parts: nothing is lost at a cut, nothing is found twice, and the order
is kept. -/
structure FindsInParts (find : Window → List β) : Prop where
  cut : ∀ {first middle : Nat} {stop? : Option Nat}, first ≤ middle →
    (∀ stop ∈ stop?, middle ≤ stop) →
      find ⟨first, stop?⟩ = find ⟨first, some middle⟩ ++ find ⟨middle, stop?⟩
  tiles : ∀ {first : Nat} {stop? : Option Nat} {cuts : List Nat},
    (first :: cuts).Pairwise (· ≤ ·) → (∀ stop ∈ stop?, ∀ middle ∈ cuts, middle ≤ stop) →
      (tiles stop? first cuts).flatMap find = find ⟨first, stop?⟩

/-- A search that can be cut once can be cut into any number of windows. -/
theorem findsInParts_of_cut {find : Window → List β}
    (hcut : ∀ {first middle : Nat} {stop? : Option Nat}, first ≤ middle →
      (∀ stop ∈ stop?, middle ≤ stop) →
        find ⟨first, stop?⟩ = find ⟨first, some middle⟩ ++ find ⟨middle, stop?⟩) :
    FindsInParts find := by
  refine ⟨hcut, ?_⟩
  intro first stop? cuts hordered hstop
  induction cuts generalizing first with
  | nil => exact List.flatMap_singleton find _
  | cons middle cuts ih =>
    obtain ⟨hfirst, hrest⟩ := List.pairwise_cons.mp hordered
    have hmiddle : ∀ stop ∈ stop?, middle ≤ stop :=
      fun stop hs => hstop stop hs middle List.mem_cons_self
    have htail := ih hrest fun stop hs c hc => hstop stop hs c (List.mem_cons_of_mem _ hc)
    rw [Window.tiles, List.flatMap_cons, htail, hcut (hfirst middle List.mem_cons_self) hmiddle]

/-- What is made of the items of a scan is found in parts: an item depends on its line, and on the line
below even where that is behind the end of the window. -/
theorem findsInParts_scan (lines : List String) (f : Nat → String → Option String → List β)
    (create : β → Option γ) : FindsInParts fun w => (w.scan lines f).filterMap create := by
  apply findsInParts_of_cut
  intro first middle stop? hfirst hstop
  rw [scan_cut lines f hfirst hstop, List.filterMap_append]

end Window

/-- Matches of a pattern, keys given by name, at the start of lines or anywhere, and keys of decorators
are found in parts, whatever is made of each match. -/
theorem findsInParts_matchers (lines : List String) :
    (∀ (p : Pattern) (create : Found → Option γ),
        Window.FindsInParts fun w => (p.foundInLines lines w).filterMap create) ∧
      (∀ (p : Pattern) (create : KeyHit → Option γ),
        Window.FindsInParts fun w => (p.lineKeys lines w).filterMap create) ∧
      (∀ (p : Pattern) (create : KeyHit → Option γ),
        Window.FindsInParts fun w => (p.allKeys lines w).filterMap create) ∧
      ∀ (d : DecoratorMatcher) (create : KeyHit → Option γ),
        Window.FindsInParts fun w => (d.hits lines w).filterMap create := by
  refine ⟨?_, ?_, ?_, ?_⟩
  · intro p create
    exact Window.findsInParts_scan lines _ create
  · intro p create
    exact Window.findsInParts_scan lines _ create
  · intro p create
    exact Window.findsInParts_scan lines _ create
  · intro d create
    exact Window.findsInParts_scan lines _ create

/-- A bare decorator on the last line of a part has its key from the first line of the next one, and
windows may reach past the end of the file. -/
theorem findsInParts_matchers_border :
    let lines := ["@register", "def key(x):", "get(\"a\") + get(\"b\")"]
    let declared := KeyHit.mk "register" "key" (.onLine 1 4 7)
    let find := fun w : Window => (DecoratorMatcher.ofNames ["register"] "def").hits lines w
    let calls := fun w : Window => (Pattern.callSite ["get"]).allKeys lines w
    find ⟨0, some 1⟩ = [declared] ∧ find ⟨1, some 9⟩ = [] ∧ find ⟨0, some 9⟩ = [declared] ∧
      find ⟨0, some 9⟩ = find ⟨0, some 1⟩ ++ find ⟨1, some 9⟩ ∧
      (calls .all).map KeyHit.key = ["a", "b"] ∧
      (Window.tiles none 0 [2, 2, 7]).flatMap calls = calls .all := by
  intro lines declared find calls
  obtain ⟨-, -, hcalls, hhits⟩ := @findsInParts_matchers KeyHit lines
  have hcut := @(hhits (.ofNames ["register"] "def") some).cut 0 1 (some 9) (by decide) (by decide)
  have htiles := @(hcalls (.callSite ["get"]) some).tiles 0 none [2, 2, 7] (by decide) (by decide)
  simp only [List.filterMap_some] at hcut htiles
  exact ⟨by decide +kernel, by decide +kernel, by decide +kernel, hcut, by decide +kernel, htiles⟩

end CrossIndex

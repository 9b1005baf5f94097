import CrossIndex.Dialect.Provider
import CrossIndex.Proofs.Table

/-!
Package roots in any order. Each provider notes the root of one package. Main statement: when no
provider finds two files that show its root, the providers come to the same end whatever the order in
which they see the files, and note the same roots in the graph.
-/

open Std

namespace CrossIndex

theorem eq_of_mem_of_length_le_one {α : Type} {l : List α} (h : l.length ≤ 1) {a b : α}
    (ha : a ∈ l) (hb : b ∈ l) : a = b := by
  match l with
  | [] => cases ha
  | [c] => rw [List.mem_singleton.mp ha, List.mem_singleton.mp hb]
  | c :: d :: more =>
    simp only [List.length_cons] at h
    omega

theorem eq_of_perm_of_length_le_one {α : Type} {l l' : List α} (h : l.Perm l')
    (hone : l.length ≤ 1) : l = l' := by
  match l with
  | [] => exact (List.nil_perm.mp h).symm
  | [c] => exact (List.singleton_perm.mp h)
  | c :: d :: more =>
    simp only [List.length_cons] at hone
    omega

namespace Provider

/-- The root that a provider takes a file to show, with the name of its package. -/
def rootOf? (p : Provider) (path : Path) : Option (String × Path) :=
  p.package?.bind fun (package, marker) => (packageRootOf? path marker).map (Prod.mk package)

/-- A provider with the root noted that a file shows, if it shows one. -/
def noting (p : Provider) (path : Path) : Provider :=
  (p.rootOf? path).elim p fun root => p.withRoot root.2

variable (p : Provider)

theorem see_eq (r : Resolver) (path : Path) :
    p.see r path =
      (p.noting path, (p.rootOf? path).elim r fun root => r.addPackage root.1 root.2) := by
  rw [see, noting, rootOf?]
  cases p.package? with
  | none => rfl
  | some package =>
    cases hroot : packageRootOf? path package.2 with
    | none => simp [hroot]
    | some root => simp [hroot]

theorem package?_withRoot (root : Path) : (p.withRoot root).package? = p.package? := by
  cases p <;> rfl

theorem rootOf?_noting (path other : Path) : (p.noting path).rootOf? other = p.rootOf? other := by
  have hpackage : (p.noting path).package? = p.package? := by
    rw [noting]
    cases p.rootOf? path with
    | none => rfl
    | some root => exact p.package?_withRoot root.2
  rw [rootOf?, hpackage, rootOf?]

/-- After some files a provider has noted the roots that they show, one after the other. -/
theorem foldl_noting (paths : List Path) :
    paths.foldl noting p =
      (paths.filterMap p.rootOf?).foldl (fun p root => p.withRoot root.2) p := by
  induction paths generalizing p with
  | nil => rfl
  | cons path paths ih =>
    have hroots : (p.noting path).rootOf? = p.rootOf? := funext (p.rootOf?_noting path)
    rw [List.foldl_cons, ih, hroots, List.filterMap_cons, noting]
    cases p.rootOf? path with
    | none => rfl
    | some root => rfl

variable {p} {q : Provider}

/-- Providers that look for one package look for it in the same way. -/
theorem rootOf?_eq_of_name {path other : Path} {root found : String × Path}
    (h : p.rootOf? path = some root) (h' : q.rootOf? other = some found)
    (hname : root.1 = found.1) : p.rootOf? = q.rootOf? := by
  obtain ⟨package, hp, hr⟩ := Option.bind_eq_some_iff.mp h
  obtain ⟨package', hq, hf⟩ := Option.bind_eq_some_iff.mp h'
  obtain ⟨d, -, rfl⟩ := Option.map_eq_some_iff.mp hr
  obtain ⟨d', -, rfl⟩ := Option.map_eq_some_iff.mp hf
  change package.1 = package'.1 at hname
  have hsame : p.package? = q.package? := by
    -- the name of a package tells its provider up to what has been noted
    cases p <;> cases hp <;> cases q <;> cases hq <;> first | rfl | exact absurd hname (by decide)
  funext path
  rw [rootOf?, hsame, rootOf?]

end Provider

namespace Resolver

/-- Puts package roots into a graph. -/
def addPackages (r : Resolver) (roots : List (String × Path)) : Resolver :=
  roots.foldl (fun r root => r.addPackage root.1 root.2) r

theorem addPackages_append (r : Resolver) (roots more : List (String × Path)) :
    r.addPackages (roots ++ more) = (r.addPackages roots).addPackages more :=
  List.foldl_append

theorem addPackage_comm (r : Resolver) {name other : String} (h : name ≠ other) (root found : Path) :
    (r.addPackage name root).addPackage other found =
      (r.addPackage other found).addPackage name root := by
  have hnames : compare other name ≠ .eq := fun he => h (LawfulEqCmp.eq_of_compare he).symm
  exact congrArg (Resolver.mk r.bindings r.inits)
    (SortedTable.insert_comm hnames r.packages (modulePath found) (modulePath root))

/-- Roots of which no two belong to one package can be put into a graph in any order. -/
theorem addPackages_perm (r : Resolver) {roots more : List (String × Path)} (h : roots.Perm more)
    (hone : ∀ a ∈ roots, ∀ b ∈ roots, a.1 = b.1 → a = b) :
    r.addPackages roots = r.addPackages more := by
  apply h.foldl_eq'
  intro a ha b hb r
  by_cases hname : a.1 = b.1
  · rw [hone a ha b hb hname]
  · exact r.addPackage_comm hname _ _

end Resolver

namespace Registry

variable (registry : Registry)

/-- The roots that files show, file by file and for each file provider by provider. -/
def rootsIn (paths : List Path) : List (String × Path) :=
  paths.flatMap fun path => registry.providers.filterMap (·.rootOf? path)

theorem see_eq (r : Resolver) (path : Path) :
    registry.see r path =
      (⟨registry.providers.map (·.noting path)⟩,
        r.addPackages (registry.providers.filterMap (·.rootOf? path))) := by
  -- the providers take turns: those before have noted the file, and passed the graph on
  have hfold : ∀ (providers seen : List Provider) (r : Resolver),
      providers.foldl (fun state p => (state.1 ++ [(p.see state.2 path).1], (p.see state.2 path).2))
          (seen, r) =
        (seen ++ providers.map (·.noting path),
          r.addPackages (providers.filterMap (·.rootOf? path))) := by
    intro providers
    induction providers with
    | nil =>
      intro seen r
      rw [List.map_nil, List.append_nil]
      rfl
    | cons p providers ih =>
      intro seen r
      rw [List.foldl_cons, ih, p.see_eq, List.map_cons, List.append_assoc, List.filterMap_cons]
      cases p.rootOf? path with
      | none => rfl
      | some root => rfl
  exact congrArg (fun seen => (Registry.mk seen.1, seen.2)) (hfold registry.providers [] r)

theorem seeAll_eq (r : Resolver) (paths : List Path) :
    registry.seeAll r paths =
      (⟨registry.providers.map fun p => paths.foldl Provider.noting p⟩,
        r.addPackages (registry.rootsIn paths)) := by
  induction paths generalizing registry r with
  | nil =>
    change (registry, r) = (⟨registry.providers.map id⟩, r)
    rw [List.map_id]
  | cons path paths ih =>
    have hstep : registry.seeAll r (path :: paths) =
        (registry.see r path).1.seeAll (registry.see r path).2 paths := rfl
    -- what a provider has noted does not change what it takes for a root
    have hroots : (Registry.mk (registry.providers.map (·.noting path))).rootsIn paths =
        registry.rootsIn paths := by
      have hcompose : ∀ other : Path,
          (Provider.rootOf? · other) ∘ (Provider.noting · path) = (Provider.rootOf? · other) :=
        fun other => funext fun p => p.rootOf?_noting path other
      simp only [rootsIn, List.filterMap_map, hcompose]
    rw [hstep, ih, see_eq, hroots, List.map_map, ← Resolver.addPackages_append]
    rfl

/-- Files of which each provider takes at most one to show its root can be seen in any order. -/
theorem seeAll_perm (r : Resolver) {paths paths' : List Path} (h : paths.Perm paths')
    (hone : ∀ p ∈ registry.providers, (paths.filterMap p.rootOf?).length ≤ 1) :
    registry.seeAll r paths = registry.seeAll r paths' := by
  have hsame : ∀ p ∈ registry.providers,
      paths.filterMap p.rootOf? = paths'.filterMap p.rootOf? := by
    intro p hp
    exact eq_of_perm_of_length_le_one (h.filterMap p.rootOf?) (hone p hp)
  have hproviders : registry.providers.map (fun p => paths.foldl Provider.noting p) =
      registry.providers.map fun p => paths'.foldl Provider.noting p := by
    apply List.map_congr_left
    intro p hp
    rw [p.foldl_noting, p.foldl_noting, hsame p hp]
  have hroots : r.addPackages (registry.rootsIn paths) = r.addPackages (registry.rootsIn paths') := by
    refine r.addPackages_perm (h.flatMap_right _) ?_
    intro a ha b hb hname
    -- two roots of one package come from two files that show the root of one provider
    obtain ⟨path, hpath, hproot⟩ := List.mem_flatMap.mp ha
    obtain ⟨other, hother, hqroot⟩ := List.mem_flatMap.mp hb
    obtain ⟨p, hp, hproot⟩ := List.mem_filterMap.mp hproot
    obtain ⟨q, -, hqroot⟩ := List.mem_filterMap.mp hqroot
    have hpq := Provider.rootOf?_eq_of_name hproot hqroot hname
    have ha' : a ∈ paths.filterMap p.rootOf? := List.mem_filterMap.mpr ⟨path, hpath, hproot⟩
    have hb' : b ∈ paths.filterMap p.rootOf? :=
      List.mem_filterMap.mpr ⟨other, hother, hpq ▸ hqroot⟩
    exact eq_of_mem_of_length_le_one (hone p hp) ha' hb'
  rw [seeAll_eq, seeAll_eq, hproviders, hroots]

end Registry

end CrossIndex

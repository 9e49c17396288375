import Jadren.Package.Resolution
import Mathlib.Data.Set.Finite.Basic

/-!
# Resolution is a search by names

The packages and the paths of their dependencies are a graph whose nodes have names, and `visit`
searches it: the resolver keeps just the names and the paths of what the search keeps.
-/

namespace Jadren.Package

open List Option

variable {P : Type}

/-! ### Manifests that are read -/

/-- The file of a package declares it. -/
def Located (files : Files P) (package : LocalPackage P) : Prop :=
  ∃ text, files.readToString package.manifestPath = .ok text ∧ parse text = .ok package.manifest

variable {files : Files P} {q : LocalPackage P}

theorem Located.ext {p : LocalPackage P} (hp : Located files p) (hq : Located files q)
    (h : p.manifestPath = q.manifestPath) : p = q := by
  obtain ⟨text, hread, hparse⟩ := hp
  obtain ⟨text', hread', hparse'⟩ := hq
  obtain ⟨path, manifest⟩ := p
  obtain ⟨path', manifest'⟩ := q
  obtain rfl : path = path' := h
  obtain rfl : text = text' := Except.ok.inj (hread.symm.trans hread')
  obtain rfl : manifest = manifest' := Except.ok.inj (hparse.symm.trans hparse')
  rfl

theorem mapError_eq_ok {E E' α : Type} {f : E → E'} {value : Except E α} {a : α} :
    value.mapError f = .ok a ↔ value = .ok a := by
  cases value with
  | error => simp [Except.mapError]
  | ok => simp [Except.mapError]

theorem bind_eq_ok_iff {E α β : Type} {value : Except E α} {next : α → Except E β} {b : β} :
    value >>= next = .ok b ↔ ∃ a, value = .ok a ∧ next a = .ok b := by
  cases value with
  | error => simp [bind, Except.bind]
  | ok => simp [bind, Except.bind]

variable {path : P} {expectedName : Option Text} {package : LocalPackage P}

/-- The package at a path: the name that is asked for has to be the one it declares. -/
theorem locate_eq_ok :
    locate files path expectedName = .ok package ↔
      (∃ manifestInput, manifestPath files path = .ok manifestInput ∧
        files.canonicalize manifestInput = .ok package.manifestPath ∧ Located files package) ∧
      ∀ name ∈ expectedName, package.name = name := by
  obtain ⟨packagePath, packageManifest⟩ := package
  simp only [locate, bind_eq_ok_iff, mapError_eq_ok, Located, LocalPackage.name]
  constructor
  · intro h
    obtain ⟨input, hinput, path, hpath, text, hread, manifest, hparse, hfound⟩ := h
    cases expectedName with
    | none =>
        cases hfound
        exact ⟨⟨input, hinput, hpath, text, hread, hparse⟩, fun _ h => absurd h (by simp)⟩
    | some expectedName =>
        by_cases hname : expectedName = manifest.package.name
        · simp only [hname, ne_eq, not_true_eq_false, if_false] at hfound
          cases hfound
          refine ⟨⟨input, hinput, hpath, text, hread, hparse⟩, fun name hmem => ?_⟩
          rw [← hname]
          exact some.inj hmem
        · simp [hname] at hfound
  · intro h
    obtain ⟨⟨input, hinput, hpath, text, hread, hparse⟩, hname⟩ := h
    refine ⟨input, hinput, packagePath, hpath, text, hread, packageManifest, hparse, ?_⟩
    cases expectedName with
    | none => rfl
    | some expectedName => simp [hname expectedName rfl, pure, Except.pure]

theorem located_of_locate (h : locate files path expectedName = .ok package) :
    Located files package := by
  obtain ⟨⟨_, -, -, located⟩, -⟩ := locate_eq_ok.mp h
  exact located

theorem locate_some {name : Text} :
    locate files path (some name) = .ok package ↔
      locate files path none = .ok package ∧ package.name = name := by
  rw [locate_eq_ok, locate_eq_ok]
  simp

/-! ### The graph -/

/-- What following a dependency comes to. -/
def dependency (files : Files P) (package : LocalPackage P) :
    Text × DependencySpec → Except (ResolutionError P) (LocalPackage P)
  | (name, .version _) => .error (.unresolvedVersion package.name name)
  | (name, .path relativePath) =>
      locate files (dependencyPath files package relativePath) (some name)

def packageGraph (files : Files P) :
    NamedGraph (LocalPackage P) Text (ResolutionError P) where
  name := LocalPackage.name
  targets package := package.manifest.dependencies.entries.map (dependency files package)

/-- The error that a search ends with. -/
def faultError :
    NamedGraph.Fault (LocalPackage P) Text (ResolutionError P) → ResolutionError P
  | .broken error => error
  | .cycle names => .cycle names
  | .duplicate first second =>
      .duplicatePackage second.name first.manifestPath second.manifestPath

/-- A resolver in the middle of a search. -/
structure Related (files : Files P) (stack finished : List (LocalPackage P))
    (resolver : LocalResolver P) : Prop where
  visiting : resolver.visiting = stack.map LocalPackage.name
  packages : ∀ name package, resolver.packages.lookup name = some package ↔
    package ∈ finished ∧ package.name = name
  paths : ∀ name path, resolver.paths.lookup name = some path ↔
    ∃ package ∈ stack ++ finished, package.name = name ∧ package.manifestPath = path
  distinct : ((stack ++ finished).map LocalPackage.name).Nodup
  located : ∀ package ∈ stack ++ finished, Located files package

theorem related_empty (files : Files P) : Related files [] [] .empty where
  visiting := rfl
  packages name package := by simp [LocalResolver.empty]
  paths name path := by simp [LocalResolver.empty]
  distinct := nodup_nil
  located package h := absurd h not_mem_nil

/-- A package with a new name is put on the stack. -/
theorem Related.push {files : Files P} {stack finished : List (LocalPackage P)}
    {resolver : LocalResolver P} (related : Related files stack finished resolver)
    {q : LocalPackage P} (located : Located files q)
    (fresh : ∀ p ∈ stack ++ finished, p.name ≠ q.name) :
    Related files (stack ++ [q]) finished
      { resolver with
        visiting := resolver.visiting ++ [q.name]
        paths := resolver.paths.insert q.name q.manifestPath } where
  visiting := by simp [related.visiting]
  packages := related.packages
  paths name path := by
    refine (congrArg (· = some path)
      (OrderedMap.lookup_update resolver.paths q.name name fun _ => q.manifestPath)).to_iff.trans ?_
    have hmem : ∀ p, p ∈ stack ++ [q] ++ finished ↔ p = q ∨ p ∈ stack ++ finished := by
      intro p
      simp only [mem_append, mem_singleton]
      tauto
    simp only [hmem, or_and_right, exists_or, exists_eq_left]
    by_cases hname : name = q.name
    · -- no other package has the new name
      simp only [hname, if_true, Option.some.injEq, true_and]
      exact ⟨.inl, fun h => h.resolve_right fun ⟨p, hp, hpname, _⟩ => fresh p hp hpname⟩
    · simp only [hname, if_false, Ne.symm hname, false_and, false_or]
      exact related.paths name path
  distinct := by
    have hperm : (stack ++ [q] ++ finished).Perm (q :: (stack ++ finished)) := by
      rw [append_assoc]
      exact perm_middle
    refine (hperm.map LocalPackage.name).nodup_iff.mpr (nodup_cons.mpr ⟨?_, related.distinct⟩)
    intro hmem
    obtain ⟨p, hp, hname⟩ := mem_map.mp hmem
    exact fresh p hp hname
  located p hp := by
    simp only [mem_append, mem_singleton] at hp
    obtain (hp | rfl) | hp := hp
    · exact related.located p (mem_append_left _ hp)
    · exact located
    · exact related.located p (mem_append_right _ hp)

variable {stack finished : List (LocalPackage P)} {resolver : LocalResolver P}

/-- The package on top of the stack is finished. -/
theorem Related.pop (related : Related files (stack ++ [q]) finished resolver) :
    Related files stack (finished ++ [q])
      { resolver with
        visiting := resolver.visiting.dropLast
        packages := resolver.packages.insert q.name q } := by
  have hperm : (stack ++ (finished ++ [q])).Perm (stack ++ [q] ++ finished) := by
    rw [append_assoc]
    exact List.Perm.append_left stack perm_append_comm
  have hdistinct := related.distinct
  rw [append_assoc, map_append, nodup_append] at hdistinct
  have hnames : q.name ∉ finished.map LocalPackage.name :=
    (nodup_cons.mp hdistinct.2.1).1
  exact
    { visiting := by simp [related.visiting]
      packages := by
        intro name package
        refine (congrArg (· = some package)
          (OrderedMap.lookup_update resolver.packages q.name name fun _ => q)).to_iff.trans ?_
        simp only [mem_append, mem_singleton]
        by_cases hname : name = q.name
        · -- no finished package has the name
          simp only [hname, if_true, Option.some.injEq]
          constructor
          · intro h
            exact ⟨.inr h.symm, h ▸ rfl⟩
          · intro h
            obtain ⟨hmem | rfl, hpackage⟩ := h
            · exact absurd (mem_map.mpr ⟨package, hmem, hpackage⟩) hnames
            · rfl
        · simp only [hname, if_false]
          rw [related.packages]
          refine and_congr_left fun hpackage => ⟨.inl, fun h => h.resolve_right fun heq => ?_⟩
          exact hname (heq ▸ hpackage.symm)
      paths := by
        intro name path
        rw [related.paths]
        simp only [hperm.mem_iff]
      distinct := (hperm.map LocalPackage.name).nodup_iff.mpr related.distinct
      located := fun p hp => related.located p (hperm.mem_iff.mp hp) }

/-! ### Visits -/

/-- The names of the stack from the first that is looked for. -/
theorem drop_findIdx? {name : Text} {index : ℕ}
    (h : (stack.map LocalPackage.name).findIdx? (fun item => item = name) = some index) :
    (∃ a ∈ stack, a.name = name) ∧
      (stack.map LocalPackage.name).drop index =
        (stack.dropWhile fun a => a.name ≠ name).map LocalPackage.name := by
  induction stack generalizing index with
  | nil => simp at h
  | cons a stack ih =>
      rw [map_cons, findIdx?_cons] at h
      by_cases hname : a.name = name
      · obtain rfl : index = 0 := by simpa [hname] using h.symm
        exact ⟨⟨a, mem_cons_self, hname⟩, by simp [hname]⟩
      · obtain ⟨rest, hrest, rfl⟩ : ∃ rest, (stack.map LocalPackage.name).findIdx?
            (fun item => item = name) = some rest ∧ rest + 1 = index := by
          simpa [hname] using h
        obtain ⟨⟨b, hb, hbname⟩, hdrop⟩ := ih hrest
        refine ⟨⟨b, mem_cons_of_mem _ hb, hbname⟩, ?_⟩
        rw [map_cons, drop_succ_cons, hdrop, dropWhile_cons_of_pos (by simpa)]

/-- The search of some targets ends as the resolver does. -/
def Follows (files : Files P) (stack finished : List (LocalPackage P))
    (targets : List (Except (ResolutionError P) (LocalPackage P))) :
    Except (Stop P) (LocalResolver P) → Prop
  | .error stop => ∃ fault,
      (packageGraph files).Runs stack finished targets (.error fault) ∧
        stop = .error (faultError fault)
  | .ok resolver => ∃ finished',
      (packageGraph files).Runs stack finished targets (.ok finished') ∧
        Related files stack finished' resolver

/-- A visit follows the search of one package, and returns its name. -/
def Visits (files : Files P) (visit : P → Option Text → LocalResolver P →
    Option (Except (Stop P) (Text × LocalResolver P))) : Prop :=
  ∀ stack finished path expectedName resolver outcome,
    Related files stack finished resolver → visit path expectedName resolver = some outcome →
      Follows files stack finished [locate files path expectedName] (outcome.map Prod.snd) ∧
        ∀ name resolver', outcome = .ok (name, resolver') →
          ∃ package, locate files path expectedName = .ok package ∧ name = package.name

/-- The dependencies of a package are followed one after another. -/
theorem follows_visitDependencies
    {visit : P → Option Text → LocalResolver P →
      Option (Except (Stop P) (Text × LocalResolver P))} (visits : Visits files visit)
    (package : LocalPackage P) (dependencies : List (Text × DependencySpec))
    (related : Related files stack finished resolver)
    {outcome : Except (Stop P) (LocalResolver P)}
    (h : visitDependencies files visit package dependencies resolver = some outcome) :
    Follows files stack finished (dependencies.map (dependency files package)) outcome := by
  induction dependencies generalizing finished resolver with
  | nil =>
      obtain rfl := some.inj h
      exact ⟨finished, .nil, related⟩
  | cons entry rest ih =>
      obtain ⟨name, requirement | relativePath⟩ := entry
      · obtain rfl := some.inj h
        exact ⟨_, .broken, rfl⟩
      · rw [visitDependencies] at h
        cases hvisit : visit (dependencyPath files package relativePath) (some name) resolver with
        | none => simp [hvisit] at h
        | some first =>
            obtain ⟨hfirst, -⟩ := visits stack finished _ _ _ _ related hvisit
            rw [hvisit] at h
            cases first with
            | error =>
                obtain rfl := some.inj h
                obtain ⟨fault, run, hstop⟩ := hfirst
                exact ⟨fault, run.cons_error _, hstop⟩
            | ok =>
                obtain ⟨finished', run, related'⟩ := hfirst
                have hrest := ih related' h
                cases outcome with
                | error =>
                    obtain ⟨fault, runRest, hstop⟩ := hrest
                    exact ⟨fault, run.cons runRest, hstop⟩
                | ok =>
                    obtain ⟨finished'', runRest, related''⟩ := hrest
                    exact ⟨finished'', run.cons runRest, related''⟩

/-- A package whose name is not on the stack: it is known under its path, or its name stands for
another path, or its dependencies are followed. -/
theorem follows_fresh [DecidableEq P] {files : Files P} {fuel : ℕ}
    (visits : Visits files (LocalResolver.visit files fuel))
    {stack finished : List (LocalPackage P)} {resolver : LocalResolver P}
    (related : Related files stack finished resolver) {q : LocalPackage P}
    (located : Located files q) (fresh : ∀ p ∈ stack ++ finished, p.name ≠ q.name)
    {outcome : Except (Stop P) (LocalResolver P)}
    (h : visitDependencies files (LocalResolver.visit files fuel) q
      q.manifest.dependencies.entries
      { resolver with
        visiting := resolver.visiting ++ [q.name]
        paths := resolver.paths.insert q.name q.manifestPath } = some outcome) :
    match outcome with
    | .error stop => Follows files stack finished [.ok q] (.error stop)
    | .ok resolver' =>
        resolver'.visiting.getLast? = some q.name ∧
          Follows files stack finished [.ok q] (.ok
            { resolver' with
              visiting := resolver'.visiting.dropLast
              packages := resolver'.packages.insert q.name q }) := by
  have hfresh : (packageGraph files).Fresh stack {p | p ∈ finished} q :=
    ⟨fun p hp => fresh p (mem_append_left _ hp),
      fun p hp => fresh p (mem_append_right _ hp)⟩
  have hinner := follows_visitDependencies visits q _ (related.push located fresh) h
  cases outcome with
  | error =>
      obtain ⟨fault, run, hstop⟩ := hinner
      exact ⟨fault, .fails hfresh run, hstop⟩
  | ok =>
      obtain ⟨finished', run, related'⟩ := hinner
      refine ⟨?_, finished' ++ [q], .descends hfresh run .nil, related'.pop⟩
      rw [related'.visiting, map_append]
      exact getLast?_concat ..

/-- `visit` searches the graph of the packages. -/
theorem visits_visit [DecidableEq P] (files : Files P) (fuel : ℕ) :
    Visits files (LocalResolver.visit files fuel) := by
  induction fuel with
  | zero => exact fun _ _ _ _ _ _ _ h => nomatch h
  | succ fuel ih =>
      intro stack finished path expectedName resolver outcome related h
      rw [LocalResolver.visit] at h
      cases hlocate : locate files path expectedName with
      | error =>
          simp only [hlocate, Option.some.injEq] at h
          subst h
          exact ⟨⟨_, .broken, rfl⟩, fun _ _ h => nomatch h⟩
      | ok q =>
          have located := located_of_locate hlocate
          simp only [hlocate, related.visiting] at h
          split at h
          · -- the name is on the stack
            rename_i index hindex
            obtain rfl := some.inj h
            obtain ⟨met, hdrop⟩ := drop_findIdx? hindex
            refine ⟨⟨.cycle _, .cycle met, ?_⟩, fun _ _ h => nomatch h⟩
            rw [hdrop, faultError, map_append]
            rfl
          · rename_i hnone
            have apart : ∀ a ∈ stack, a.name ≠ q.name := by
              intro a ha
              simpa using findIdx?_eq_none_iff.mp hnone a.name (mem_map_of_mem ha)
            split at h
            · -- the name has a path
              rename_i existing hexisting
              obtain ⟨p, hp, hname, hpath⟩ := (related.paths _ _).mp hexisting
              have hfinished : p ∈ finished :=
                (mem_append.mp hp).resolve_left fun hp => apart p hp hname
              by_cases heq : existing = q.manifestPath
              · obtain rfl : p = q := (related.located p hp).ext located (hpath.trans heq)
                simp only [heq, ne_eq, not_true_eq_false, if_false, Option.some.injEq] at h
                subst h
                refine ⟨⟨finished, .known apart hfinished .nil, related⟩, fun name _ h => ?_⟩
                exact ⟨p, rfl, (Prod.mk.inj (Except.ok.inj h)).1.symm⟩
              · have hne : p ≠ q := fun h => heq (hpath.symm.trans (congrArg _ h))
                simp only [ne_eq, heq, not_false_eq_true, if_true, Option.some.injEq] at h
                subst h hpath
                exact ⟨⟨_, .duplicate apart hfinished hname hne, rfl⟩, fun _ _ h => nomatch h⟩
            · -- a new name
              rename_i hpaths
              have fresh : ∀ p ∈ stack ++ finished, p.name ≠ q.name := by
                intro p hp hname
                have hsome := (related.paths q.name p.manifestPath).mpr ⟨p, hp, hname, rfl⟩
                rw [hpaths] at hsome
                cases hsome
              split at h
              · cases h
              · rename_i stop hstop
                obtain rfl := some.inj h
                rw [← related.visiting] at hstop
                exact ⟨follows_fresh ih related located fresh hstop, fun _ _ h => nomatch h⟩
              · rename_i resolver' hresolver
                rw [← related.visiting] at hresolver
                obtain ⟨hlast, hfollows⟩ := follows_fresh ih related located fresh hresolver
                rw [if_pos hlast] at h
                obtain rfl := some.inj h
                refine ⟨hfollows, fun name _ h => ⟨q, rfl, ?_⟩⟩
                exact (Prod.mk.inj (Except.ok.inj h)).1.symm

end Jadren.Package

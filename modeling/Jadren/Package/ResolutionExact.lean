import Jadren.Package.ResolutionRuns

/-!
# When local resolution succeeds

Over finitely many manifests resolution ends, and it succeeds exactly when the packages that the
root depends on can be resolved.  Its cycles are those of the packages as long as the first package
found under the name of one that is still being followed is that package itself.

The code is a search over the graph of packages that looks at names first.  Its end and its reports
are those of the search; here they are read back as statements about packages and paths.
-/

namespace Jadren.Package

open List

variable {P : Type}

/-! ### What a resolution has to be -/

/-- A package has a dependency by path on one that declares the name of the dependency. -/
def DependsOn (files : Files P) (p q : LocalPackage P) : Prop :=
  ∃ name relativePath, (name, .path relativePath) ∈ p.manifest.dependencies.entries ∧
    locate files (dependencyPath files p relativePath) none = .ok q ∧ q.name = name

def Reaches (files : Files P) : LocalPackage P → LocalPackage P → Prop :=
  Relation.ReflTransGen (DependsOn files)

/-- Every dependency is by path, on a package with the name that is expected. -/
def Declared (files : Files P) (root : LocalPackage P) : Prop :=
  ∀ p, Reaches files root p → ∀ entry ∈ p.manifest.dependencies.entries,
    ∃ relativePath q, entry.2 = .path relativePath ∧
      locate files (dependencyPath files p relativePath) none = .ok q ∧ q.name = entry.1

/-- A name stands for one path. -/
def OnePath (files : Files P) (root : LocalPackage P) : Prop :=
  ∀ p q, Reaches files root p → Reaches files root q → p.name = q.name →
    p.manifestPath = q.manifestPath

def NoCycle (files : Files P) (root : LocalPackage P) : Prop :=
  ∀ p, Reaches files root p → ¬ Relation.TransGen (DependsOn files) p p

structure Resolvable (files : Files P) (root : LocalPackage P) : Prop where
  declared : Declared files root
  onePath : OnePath files root
  noCycle : NoCycle files root

/-- Packages of these names that depend on one another, the last being the first again. -/
def DependencyCycle (files : Files P) (root : LocalPackage P) (names : List Text) : Prop :=
  ∃ p chain, Reaches files root p ∧ (p :: chain ++ [p]).IsChain (DependsOn files) ∧
    names = (p :: chain ++ [p]).map LocalPackage.name

/-- The package that resolution starts from. -/
def rootPackage (files : Files P) (root : P) : Except (ResolutionError P) (LocalPackage P) :=
  match manifestPath files root with
  | .error message => .error (.manifest root message)
  | .ok rootManifest => locate files rootManifest none

/-- What the result of a resolution says of the packages. -/
structure Exact (files : Files P) (root : P)
    (result : Except (Stop P) (LocalResolution P)) : Prop where
  ok_iff : (∃ resolution, result = .ok resolution) ↔
    ∃ package, rootPackage files root = .ok package ∧ Resolvable files package
  root_eq : ∀ resolution, result = .ok resolution → rootPackage files root = .ok resolution.root
  mem_iff : ∀ resolution, result = .ok resolution → ∀ p,
    p ∈ resolution.dependencies ↔ Reaches files resolution.root p ∧ p ≠ resolution.root
  sorted : ∀ resolution, result = .ok resolution →
    resolution.dependencies.Pairwise fun p q => p.name < q.name
  no_panic : result ≠ .error .panic

/-- A cycle that is reported is one, and a name at two paths is reported when nothing else is
wrong. -/
structure Truthful (files : Files P) (root : P)
    (result : Except (Stop P) (LocalResolution P)) : Prop where
  cycle : ∀ names, result = .error (.error (.cycle names)) →
    ∃ package, rootPackage files root = .ok package ∧ DependencyCycle files package names
  duplicate : ∀ package, rootPackage files root = .ok package → Declared files package →
    NoCycle files package → ¬ OnePath files package →
    ∃ p q, Reaches files package p ∧ Reaches files package q ∧ p.manifestPath ≠ q.manifestPath ∧
      p.name = q.name ∧
      result = .error (.error (.duplicatePackage p.name p.manifestPath q.manifestPath))

/-- The first package, in the order of the dependencies, found under the name of one that is still
being followed: it is that package, or packages of these names form a cycle anyway. -/
def RepeatsAreCycles (files : Files P) (root : P) : Prop :=
  ∀ package, rootPackage files root = .ok package → ∀ chain b,
    (packageGraph files).FirstRepeat [] ∅ [.ok package] chain b →
      chain.head? = some b ∨
        DependencyCycle files package ((chain ++ [b]).map LocalPackage.name)

/-! ### The graph of the packages -/

variable {files : Files P} {p q : LocalPackage P}

theorem edge_iff : (packageGraph files).Edge p q ↔ DependsOn files p q := by
  show .ok q ∈ p.manifest.dependencies.entries.map (dependency files p) ↔ _
  rw [List.mem_map]
  constructor
  · intro h
    obtain ⟨⟨name, requirement | relativePath⟩, hmem, hfound⟩ := h
    · cases hfound
    · obtain ⟨hlocate, hname⟩ := locate_some.mp hfound
      exact ⟨name, relativePath, hmem, hlocate, hname⟩
  · intro h
    obtain ⟨name, relativePath, hmem, hlocate, hname⟩ := h
    exact ⟨_, hmem, locate_some.mpr ⟨hlocate, hname⟩⟩

theorem edge_eq (files : Files P) : (packageGraph files).Edge = DependsOn files :=
  funext fun _ => funext fun _ => propext edge_iff

theorem reach_iff : (packageGraph files).Reach p q ↔ Reaches files p q := by
  rw [NamedGraph.Reach, edge_eq]
  rfl

theorem mem_region_root {root : LocalPackage P} :
    p ∈ (packageGraph files).region [.ok root] ↔ Reaches files root p := by
  rw [← reach_iff]
  constructor
  · intro h
    obtain ⟨q, hq, hreach⟩ := h
    obtain rfl : q = root := by simpa using hq
    exact hreach
  · exact fun hreach => ⟨root, mem_singleton_self _, hreach⟩

theorem targets_ok_iff :
    (∀ target ∈ (packageGraph files).targets p, ∃ q, target = .ok q) ↔
      ∀ entry ∈ p.manifest.dependencies.entries, ∃ relativePath q, entry.2 = .path relativePath ∧
        locate files (dependencyPath files p relativePath) none = .ok q ∧ q.name = entry.1 := by
  show (∀ target ∈ p.manifest.dependencies.entries.map (dependency files p), _) ↔ _
  rw [forall_mem_map]
  refine forall₂_congr fun entry _ => ?_
  obtain ⟨name, requirement | relativePath⟩ := entry
  · constructor
    · intro h
      obtain ⟨q, hq⟩ := h
      cases hq
    · intro h
      obtain ⟨relativePath, q, hspec, -⟩ := h
      cases hspec
  · constructor
    · intro h
      obtain ⟨q, hq⟩ := h
      exact ⟨relativePath, q, rfl, locate_some.mp hq⟩
    · intro h
      obtain ⟨relativePath', q, hspec, hq⟩ := h
      cases hspec
      exact ⟨q, locate_some.mpr hq⟩

/-- Packages that are reached have been read. -/
theorem Reaches.located (h : Reaches files p q) (hp : Located files p) : Located files q := by
  induction h with
  | refl => exact hp
  | tail _ hedge _ =>
      obtain ⟨_, _, -, hlocate, -⟩ := hedge
      exact located_of_locate hlocate

/-- A search of the root succeeds when the root can be resolved. -/
theorem clear_root {root : LocalPackage P} (located : Located files root) :
    (packageGraph files).Clear [] ∅ [.ok root] ↔ Resolvable files root := by
  have hpart : ∀ p, p ∈ ∅ ∪ (packageGraph files).region [.ok root] ↔ Reaches files root p := by
    intro p
    rw [Set.empty_union]
    exact mem_region_root
  constructor
  · intro clear
    refine ⟨fun p hp => ?_, fun p q hp hq hname => ?_, fun p hp => ?_⟩
    · exact targets_ok_iff.mp (clear.2.intact p ((hpart p).mpr hp))
    · exact congrArg _ (clear.2.unique p ((hpart p).mpr hp) q ((hpart q).mpr hq) hname)
    · exact edge_eq files ▸ clear.2.acyclic p ((hpart p).mpr hp)
  · intro h
    refine ⟨fun target htarget => ⟨root, List.mem_singleton.mp htarget⟩, ?_⟩
    exact
      { closed := by
          intro p hp q hedge
          exact (hpart q).mpr (((hpart p).mp hp).tail (edge_iff.mp hedge))
        intact := fun p hp => targets_ok_iff.mpr (h.declared p ((hpart p).mp hp))
        apart := fun a ha => absurd ha List.not_mem_nil
        unique := by
          intro p hp q hq hname
          have hp := (hpart p).mp hp
          have hq := (hpart q).mp hq
          exact (hp.located located).ext (hq.located located) (h.onePath p q hp hq hname)
        acyclic := fun p hp => edge_eq files ▸ h.noCycle p ((hpart p).mp hp) }

variable {names : List Text}

theorem cyclic_iff {root : LocalPackage P} :
    (packageGraph files).Cyclic root names ↔ DependencyCycle files root names := by
  rw [NamedGraph.Cyclic, edge_eq]
  exact exists₂_congr fun p _ => and_congr_left fun _ => reach_iff

/-! ### Resolution ends -/

variable {stack finished : List (LocalPackage P)} {resolver : LocalResolver P}

/-- The names on the stack are different names of packages. -/
theorem Related.length_le (related : Related files stack finished resolver) {names : Finset Text}
    (hnames : ∀ package, Located files package → package.name ∈ names) :
    stack.length ≤ names.card := by
  have hdistinct := related.distinct
  rw [List.map_append] at hdistinct
  have hnodup : (stack.map LocalPackage.name).Nodup := (List.nodup_append.mp hdistinct).1
  calc stack.length = (stack.map LocalPackage.name).toFinset.card := by
        rw [toFinset_card_of_nodup hnodup, length_map]
    _ ≤ names.card := by
        refine Finset.card_le_card fun name hname => ?_
        obtain ⟨package, hmem, rfl⟩ := List.mem_map.mp (mem_toFinset.mp hname)
        exact hnames package (related.located package (mem_append_left _ hmem))

variable {fuel : ℕ}

/-- Fuel for as many calls as there are names is enough. -/
theorem visit_returns [DecidableEq P] {names : Finset Text}
    (hnames : ∀ package, Located files package → package.name ∈ names)
    (related : Related files stack finished resolver) (enough : names.card < fuel + stack.length)
    (path : P) (expectedName : Option Text) :
    ∃ outcome, LocalResolver.visit files fuel path expectedName resolver = some outcome := by
  induction fuel generalizing stack finished resolver path expectedName with
  | zero =>
      have hle := related.length_le hnames
      omega
  | succ fuel ih =>
      -- the dependencies of a package that has been put on the stack
      have hloop : ∀ (package : LocalPackage P) (dependencies : List (Text × DependencySpec))
          (stack finished : List (LocalPackage P)) (resolver : LocalResolver P),
          Related files stack finished resolver → names.card < fuel + stack.length →
          ∃ outcome, visitDependencies files (LocalResolver.visit files fuel) package dependencies
            resolver = some outcome := by
        intro package dependencies stack finished resolver related enough
        induction dependencies generalizing finished resolver with
        | nil => exact ⟨_, rfl⟩
        | cons entry rest ihRest =>
            obtain ⟨name, requirement | relativePath⟩ := entry
            · exact ⟨_, rfl⟩
            · obtain ⟨outcome, houtcome⟩ :=
                ih related enough (dependencyPath files package relativePath) (some name)
              have hfollows := (visits_visit files fuel _ _ _ _ _ _ related houtcome).1
              rw [visitDependencies, houtcome]
              cases outcome with
              | error => exact ⟨_, rfl⟩
              | ok visited =>
                  obtain ⟨finished', -, related'⟩ := hfollows
                  exact ihRest finished' visited.2 related'
      rw [LocalResolver.visit]
      cases hlocate : locate files path expectedName with
      | error => exact ⟨_, rfl⟩
      | ok package =>
          simp only
          split
          · exact ⟨_, rfl⟩
          · rename_i hnone
            split
            · split <;> exact ⟨_, rfl⟩
            · rename_i hpaths
              have fresh : ∀ p ∈ stack ++ finished, p.name ≠ package.name := by
                intro p hp hname
                have hsome := (related.paths package.name p.manifestPath).mpr ⟨p, hp, hname, rfl⟩
                rw [hpaths] at hsome
                cases hsome
              obtain ⟨outcome, houtcome⟩ :=
                hloop package package.manifest.dependencies.entries _ _ _
                (related.push (located_of_locate hlocate) fresh)
                (by rw [length_append, length_singleton]; omega)
              rw [houtcome]
              cases outcome with
              | error => exact ⟨_, rfl⟩
              | ok =>
                  simp only
                  split <;> exact ⟨_, rfl⟩

theorem resolveLocal_returns [DecidableEq P] (files : Files P) (root : P)
    (finite : {package | Located files package}.Finite) :
    ∃ enough, ∀ fuel ≥ enough, ∃ result, resolveLocal files fuel root = some result := by
  classical
  have hnames : ∀ package, Located files package →
      package.name ∈ finite.toFinset.image LocalPackage.name := by
    intro package located
    exact Finset.mem_image_of_mem _ (finite.mem_toFinset.mpr located)
  refine ⟨(finite.toFinset.image LocalPackage.name).card + 1, fun fuel hfuel => ?_⟩
  rw [resolveLocal]
  cases hmanifest : manifestPath files root with
  | error => exact ⟨_, rfl⟩
  | ok rootManifest =>
      obtain ⟨outcome, houtcome⟩ :=
        visit_returns hnames (related_empty files) (Nat.lt_of_succ_le hfuel) rootManifest none
      simp only [houtcome]
      cases outcome with
      | error => exact ⟨_, rfl⟩
      | ok => exact ⟨_, rfl⟩

/-! ### Results -/

variable {root : P} {result : Except (Stop P) (LocalResolution P)}

theorem resolveLocal_eq [DecidableEq P] (h : resolveLocal files fuel root = some result) :
    (∃ error, rootPackage files root = .error error ∧ result = .error (.error error)) ∨
      ∃ package, rootPackage files root = .ok package ∧ Located files package ∧
        ((∃ fault, (packageGraph files).Runs [] [] [.ok package] (.error fault) ∧
            result = .error (.error (faultError fault))) ∨
          ∃ finished resolver, (packageGraph files).Runs [] [] [.ok package] (.ok finished) ∧
            Related files [] finished resolver ∧ result = resolver.resolution package.name) := by
  rw [resolveLocal] at h
  cases hmanifest : manifestPath files root with
  | error =>
      simp only [hmanifest, Option.some.injEq] at h
      exact .inl ⟨_, by rw [rootPackage, hmanifest], h.symm⟩
  | ok rootManifest =>
      have hroot : rootPackage files root = locate files rootManifest none := by
        rw [rootPackage, hmanifest]
      simp only [hmanifest] at h
      rw [hroot]
      cases hvisit : LocalResolver.visit files fuel rootManifest none .empty with
      | none => simp [hvisit] at h
      | some outcome =>
          obtain ⟨hfollows, hname⟩ :=
            visits_visit files fuel _ _ _ _ _ _ (related_empty files) hvisit
          rw [hvisit] at h
          cases hlocate : locate files rootManifest none with
          | error error =>
              -- the search of a root that is not there ends at once
              rw [hlocate] at hfollows
              cases outcome with
              | error =>
                  obtain ⟨fault, run, rfl⟩ := hfollows
                  cases run
                  exact .inl ⟨error, rfl, (Option.some.inj h).symm⟩
              | ok =>
                  obtain ⟨finished, run, -⟩ := hfollows
                  cases run
          | ok package =>
              refine .inr ⟨package, rfl, located_of_locate hlocate, ?_⟩
              rw [hlocate] at hfollows
              cases outcome with
              | error =>
                  obtain ⟨fault, run, rfl⟩ := hfollows
                  exact .inl ⟨fault, run, (Option.some.inj h).symm⟩
              | ok visited =>
                  obtain ⟨rootName, resolver⟩ := visited
                  obtain ⟨finished, run, related⟩ := hfollows
                  obtain ⟨package', hpackage, rfl⟩ := hname rootName resolver rfl
                  obtain rfl := Except.ok.inj (hlocate.symm.trans hpackage)
                  exact .inr ⟨finished, resolver, run, related, (Option.some.inj h).symm⟩

theorem sound_nil (files : Files P) : (packageGraph files).Sound [] {p | p ∈ ([] : List _)} where
  closed _ hp := absurd hp List.not_mem_nil
  intact _ hp := absurd hp List.not_mem_nil
  apart _ ha := absurd ha List.not_mem_nil
  unique _ hp := absurd hp List.not_mem_nil
  acyclic _ hp := absurd hp List.not_mem_nil

theorem setOf_mem_nil : {p | p ∈ ([] : List (LocalPackage P))} = ∅ := by
  ext p
  simp

/-- The packages of a search that has succeeded, the root and the others in name order. -/
theorem resolution_eq {root : LocalPackage P} (located : Located files root)
    (run : (packageGraph files).Runs [] [] [.ok root] (.ok finished))
    (related : Related files [] finished resolver) :
    ∃ dependencies, resolver.resolution root.name = .ok ⟨root, dependencies⟩ ∧
      (∀ p, p ∈ dependencies ↔ Reaches files root p ∧ p ≠ root) ∧
      dependencies.Pairwise fun p q => p.name < q.name := by
  obtain ⟨hclear, hfinished⟩ := run.clear (sound_nil files) rfl
  rw [setOf_mem_nil] at hclear hfinished
  have hmem : ∀ p, p ∈ finished ↔ Reaches files root p := by
    intro p
    have hset : p ∈ {p | p ∈ finished} ↔ p ∈ ∅ ∪ (packageGraph files).region [.ok root] := by
      rw [hfinished]
    exact hset.trans (by rw [Set.empty_union]; exact mem_region_root)
  -- the resolver has all that was finished, under its name
  have hentry : ∀ name p, (name, p) ∈ resolver.packages.entries ↔
      Reaches files root p ∧ p.name = name := by
    intro name p
    rw [← OrderedMap.lookup_iff_mem, related.packages, hmem]
  have hroot : resolver.packages.lookup root.name = some root :=
    OrderedMap.lookup_iff_mem.mpr ((hentry _ _).mpr ⟨.refl, rfl⟩)
  have resolvable := (clear_root located).mp hclear
  refine ⟨_, by rw [LocalResolver.resolution, hroot], fun p => ?_, ?_⟩
  · rw [mem_filterMap]
    constructor
    · intro h
      obtain ⟨⟨name, q⟩, hq, hkept⟩ := h
      obtain ⟨hreach, rfl⟩ := (hentry _ _).mp hq
      by_cases hname : q.name = root.name
      · simp [hname] at hkept
      · obtain rfl : q = p := by simpa [hname] using hkept
        exact ⟨hreach, fun heq => hname (congrArg _ heq)⟩
    · intro h
      obtain ⟨hreach, hne⟩ := h
      have hname : p.name ≠ root.name := by
        intro hname
        have hpath := resolvable.onePath p root hreach .refl hname
        exact hne ((hreach.located located).ext located hpath)
      exact ⟨(p.name, p), (hentry _ _).mpr ⟨hreach, rfl⟩, by simp [hname]⟩
  · refine pairwise_filterMap.mpr (resolver.packages.sorted.imp_of_mem ?_)
    intro a b ha hb hlt p hp q hq
    -- the map is sorted by names, and entries have the names of their packages
    have hkey : ∀ (entry : Text × LocalPackage P), entry ∈ resolver.packages.entries →
        ∀ p, (if entry.1 ≠ root.name then some entry.2 else none) = some p → p.name = entry.1 := by
      intro entry hentry' p hp
      split at hp
      · obtain rfl := Option.some.inj hp
        exact ((hentry entry.1 entry.2).mp hentry').2
      · cases hp
    rw [hkey a ha p hp, hkey b hb q hq]
    exact hlt

theorem exact_error (error : ResolutionError P)
    (h : ¬ ∃ package, rootPackage files root = .ok package ∧ Resolvable files package) :
    Exact files root (.error (.error error)) where
  ok_iff := by
    refine ⟨fun hok => ?_, fun hroot => absurd hroot h⟩
    obtain ⟨resolution, hresolution⟩ := hok
    cases hresolution
  root_eq _ hok := nomatch hok
  mem_iff _ hok := nomatch hok
  sorted _ hok := nomatch hok
  no_panic hpanic := nomatch hpanic

theorem exact_of_resolveLocal [DecidableEq P] (h : resolveLocal files fuel root = some result) :
    Exact files root result := by
  obtain ⟨error, hroot, rfl⟩ | ⟨package, hroot, located, hresult⟩ := resolveLocal_eq h
  · apply exact_error
    intro h
    obtain ⟨package, hpackage, -⟩ := h
    cases hroot.symm.trans hpackage
  · have hclear := clear_root located
    rw [← setOf_mem_nil] at hclear
    obtain ⟨fault, run, rfl⟩ | ⟨finished, resolver, run, related, rfl⟩ := hresult
    · apply exact_error
      intro h
      obtain ⟨package', hpackage, resolvable⟩ := h
      obtain rfl := Except.ok.inj (hroot.symm.trans hpackage)
      exact run.not_clear (sound_nil files) rfl (hclear.mpr resolvable)
    · obtain ⟨dependencies, hresolution, hmem, hsorted⟩ := resolution_eq located run related
      have resolvable := hclear.mp (run.clear (sound_nil files) rfl).1
      rw [hresolution]
      exact
        { ok_iff := ⟨fun _ => ⟨package, hroot, resolvable⟩, fun _ => ⟨_, rfl⟩⟩
          root_eq := by
            intro resolution h
            obtain rfl := Except.ok.inj h
            exact hroot
          mem_iff := by
            intro resolution h
            obtain rfl := Except.ok.inj h
            exact hmem
          sorted := by
            intro resolution h
            obtain rfl := Except.ok.inj h
            exact hsorted
          no_panic := fun h => nomatch h }

/-! ### Cycles and duplicates -/

theorem locate_ne_cycle {path : P} {expectedName : Option Text} :
    locate files path expectedName ≠ .error (.cycle names) := by
  unfold locate
  cases manifestPath files path with
  | error => simp [Except.mapError, bind, Except.bind]
  | ok input =>
      cases hcanonical : files.canonicalize input with
      | error => simp [Except.mapError, bind, Except.bind, hcanonical]
      | ok path =>
          cases hread : files.readToString path with
          | error => simp [Except.mapError, bind, Except.bind, hcanonical, hread]
          | ok text =>
              cases hparse : parse text with
              | error =>
                  simp [Except.mapError, bind, Except.bind, hcanonical, hread, hparse]
              | ok manifest =>
                  cases expectedName with
                  | none =>
                      simp [Except.mapError, bind, Except.bind, pure, Except.pure, hcanonical,
                        hread, hparse]
                  | some name =>
                      by_cases hname : name = manifest.package.name <;>
                        simp [Except.mapError, bind, Except.bind, pure, Except.pure, hcanonical,
                          hread, hparse, hname]

/-- No dependency is itself an error of the kinds that only a search finds. -/
theorem error_cycle_not_mem : .error (.cycle names) ∉ (packageGraph files).targets p := by
  intro h
  obtain ⟨⟨name, requirement | relativePath⟩, -, hfound⟩ := List.mem_map.mp h
  · cases hfound
  · rw [dependency] at hfound
    exact locate_ne_cycle hfound

theorem fault_of_cycle {root : LocalPackage P}
    {fault : NamedGraph.Fault (LocalPackage P) Text (ResolutionError P)}
    (blames : (packageGraph files).Blames ∅ [.ok root] fault)
    (h : faultError fault = .cycle names) : fault = .cycle names := by
  cases fault with
  | broken error =>
      obtain rfl : error = .cycle names := h
      obtain hmem | ⟨p, -, hmem⟩ := blames
      · cases List.mem_singleton.mp hmem
      · exact absurd hmem error_cycle_not_mem
  | cycle =>
      cases h
      rfl
  | duplicate => cases h

theorem rootPackage_ne_cycle : rootPackage files root ≠ .error (.cycle names) := by
  rw [rootPackage]
  cases manifestPath files root with
  | error => exact fun h => nomatch h
  | ok => exact locate_ne_cycle

/-- The search behind a cycle that is reported has met the name first. -/
theorem exists_firstRepeat [DecidableEq P]
    (h : resolveLocal files fuel root = some (.error (.error (.cycle names)))) :
    ∃ package chain b, rootPackage files root = .ok package ∧
      (packageGraph files).FirstRepeat [] ∅ [.ok package] chain b ∧
      names = (chain ++ [b]).map LocalPackage.name := by
  obtain ⟨error, hroot, hresult⟩ | ⟨package, hroot, located, hresult⟩ := resolveLocal_eq h
  · obtain rfl : ResolutionError.cycle names = error :=
      Stop.error.inj (Except.error.inj hresult)
    exact absurd hroot rootPackage_ne_cycle
  · obtain ⟨fault, run, hfault⟩ | ⟨finished, resolver, run, related, hresolution⟩ := hresult
    · have blames := run.blames (sound_nil files) rfl
      rw [setOf_mem_nil] at blames
      obtain rfl := fault_of_cycle blames (Stop.error.inj (Except.error.inj hfault)).symm
      obtain ⟨chain, b, first, hnames⟩ := run.firstRepeat (sound_nil files) rfl
      rw [setOf_mem_nil] at first
      exact ⟨package, chain, b, hroot, first, hnames⟩
    · obtain ⟨dependencies, heq, -⟩ := resolution_eq located run related
      cases hresolution.trans heq

variable {package : LocalPackage P}

/-- Resolution that meets a name first reports the packages of the stack as a cycle. -/
theorem eq_cycle_of_firstRepeat [DecidableEq P] (h : resolveLocal files fuel root = some result)
    (hroot : rootPackage files root = .ok package) {chain : List (LocalPackage P)}
    {b : LocalPackage P} (first : (packageGraph files).FirstRepeat [] ∅ [.ok package] chain b) :
    result = .error (.error (.cycle ((chain ++ [b]).map LocalPackage.name))) := by
  rw [← setOf_mem_nil] at first
  obtain ⟨error, hroot', -⟩ | ⟨package', hroot', -, hresult⟩ := resolveLocal_eq h
  · cases hroot.symm.trans hroot'
  · obtain rfl := Except.ok.inj (hroot.symm.trans hroot')
    obtain ⟨fault, run, rfl⟩ | ⟨finished, resolver, run, -, -⟩ := hresult
    · obtain rfl := Except.error.inj (run.of_firstRepeat (sound_nil files) first)
      rfl
    · cases run.of_firstRepeat (sound_nil files) first

/-- Once cycles are reported truthfully, a name at two paths is reported when nothing else is
wrong. -/
theorem exists_duplicate [DecidableEq P] (h : resolveLocal files fuel root = some result)
    (cycle : ∀ names, result = .error (.error (.cycle names)) →
      ∃ package, rootPackage files root = .ok package ∧ DependencyCycle files package names)
    (hroot : rootPackage files root = .ok package) (declared : Declared files package)
    (noCycle : NoCycle files package) (twoPaths : ¬ OnePath files package) :
    ∃ p q, Reaches files package p ∧ Reaches files package q ∧ p.manifestPath ≠ q.manifestPath ∧
      p.name = q.name ∧
      result = .error (.error (.duplicatePackage p.name p.manifestPath q.manifestPath)) := by
  obtain ⟨error, hroot', -⟩ | ⟨package', hroot', located, hresult⟩ := resolveLocal_eq h
  · cases hroot.symm.trans hroot'
  obtain rfl := Except.ok.inj (hroot.symm.trans hroot')
  obtain ⟨fault, run, rfl⟩ | ⟨finished, resolver, run, -, -⟩ := hresult
  · have blames := run.blames (sound_nil files) rfl
    rw [setOf_mem_nil] at blames
    -- a fault can only be a duplicate: nothing is broken, and a cycle would be a true one
    cases fault with
    | broken =>
        obtain hmem | ⟨p, hp, hmem⟩ := blames
        · cases List.mem_singleton.mp hmem
        · obtain ⟨q, hq⟩ :=
            targets_ok_iff.mpr (declared p (mem_region_root.mp hp)) _ hmem
          cases hq
    | cycle names =>
        obtain ⟨package', hpackage, hcycle⟩ := cycle names rfl
        obtain rfl := Except.ok.inj (hroot.symm.trans hpackage)
        obtain ⟨p, hreach, htrans⟩ := (cyclic_iff.mpr hcycle).transGen
        rw [edge_eq] at htrans
        exact absurd htrans (noCycle p (reach_iff.mp hreach))
    | duplicate p q =>
        obtain ⟨hne, hname, hp, hq⟩ := blames
        rw [Set.empty_union] at hp
        have hp := mem_region_root.mp hp
        have hq := mem_region_root.mp hq
        refine ⟨p, q, hp, hq, fun hpath => ?_, hname, ?_⟩
        · exact hne ((hp.located located).ext (hq.located located) hpath)
        · rw [show p.name = q.name from hname]
          rfl
  · have hclear := (run.clear (sound_nil files) rfl).1
    rw [setOf_mem_nil] at hclear
    exact absurd ((clear_root located).mp hclear).onePath twoPaths

/-- The first package found under the name of one that is still being followed is that package. -/
def RepeatsAtSamePackage (files : Files P) (root : P) : Prop :=
  ∀ package, rootPackage files root = .ok package → ∀ chain b,
    (packageGraph files).FirstRepeat [] ∅ [.ok package] chain b → chain.head? = some b

section Results

variable [DecidableEq P] (files : Files P) (root : P)
  (finite : {package | Located files package}.Finite)

include finite

theorem resolves_of_repeatsAreCycles (h : RepeatsAreCycles files root) :
    (∃ enough, ∀ fuel ≥ enough, ∃ result, resolveLocal files fuel root = some result) ∧
      ∀ fuel result, resolveLocal files fuel root = some result →
        Exact files root result ∧ Truthful files root result := by
  refine ⟨resolveLocal_returns files root finite, fun fuel result hresult =>
    ⟨exact_of_resolveLocal hresult, ?_⟩⟩
  have cycle : ∀ names, result = .error (.error (.cycle names)) →
      ∃ package, rootPackage files root = .ok package ∧ DependencyCycle files package names := by
    intro names heq
    subst heq
    obtain ⟨package, chain, b, hroot, first, rfl⟩ := exists_firstRepeat hresult
    refine ⟨package, hroot, ?_⟩
    obtain itself | hcycle := h package hroot chain b first
    · exact cyclic_iff.mp (first.cyclic itself)
    · exact hcycle
  exact
    { cycle := cycle
      duplicate := fun package hroot declared noCycle twoPaths =>
        exists_duplicate hresult cycle hroot declared noCycle twoPaths }

/-- Where a name is met again only at its own package, resolution tells the truth. -/
theorem resolves_of_repeatsAtSamePackage (h : RepeatsAtSamePackage files root) :
    (∃ enough, ∀ fuel ≥ enough, ∃ result, resolveLocal files fuel root = some result) ∧
      ∀ fuel result, resolveLocal files fuel root = some result →
        Exact files root result ∧ Truthful files root result :=
  resolves_of_repeatsAreCycles files root finite fun package hroot chain b first =>
    .inl (h package hroot chain b first)

end Results

/-- Over finitely many manifests resolution ends, with the result that the packages call for; what
it calls a cycle is one exactly when the first name that is met again is met at its own package. -/
theorem resolves_iff [DecidableEq P] (files : Files P) (root : P)
    (finite : {package | Located files package}.Finite) :
    ((∃ enough, ∀ fuel ≥ enough, ∃ result, resolveLocal files fuel root = some result) ∧
      ∀ fuel result, resolveLocal files fuel root = some result →
        Exact files root result ∧ Truthful files root result) ↔ RepeatsAreCycles files root := by
  refine ⟨fun h package hroot chain b first => ?_, resolves_of_repeatsAreCycles files root finite⟩
  obtain ⟨enough, henough⟩ := h.1
  obtain ⟨result, hresult⟩ := henough enough le_rfl
  have heq := eq_cycle_of_firstRepeat hresult hroot first
  obtain ⟨package', hpackage, hcycle⟩ := (h.2 enough result hresult).2.cycle _ heq
  obtain rfl := Except.ok.inj (hroot.symm.trans hpackage)
  exact .inr hcycle

/-! ### A name at two paths below itself -/

/-- The path up to its last slash. -/
def parentText (path : Text) : Option Text :=
  match path.reverse.dropWhile fun c => c ≠ '/' with
  | [] => none
  | _ :: rest => some rest.reverse

/-- The package `a` depends on `b`, and `b` on another package `a`, which has no dependencies. -/
def nestedFiles : List (Text × Text) :=
  [("/p/jadren.toml".toList,
    ("[package]\nname = \"a\"\nversion = \"0.1.0\"\nedition = \"2026\"\n" ++
      "[dependencies]\nb = \x7b path = \"b\" \x7d\n").toList),
  ("/p/b/jadren.toml".toList,
    ("[package]\nname = \"b\"\nversion = \"0.1.0\"\nedition = \"2026\"\n" ++
      "[dependencies]\na = \x7b path = \"a\" \x7d\n").toList),
  ("/p/b/a/jadren.toml".toList,
    "[package]\nname = \"a\"\nversion = \"0.1.0\"\nedition = \"2026\"\n".toList)]

def nested : Files Text where
  metadata path :=
    if path ∈ ["/p".toList, "/p/b".toList, "/p/b/a".toList] then .ok .directory
    else if path ∈ nestedFiles.map Prod.fst then .ok .file
    else .error "No such file or directory (os error 2)"
  canonicalize path := .ok path
  readToString path :=
    match nestedFiles.find? fun file => file.1 = path with
    | some file => .ok file.2
    | none => .error "No such file or directory (os error 2)"
  join base relativePath := base ++ '/' :: relativePath
  parent := parentText
  current := ['.']

def nestedPackage (path name : Text) (dependencies : OrderedMap Text DependencySpec) :
    LocalPackage Text :=
  ⟨path, ⟨⟨name, "0.1.0".toList, "2026".toList⟩, dependencies, true⟩⟩

def nestedRoot : LocalPackage Text :=
  nestedPackage "/p/jadren.toml".toList ['a'] ⟨[(['b'], .path ['b'])], pairwise_singleton _ _⟩

def nestedMiddle : LocalPackage Text :=
  nestedPackage "/p/b/jadren.toml".toList ['b'] ⟨[(['a'], .path ['a'])], pairwise_singleton _ _⟩

def nestedLeaf : LocalPackage Text := nestedPackage "/p/b/a/jadren.toml".toList ['a'] ∅

theorem finite_nested : {package | Located nested package}.Finite := by
  refine Set.Finite.of_injOn (f := LocalPackage.manifestPath)
    (t := {path | path ∈ nestedFiles.map Prod.fst}) ?_ ?_ (finite_toSet _)
  · intro package located
    obtain ⟨text, hread, -⟩ := located
    simp only [nested] at hread
    split at hread
    · rename_i file hfile
      have hpath : file.1 = package.manifestPath := by simpa using find?_some hfile
      exact hpath ▸ mem_map_of_mem (mem_of_find?_eq_some hfile)
    · cases hread
  · exact fun p hp q hq h => Located.ext hp hq h

theorem nested_dependsOn {p q : LocalPackage Text} (h : DependsOn nested p q) :
    (p = nestedRoot → q = nestedMiddle) ∧ (p = nestedMiddle → q = nestedLeaf) ∧
      p ≠ nestedLeaf := by
  obtain ⟨name, relativePath, hmem, hlocate, -⟩ := h
  refine ⟨?_, ?_, ?_⟩
  · intro hp
    subst hp
    have hentry : (name, DependencySpec.path relativePath) = (['b'], .path ['b']) :=
      List.mem_singleton.mp hmem
    cases hentry
    have hfound : locate nested (dependencyPath nested nestedRoot ['b']) none =
      .ok nestedMiddle := rfl
    exact Except.ok.inj (hlocate.symm.trans hfound)
  · intro hp
    subst hp
    have hentry : (name, DependencySpec.path relativePath) = (['a'], .path ['a']) :=
      List.mem_singleton.mp hmem
    cases hentry
    have hfound : locate nested (dependencyPath nested nestedMiddle ['a']) none =
      .ok nestedLeaf := rfl
    exact Except.ok.inj (hlocate.symm.trans hfound)
  · intro hp
    subst hp
    exact absurd hmem List.not_mem_nil

/-- The three packages stand one below another. -/
theorem noCycle_nested : NoCycle nested nestedRoot := by
  intro p hreach hcycle
  have hcases : p = nestedRoot ∨ p = nestedMiddle ∨ p = nestedLeaf := by
    clear hcycle
    induction hreach with
    | refl => exact .inl rfl
    | tail _ hedge ih =>
        obtain ⟨hroot, hmiddle, hleaf⟩ := nested_dependsOn hedge
        obtain heq | heq | heq := ih
        · exact .inr (.inl (hroot heq))
        · exact .inr (.inr (hmiddle heq))
        · exact absurd heq hleaf
  have hbelow : ∀ q, Relation.TransGen (DependsOn nested) p q →
      (p = nestedRoot → q = nestedMiddle ∨ q = nestedLeaf) ∧
        (p = nestedMiddle → q = nestedLeaf) ∧ p ≠ nestedLeaf := by
    intro q hq
    induction hq with
    | single hedge =>
        obtain ⟨hroot, hmiddle, hleaf⟩ := nested_dependsOn hedge
        exact ⟨fun h => .inl (hroot h), hmiddle, hleaf⟩
    | tail _ hedge ih =>
        obtain ⟨-, hmiddle, hleaf⟩ := nested_dependsOn hedge
        refine ⟨fun h => ?_, fun h => absurd (ih.2.1 h) hleaf, ih.2.2⟩
        exact (ih.1 h).elim (fun h => .inr (hmiddle h)) fun h => absurd h hleaf
  obtain ⟨hroot, hmiddle, hleaf⟩ := hbelow p hcycle
  have hnames : nestedRoot.manifestPath ≠ nestedMiddle.manifestPath ∧
      nestedRoot.manifestPath ≠ nestedLeaf.manifestPath ∧
      nestedMiddle.manifestPath ≠ nestedLeaf.manifestPath := by decide
  obtain rfl | rfl | rfl := hcases
  · exact (hroot rfl).elim (fun h => hnames.1 (congrArg _ h)) fun h => hnames.2.1 (congrArg _ h)
  · exact hnames.2.2 (congrArg _ (hmiddle rfl))
  · exact hleaf rfl

/-- Resolution of the nested packages reports a cycle that is not there. -/
theorem not_truthful_nested :
    resolveLocal nested 4 "/p".toList = some (.error (.error (.cycle [['a'], ['b'], ['a']]))) ∧
      ¬ ∀ (files : Files Text) (root : Text), {package | Located files package}.Finite →
        (∃ enough, ∀ fuel ≥ enough, ∃ result, resolveLocal files fuel root = some result) ∧
          ∀ fuel result, resolveLocal files fuel root = some result →
            Exact files root result ∧ Truthful files root result := by
  have hresult : resolveLocal nested 4 "/p".toList =
      some (.error (.error (.cycle [['a'], ['b'], ['a']]))) := rfl
  refine ⟨hresult, fun h => ?_⟩
  have truthful := ((h nested "/p".toList finite_nested).2 4 _ hresult).2
  obtain ⟨package, hroot, hcycle⟩ := truthful.cycle _ rfl
  obtain rfl : nestedRoot = package := Except.ok.inj hroot
  obtain ⟨p, hreach, htrans⟩ := (cyclic_iff.mpr hcycle).transGen
  rw [edge_eq] at htrans
  exact noCycle_nested p (reach_iff.mp hreach) htrans

theorem resolves_iff_nested :
    ((∃ enough, ∀ fuel ≥ enough, ∃ result,
        resolveLocal nested fuel "/p/b".toList = some result) ∧
      ∀ fuel result, resolveLocal nested fuel "/p/b".toList = some result →
        Exact nested "/p/b".toList result ∧ Truthful nested "/p/b".toList result) ↔
      RepeatsAreCycles nested "/p/b".toList :=
  resolves_iff nested "/p/b".toList finite_nested

end Jadren.Package

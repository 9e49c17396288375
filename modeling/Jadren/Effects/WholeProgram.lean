import Jadren.Effects.Stages
import Mathlib.Data.List.Pairwise

/-!
# The summaries are the least solution

The effects of all functions of a session are one system of equations, `LeastSolution`:
those of a function are its direct effects and those of its callees, of which the ones in
its file are named by symbol and the others by canonical path, and a path that no function
has stands for an unsafe call.

The source solves the system in two stages.  The first, over paths, is a part of the system:
what a function with a path calls has a path.  The second solves one file with the paths of
the first, and comes to nothing else, since the first solves each file too.

Two files that declare one path are an error of the session.  The first stage keeps the node
of the last of them, so there the order of the files would matter.
-/

namespace Jadren.Effects

open Fixpoint List

variable {files : List SourceFile} {file : SourceFile} {f : FunctionEffects} {path : Path}
  {node : Node} {e : EffectKind}

/-- A file of the session has this function, and this is its canonical path. -/
def Declares (files : List SourceFile) (path : Path) (file : SourceFile) (f : FunctionEffects) :
    Prop :=
  file ∈ files ∧ f ∈ file.functions ∧ file.pathOf f = some path

/-- What a call of a path contributes to the effects of the caller. -/
def Outside (files : List SourceFile) (x : SourceFile → SymbolId → EffectSet) (path : Path)
    (e : EffectKind) : Prop :=
  (∃ file f, Declares files path file f ∧ e ∈ x file f.symbol) ∨
    e = .unsafeCall ∧ ∀ file f, ¬ Declares files path file f

/-- The least solution of the equations of all functions. -/
structure LeastSolution (files : List SourceFile) (x : SourceFile → SymbolId → EffectSet) :
    Prop where
  solves : ∀ file ∈ files, ∀ f ∈ file.functions, ∀ e,
    e ∈ x file f.symbol ↔ FileContributes (Outside files x) (x file) f e
  least : ∀ y : SourceFile → SymbolId → EffectSet, (∀ file ∈ files, ∀ f ∈ file.functions, ∀ e,
      FileContributes (Outside files y) (y file) f e → e ∈ y file f.symbol) →
    ∀ file ∈ files, ∀ f ∈ file.functions, x file f.symbol ⊆ y file f.symbol

/-- Both stages end, in the least solution, and the order of the files is of no account. -/
def TwoStageLeast (files : List SourceFile) : Prop :=
  ∃ summaries x, buildEffectSummaries files = some summaries ∧ LeastSolution files x ∧
    (∀ file ∈ files, effectsOfFile file summaries =
      some (file.functions.map fun f => { f with inferred := x file f.symbol })) ∧
    (∀ path file f, Declares files path file f →
      summaries.lookup path = some (x file f.symbol)) ∧
    ∀ files', files.Perm files' → buildEffectSummaries files' = some summaries

/-- The canonical paths of the functions of the file. -/
def SourceFile.paths (file : SourceFile) : List Path := file.functions.filterMap file.pathOf

def DisjointPaths (a b : SourceFile) : Prop := a.paths.Disjoint b.paths

instance (a b : SourceFile) : Decidable (DisjointPaths a b) :=
  inferInstanceAs (Decidable (∀ path, path ∈ a.paths → path ∈ b.paths → False))

instance : Std.Symm DisjointPaths := ⟨fun _ _ h => h.symm⟩

/-- No canonical path is declared by two files. -/
def DistinctPaths (files : List SourceFile) : Prop := files.Pairwise DisjointPaths

theorem DistinctPaths.unique (h : DistinctPaths files) {file' : SourceFile}
    {f' : FunctionEffects} (hf : Declares files path file f)
    (hf' : Declares files path file' f') : file' = file ∧ f' = f := by
  obtain ⟨hfile, hmem, hpath⟩ := hf
  obtain ⟨hfile', hmem', hpath'⟩ := hf'
  have hsame : file' = file := by
    by_contra hne
    have hdisjoint := List.Pairwise.forall h hfile' hfile hne
    exact hdisjoint (mem_filterMap.mpr ⟨f', hmem', hpath'⟩)
      (mem_filterMap.mpr ⟨f, hmem, hpath⟩)
  subst hsame
  refine ⟨rfl, inj_on_of_nodup_map file'.names_nodup hmem' hmem ?_⟩
  have heq := hpath'.trans hpath.symm
  unfold SourceFile.pathOf at heq hpath
  cases hmodule : file'.moduleName with
  | none => rw [hmodule] at hpath; cases hpath
  | some =>
      rw [hmodule] at heq
      exact (cons.inj (append_cancel_left (Option.some.inj heq))).2

/-! ## The nodes -/

theorem SourceFile.canonicalPath_symbol (hf : f ∈ file.functions) :
    file.canonicalPath f.symbol = file.pathOf f := by
  obtain ⟨g, hg⟩ := Option.isSome_iff_exists.mp
    (find?_isSome (p := fun g => g.symbol = f.symbol).mpr ⟨f, hf, decide_eq_true rfl⟩)
  have hsymbol : g.symbol = f.symbol := by simpa using find?_some hg
  obtain rfl := inj_on_of_nodup_map file.symbols_nodup (mem_of_find?_eq_some hg) hf
    hsymbol
  rw [canonicalPath, hg]
  rfl

/-- The nodes of a file. -/
def SourceFile.nodes (file : SourceFile) : List (Path × Node) :=
  file.functions.filterMap fun f => (file.pathOf f).map fun path => (path, nodeOf file f)

theorem addFile_eq (nodes : OrderedMap Path Node) (file : SourceFile) : addFile nodes file =
    some (file.nodes.foldl (fun nodes entry => nodes.insert entry.1 entry.2) nodes) := by
  obtain ⟨effects, hinfer⟩ := exists_inferEffectsUnresolved file.functions
  unfold addFile SourceFile.nodes
  rw [hinfer]
  refine congrArg some ?_
  rw [foldl_map, foldl_filterMap]
  refine foldl_ext _ _ _ fun nodes f hf => ?_
  rw [SourceFile.canonicalPath_symbol hf]
  cases file.pathOf f with
  | none => rfl
  | some => rfl

theorem foldlM_addFile (nodes : OrderedMap Path Node) (files : List SourceFile) :
    files.foldlM addFile nodes = some ((files.flatMap SourceFile.nodes).foldl
      (fun nodes entry => nodes.insert entry.1 entry.2) nodes) := by
  induction files generalizing nodes with
  | nil => rfl
  | cons file files ih =>
      rw [foldlM_cons, addFile_eq, flatMap_cons, foldl_append]
      exact ih _

theorem mem_nodes : (path, node) ∈ files.flatMap SourceFile.nodes ↔
    ∃ file f, Declares files path file f ∧ node = nodeOf file f := by
  unfold SourceFile.nodes Declares
  simp only [mem_flatMap, mem_filterMap, Option.map_eq_some_iff, Prod.mk.injEq]
  constructor
  · rintro ⟨file, hfile, f, hf, path, hpath, rfl, rfl⟩
    exact ⟨file, f, ⟨hfile, hf, hpath⟩, rfl⟩
  · rintro ⟨file, f, ⟨hfile, hf, hpath⟩, rfl⟩
    exact ⟨file, hfile, f, hf, path, hpath, rfl, rfl⟩

theorem exists_nodes (h : DistinctPaths files) :
    ∃ nodes, files.foldlM addFile ∅ = some nodes ∧ ∀ path node,
      nodes.lookup path = some node ↔ ∃ file f, Declares files path file f ∧
        node = nodeOf file f := by
  refine ⟨_, foldlM_addFile ∅ files, fun path node => ?_⟩
  rw [OrderedMap.lookup_foldl_insert, mem_nodes]
  intro node' hnode hnode'
  obtain ⟨file, f, hf, rfl⟩ := mem_nodes.mp hnode
  obtain ⟨file', f', hf', rfl⟩ := mem_nodes.mp hnode'
  obtain ⟨rfl, rfl⟩ := h.unique hf hf'
  rfl

theorem mem_calls {callee : Path} (hf : f ∈ file.functions) : callee ∈ (nodeOf file f).calls ↔
    callee ∈ f.externalCalls ∨
      ∃ g ∈ file.functions, g.symbol ∈ f.calls ∧ file.pathOf g = some callee := by
  have hmem : callee ∈ (nodeOf file f).calls ↔
      callee ∈ f.externalCalls ++ f.calls.filterMap file.canonicalPath := OrderedSet.mem_ofList
  rw [hmem, mem_append, mem_filterMap]
  refine or_congr_right ⟨fun ⟨symbol, hsymbol, hpath⟩ => ?_, fun ⟨g, hg, hsymbol, hpath⟩ => ?_⟩
  · obtain ⟨g, hg, rfl⟩ := mem_map.mp (file.calls_local f hf symbol hsymbol)
    exact ⟨g, hg, hsymbol, (SourceFile.canonicalPath_symbol hg).symm.trans hpath⟩
  · exact ⟨g.symbol, hsymbol, (SourceFile.canonicalPath_symbol hg).trans hpath⟩

/-- The first stage as a system of the declared paths. -/
theorem exists_buildEffectSummaries (h : DistinctPaths files) :
    ∃ summaries, buildEffectSummaries files = some summaries ∧
      (∀ files', files.Perm files' → buildEffectSummaries files' = some summaries) ∧
      (∀ path file f, Declares files path file f →
        summaries.lookup path = some (summaryOf summaries path)) ∧
      (∀ path, (∀ file f, ¬ Declares files path file f) →
        summaryOf summaries path = {.unsafeCall}) ∧
      (∀ path file f, Declares files path file f → ∀ e,
        e ∈ summaryOf summaries path ↔ NodeContributes summaries (nodeOf file f) e) ∧
      ∀ y : Path → EffectSet,
        (∀ path, (∀ file f, ¬ Declares files path file f) → y path = {.unsafeCall}) →
        (∀ path file f, Declares files path file f → ∀ e,
          e ∈ f.direct ∨ (∃ callee ∈ (nodeOf file f).calls, e ∈ y callee) → e ∈ y path) →
        ∀ path, summaryOf summaries path ⊆ y path := by
  obtain ⟨nodes, hnodes, hlookup⟩ := exists_nodes h
  obtain ⟨summaries, hrun, hkeys, hsolves, hleast⟩ := exists_run_nextSummaries nodes
  have hdeclared : ∀ path file f, Declares files path file f →
      nodes.lookup path = some (nodeOf file f) := fun path file f hf =>
    (hlookup path _).mpr ⟨file, f, hf, rfl⟩
  have hnone : ∀ path, (∀ file f, ¬ Declares files path file f) → nodes.lookup path = none :=
    fun path hpath => Option.eq_none_iff_forall_ne_some.mpr fun node hnode => by
      obtain ⟨file, f, hf, -⟩ := (hlookup path node).mp hnode
      exact hpath file f hf
  refine ⟨summaries, ?_, fun files' hperm => ?_, fun path file f hf => ?_, fun path hpath => ?_,
    fun path file f hf => hsolves path _ (hdeclared path file f hf), fun y hy hcalls => ?_⟩
  · unfold buildEffectSummaries
    rw [hnodes]
    exact hrun
  · -- the files in another order have the same nodes
    have hdistinct : DistinctPaths files' := hperm.pairwise h fun h => h.symm
    obtain ⟨nodes', hnodes', hlookup'⟩ := exists_nodes hdistinct
    have hsame : nodes' = nodes := OrderedMap.ext_lookup fun path => Option.ext fun node => by
      rw [hlookup', hlookup]
      simp only [Declares, hperm.mem_iff]
    unfold buildEffectSummaries
    rw [hnodes', hsame]
    exact hrun
  · have hsome : (summaries.lookup path).isSome := by
      rw [hkeys, hdeclared path file f hf]
      rfl
    obtain ⟨effects, heffects⟩ := Option.isSome_iff_exists.mp hsome
    unfold summaryOf
    rw [heffects]
    rfl
  · have hmissing : summaries.lookup path = none := by
      rw [← Option.not_isSome_iff_eq_none, hkeys, hnone path hpath]
      exact Bool.false_ne_true
    unfold summaryOf
    rw [hmissing]
    rfl
  · -- a solution over the declared paths solves the equations of the nodes
    refine hleast y (fun path hpath => hy path fun file f hf => ?_) fun path node hnode e he => ?_
    · rw [hdeclared path file f hf] at hpath
      cases hpath
    · obtain ⟨file, f, hf, rfl⟩ := (hlookup path node).mp hnode
      exact hcalls path file f hf e he

/-! ## The whole program -/

/-- What a path contributes to its callers, as a set. -/
noncomputable def outsideEffects (files : List SourceFile)
    (x : SourceFile → SymbolId → EffectSet) (path : Path) : EffectSet := by
  classical exact Finset.univ.filter fun e => Outside files x path e

variable {x : SourceFile → SymbolId → EffectSet}

theorem mem_outsideEffects : e ∈ outsideEffects files x path ↔ Outside files x path e := by
  classical
  unfold outsideEffects
  exact Finset.mem_filter.trans (and_iff_right (Finset.mem_univ e))

theorem outside_of_not_declares (h : ∀ file f, ¬ Declares files path file f) :
    Outside files x path e ↔ e = .unsafeCall :=
  ⟨fun hout => hout.elim (fun ⟨file, f, hf, _⟩ => absurd hf (h file f)) And.left,
    fun he => .inr ⟨he, h⟩⟩

theorem DistinctPaths.outside_iff (h : DistinctPaths files) (hf : Declares files path file f) :
    Outside files x path e ↔ e ∈ x file f.symbol := by
  refine ⟨fun hout => ?_, fun he => .inl ⟨file, f, hf, he⟩⟩
  obtain ⟨file', f', hf', he⟩ | ⟨-, hnone⟩ := hout
  · obtain ⟨rfl, rfl⟩ := h.unique hf hf'
    exact he
  · exact absurd hf (hnone file f)

variable {summaries : OrderedMap Path EffectSet}

/-- A family that solves its files and agrees with the summaries outside contributes at least
what the summaries of the declared paths contribute. -/
theorem summaryOf_subset (h : DistinctPaths files)
    (hleast : ∀ y : Path → EffectSet,
      (∀ path, (∀ file f, ¬ Declares files path file f) → y path = {.unsafeCall}) →
      (∀ path file f, Declares files path file f → ∀ e,
        e ∈ f.direct ∨ (∃ callee ∈ (nodeOf file f).calls, e ∈ y callee) → e ∈ y path) →
      ∀ path, summaryOf summaries path ⊆ y path)
    (hx : ∀ file ∈ files, ∀ f ∈ file.functions, ∀ e,
      FileContributes (Outside files x) (x file) f e → e ∈ x file f.symbol)
    (hout : e ∈ summaryOf summaries path) : Outside files x path e := by
  refine mem_outsideEffects.mp (hleast (outsideEffects files x) (fun path hpath => ?_)
    (fun path file f hf e he => ?_) path hout)
  · ext e
    rw [mem_outsideEffects, outside_of_not_declares hpath, Finset.mem_singleton]
  · rw [mem_outsideEffects, h.outside_iff hf]
    refine hx file hf.1 f hf.2.1 e (he.imp_right fun ⟨callee, hcallee, he⟩ => ?_)
    rw [mem_outsideEffects] at he
    obtain hexternal | ⟨g, hg, hsymbol, hpath⟩ := (mem_calls hf.2.1).mp hcallee
    · exact .inr ⟨callee, hexternal, he⟩
    · exact .inl ⟨g.symbol, hsymbol, (h.outside_iff ⟨hf.1, hg, hpath⟩).mp he⟩

theorem exists_pathOf {g : FunctionEffects} (hpath : file.pathOf f = some path) :
    ∃ path, file.pathOf g = some path := by
  unfold SourceFile.pathOf at hpath ⊢
  cases hname : file.moduleName with
  | none => rw [hname] at hpath; cases hpath
  | some => exact ⟨_, rfl⟩

/-- The summaries solve every file that has paths. -/
theorem subset_summaryOf {x : SymbolId → EffectSet}
    (hsolves : ∀ path file f, Declares files path file f → ∀ e,
      e ∈ summaryOf summaries path ↔ NodeContributes summaries (nodeOf file f) e)
    (hleast : ∀ y : SymbolId → EffectSet, (∀ f ∈ file.functions, ∀ e,
      FileContributes (fun path e => e ∈ summaryOf summaries path) y f e → e ∈ y f.symbol) →
      ∀ f ∈ file.functions, x f.symbol ⊆ y f.symbol) (hf : Declares files path file f) :
    x f.symbol ⊆ summaryOf summaries path := by
  -- the effects of a symbol are those of its path
  let y := fun symbol => summaryOf summaries ((file.canonicalPath symbol).getD [])
  have hy : ∀ g ∈ file.functions, ∀ path, file.pathOf g = some path →
      y g.symbol = summaryOf summaries path := fun g hg path hpath => by
    show summaryOf summaries ((file.canonicalPath g.symbol).getD []) = _
    rw [SourceFile.canonicalPath_symbol hg, hpath]
    rfl
  rw [← hy f hf.2.1 path hf.2.2]
  refine hleast y (fun g hg e he => ?_) f hf.2.1
  obtain ⟨pathG, hpathG⟩ := exists_pathOf (g := g) hf.2.2
  rw [hy g hg pathG hpathG, hsolves pathG file g ⟨hf.1, hg, hpathG⟩]
  refine he.imp_right fun hcall => ?_
  obtain ⟨callee, hcallee, he⟩ | ⟨callee, hcallee, he⟩ := hcall
  · obtain ⟨k, hk, rfl⟩ := mem_map.mp (file.calls_local g hg callee hcallee)
    obtain ⟨pathK, hpathK⟩ := exists_pathOf (g := k) hf.2.2
    refine ⟨pathK, (mem_calls hg).mpr (.inr ⟨k, hk, hcallee, hpathK⟩), ?_⟩
    rw [← hy k hk pathK hpathK]
    exact he
  · exact ⟨callee, (mem_calls hg).mpr (.inl hcallee), he⟩

/-- If no path is declared twice, the two stages give every function its effects in the least
solution for the whole program. -/
theorem twoStageLeast_of_distinctPaths (h : DistinctPaths files) : TwoStageLeast files := by
  obtain ⟨summaries, hbuild, hperm, hlookup, hnone, hsolves, hleast⟩ :=
    exists_buildEffectSummaries h
  choose x happly hfile hfileLeast using fun file => exists_effectsOfFile file summaries
  have hbelow : ∀ path file f, Declares files path file f →
      x file f.symbol ⊆ summaryOf summaries path :=
    fun _ file _ hf => subset_summaryOf hsolves (hfileLeast file) hf
  have houtside : ∀ path e, Outside files x path e → e ∈ summaryOf summaries path :=
    fun path e hout => by
      obtain ⟨file, f, hf, he⟩ | ⟨he, hpath⟩ := hout
      · exact hbelow path file f hf he
      · rw [hnone path hpath, he]
        exact Finset.mem_singleton_self _
  -- so they contribute the same, and the files with them solve the whole program
  have hsame : ∀ path e, e ∈ summaryOf summaries path ↔ Outside files x path e := fun path e =>
    ⟨summaryOf_subset h hleast fun file hfiles f hf e he => (hfile file f hf e).mpr
        (he.imp_right fun hcall => hcall.imp_right fun ⟨callee, hcallee, he⟩ =>
          ⟨callee, hcallee, houtside callee e he⟩),
      houtside path e⟩
  have houter : (fun path e => e ∈ summaryOf summaries path) = Outside files x := by
    funext path e
    exact propext (hsame path e)
  refine ⟨summaries, x, hbuild, ⟨fun file _ f hf e => ?_, fun y hy file hfiles f hf => ?_⟩,
    fun file _ => happly file, fun path file f hf => ?_, hperm⟩
  · rw [← houter]
    exact hfile file f hf e
  · refine hfileLeast file (y file) (fun f hf e he => hy file hfiles f hf e ?_) f hf
    exact he.imp_right fun hcall => hcall.imp_right fun ⟨callee, hcallee, he⟩ =>
      ⟨callee, hcallee, summaryOf_subset h hleast hy he⟩
  · have heffects : summaryOf summaries path = x file f.symbol := by
      ext e
      rw [hsame, h.outside_iff hf]
    rw [← heffects]
    exact hlookup path file f hf

/-- A file that declares one function. -/
def singleFunction (moduleName name : Path) (direct : EffectSet) (externalCalls : List Path) :
    SourceFile where
  moduleName := some moduleName
  functions := [⟨0, name, direct, direct, [], externalCalls⟩]
  symbols_nodup := nodup_singleton _
  names_nodup := nodup_singleton _
  calls_local := forall_mem_singleton.mpr nofun

/-- Two files the functions of which call each other. -/
theorem twoStageLeast_of_distinctPaths_mutual :
    TwoStageLeast [singleFunction ['a'] ['f'] {.read} [['b', '.', 'g']],
      singleFunction ['b'] ['g'] {.write} [['a', '.', 'f']]] :=
  twoStageLeast_of_distinctPaths (by unfold DistinctPaths; decide)

/-- Two files that declare `m.f`: the summaries have the direct effects of the last. -/
theorem not_twoStageLeast_redeclared :
    ¬ TwoStageLeast [singleFunction ['m'] ['f'] {.read} [],
      singleFunction ['m'] ['f'] {.write} []] := by
  rintro ⟨summaries, x, hbuild, -, -, -, hperm⟩
  have hswap := hbuild.trans (hperm _ (List.Perm.swap ..)).symm
  exact absurd hswap (by decide)

end Jadren.Effects

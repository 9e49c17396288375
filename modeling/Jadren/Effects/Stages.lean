import Jadren.Effects.Summaries

/-!
# Each stage is a least solution

Both stages apply a round of unions until nothing changes.  The rounds only add effects, of
which there are finitely many, so each stage ends in the least solution of its equations:
`exists_effectsOfFile` for the functions of a file with given summaries,
`exists_run_nextSummaries` for the paths of a session.
-/

namespace Jadren.Effects

open Fixpoint OrderedMap List

variable {functions : List FunctionEffects} {file : SourceFile} {f : FunctionEffects}
  {xs ys : List EffectSet} {e : EffectKind} {summaries : OrderedMap Path EffectSet}

/-! ## Membership -/

theorem mem_foldl_union {ι : Type} (effects : ι → EffectSet) (is : List ι) (start : EffectSet) :
    e ∈ is.foldl (fun inferred i => inferred ∪ effects i) start ↔
      e ∈ start ∨ ∃ i ∈ is, e ∈ effects i := by
  induction is generalizing start with
  | nil => simp
  | cons i is ih =>
      rw [foldl_cons, ih, Finset.mem_union, exists_mem_cons_iff, or_assoc]

theorem mem_localEffects : e ∈ localEffects functions xs f ↔
    e ∈ f.direct ∨ ∃ callee ∈ f.calls, e ∈ (effectsOf functions xs callee).getD ∅ := by
  have hstep : localEffects functions xs f = f.calls.foldl
      (fun inferred callee => inferred ∪ (effectsOf functions xs callee).getD ∅) f.direct := by
    unfold localEffects
    congr 1
    funext inferred callee
    cases effectsOf functions xs callee with
    | none => exact (Finset.union_empty _).symm
    | some => rfl
  rw [hstep, mem_foldl_union]

theorem effectsOf_below (h : Below xs ys) (symbol : SymbolId) :
    (effectsOf functions xs symbol).getD ∅ ⊆ (effectsOf functions ys symbol).getD ∅ := by
  unfold effectsOf
  cases functions.findIdx? fun f => f.symbol = symbol with
  | none => exact Finset.Subset.refl _
  | some index =>
      show (xs[index]?).getD ∅ ⊆ (ys[index]?).getD ∅
      induction h generalizing index with
      | nil => exact Finset.Subset.refl _
      | cons hsubset _ ih =>
          cases index with
          | zero => exact hsubset
          | succ index => exact ih index

theorem localEffects_below (h : Below xs ys) (f : FunctionEffects) :
    localEffects functions xs f ⊆ localEffects functions ys f := by
  intro e he
  rw [mem_localEffects] at he ⊢
  exact he.imp_right fun ⟨callee, hcallee, he⟩ =>
    ⟨callee, hcallee, effectsOf_below h callee he⟩

/-- The effects of a function of the file are at its place. -/
theorem effectsOf_map (hnodup : (functions.map FunctionEffects.symbol).Nodup)
    (g : FunctionEffects → EffectSet) (hf : f ∈ functions) :
    effectsOf functions (functions.map g) f.symbol = some (g f) := by
  unfold effectsOf
  induction functions with
  | nil => cases hf
  | cons first rest ih =>
      rw [findIdx?_cons]
      by_cases hsymbol : first.symbol = f.symbol
      · have hsame : first = f := by
          obtain rfl | hrest := mem_cons.mp hf
          · rfl
          · have hmem := mem_map_of_mem (f := FunctionEffects.symbol) hrest
            rw [← hsymbol] at hmem
            exact absurd hmem (nodup_cons.mp hnodup).1
        rw [if_pos (decide_eq_true hsymbol), hsame]
        rfl
      · have hrest : f ∈ rest := (mem_cons.mp hf).resolve_left fun h => hsymbol (h ▸ rfl)
        rw [if_neg (by simpa using hsymbol), ← ih (nodup_cons.mp hnodup).2 hrest]
        cases rest.findIdx? fun g => g.symbol = f.symbol with
        | none => rfl
        | some => rfl

/-! ## The effects of one file -/

theorem climbs_map {g : List EffectSet → FunctionEffects → EffectSet}
    (hmono : ∀ {xs ys}, Below xs ys → ∀ f, g xs f ⊆ g ys f) (hdirect : ∀ xs f, f.direct ⊆ g xs f) :
    Climbs (fun previous => functions.map (g previous)) Below size
      (functions.length * Fintype.card EffectKind) (functions.map FunctionEffects.direct) where
  refl := below_refl
  trans := Below.trans
  mono h := below_map_iff.mpr fun f _ => hmono h f
  start := below_map_iff.mpr fun f _ => hdirect _ f
  rank_lt := Below.size_lt
  rank_le h := size_le_of_length (h.length_eq.symm.trans (length_map _))

/-- What a function contributes to its effects, given those of the functions of its file and of
the paths outside. -/
def FileContributes (outside : Path → EffectKind → Prop) (x : SymbolId → EffectSet)
    (f : FunctionEffects) (e : EffectKind) : Prop :=
  e ∈ f.direct ∨ (∃ callee ∈ f.calls, e ∈ x callee) ∨ ∃ path ∈ f.externalCalls, outside path e

/-- One round of `applyExternalSummaries` for a function. -/
def fileEffects (functions : List FunctionEffects) (summaries : OrderedMap Path EffectSet)
    (previous : List EffectSet) (f : FunctionEffects) : EffectSet :=
  f.externalCalls.foldl (fun inferred path => inferred ∪ summaryOf summaries path)
    (localEffects functions previous f)

theorem mem_fileEffects : e ∈ fileEffects functions summaries xs f ↔
    FileContributes (fun path e => e ∈ summaryOf summaries path)
      (fun callee => (effectsOf functions xs callee).getD ∅) f e := by
  unfold fileEffects FileContributes
  rw [mem_foldl_union, mem_localEffects, or_assoc]

theorem zipWith_map_self {α β γ : Type} (as : List α) (g : α → β) (h : α → β → γ) :
    as.zipWith h (as.map g) = as.map fun a => h a (g a) := by
  induction as with
  | nil => rfl
  | cons a as ih => rw [map_cons, zipWith_cons_cons, ih, map_cons]

theorem exists_inferEffectsUnresolved (functions : List FunctionEffects) :
    ∃ effects : FunctionEffects → EffectSet, inferEffectsUnresolved functions =
      some (functions.map fun f => { f with inferred := effects f }) := by
  have hclimbs : Climbs (fun previous => functions.map (localEffects functions previous)) Below
      size (functions.length * Fintype.card EffectKind)
      (functions.map FunctionEffects.direct) :=
    climbs_map (fun h f => localEffects_below h f) fun xs f e he =>
      mem_localEffects.mpr (.inl he)
  obtain ⟨y, hrun, hfixed, -⟩ := hclimbs.run_least (Nat.lt_succ_self _)
  refine ⟨localEffects functions y, ?_⟩
  have hinfer : inferLocal functions = some y := hrun
  have hzip := zipWith_map_self functions (localEffects functions y)
    fun f effects => { f with inferred := effects }
  rw [hfixed] at hzip
  unfold inferEffectsUnresolved
  rw [hinfer]
  exact congrArg some hzip

/-- The second stage gives the least solution of the equations of the file. -/
theorem exists_applyExternalSummaries (functions : List FunctionEffects)
    (hnodup : (functions.map FunctionEffects.symbol).Nodup)
    (hlocal : ∀ f ∈ functions, ∀ callee ∈ f.calls,
      callee ∈ functions.map FunctionEffects.symbol)
    (summaries : OrderedMap Path EffectSet) :
    ∃ x : SymbolId → EffectSet, applyExternalSummaries functions summaries =
        some (functions.map fun f => { f with inferred := x f.symbol }) ∧
      (∀ f ∈ functions, ∀ e, e ∈ x f.symbol ↔
        FileContributes (fun path e => e ∈ summaryOf summaries path) x f e) ∧
      ∀ y : SymbolId → EffectSet, (∀ f ∈ functions, ∀ e,
        FileContributes (fun path e => e ∈ summaryOf summaries path) y f e → e ∈ y f.symbol) →
        ∀ f ∈ functions, x f.symbol ⊆ y f.symbol := by
  have hclimbs : Climbs (fun previous =>
      functions.map (fileEffects functions summaries previous)) Below size
      (functions.length * Fintype.card EffectKind) (functions.map FunctionEffects.direct) :=
    climbs_map (fun h f e he => by
        rw [mem_fileEffects] at he ⊢
        exact he.imp_right fun h' => h'.imp_left fun ⟨callee, hcallee, he⟩ =>
          ⟨callee, hcallee, effectsOf_below h callee he⟩)
      fun xs f e he => mem_fileEffects.mpr (.inl he)
  obtain ⟨result, hrun, hfixed, -, hleast⟩ := hclimbs.run_least (Nat.lt_succ_self _)
  -- what the result says of a symbol
  have hat : ∀ f ∈ functions, ∀ g : FunctionEffects → EffectSet,
      (effectsOf functions (functions.map g) f.symbol).getD ∅ = g f := fun f hf g => by
    rw [effectsOf_map hnodup g hf]
    rfl
  have hx : ∀ f ∈ functions, (effectsOf functions result f.symbol).getD ∅ =
      fileEffects functions summaries result f := fun f hf =>
    (congrArg (fun result => (effectsOf functions result f.symbol).getD ∅)
      hfixed.symm).trans (hat f hf _)
  refine ⟨fun symbol => (effectsOf functions result symbol).getD ∅, ?_, fun f hf e => ?_,
    fun y hy f hf => ?_⟩
  · have happly : applyExternalSummaries functions summaries =
        some (functions.zipWith (fun f effects => { f with inferred := effects }) result) := by
      unfold applyExternalSummaries
      exact congrArg (Option.bind · _) hrun
    rw [happly]
    conv_lhs => rw [← hfixed, zipWith_map_self]
    exact congrArg some (map_congr_left fun f hf => by simp only [hx f hf])
  · show e ∈ (effectsOf functions result f.symbol).getD ∅ ↔ _
    rw [hx f hf, mem_fileEffects]
  · have hbelow := hleast (functions.map fun f => y f.symbol)
      (below_map_iff.mpr fun f hf e he => hy f hf e (.inl he))
      (below_map_iff.mpr fun f hf e he => hy f hf e ?_)
    · rw [← hfixed] at hbelow
      show (effectsOf functions result f.symbol).getD ∅ ⊆ y f.symbol
      rw [hx f hf]
      exact below_map_iff.mp hbelow f hf
    · refine (mem_fileEffects.mp he).imp_right fun h => h.imp_left ?_
      rintro ⟨callee, hcallee, he⟩
      obtain ⟨g, hg, rfl⟩ := mem_map.mp (hlocal f hf callee hcallee)
      have hcalled := Finset.ext_iff.mp (hat g hg fun f => y f.symbol) e
      exact ⟨_, hcallee, hcalled.mp he⟩

/-- Both stages on one file: what the first found is computed again. -/
theorem exists_effectsOfFile (file : SourceFile) (summaries : OrderedMap Path EffectSet) :
    ∃ x : SymbolId → EffectSet, effectsOfFile file summaries =
        some (file.functions.map fun f => { f with inferred := x f.symbol }) ∧
      (∀ f ∈ file.functions, ∀ e, e ∈ x f.symbol ↔
        FileContributes (fun path e => e ∈ summaryOf summaries path) x f e) ∧
      ∀ y : SymbolId → EffectSet, (∀ f ∈ file.functions, ∀ e,
        FileContributes (fun path e => e ∈ summaryOf summaries path) y f e → e ∈ y f.symbol) →
        ∀ f ∈ file.functions, x f.symbol ⊆ y f.symbol := by
  obtain ⟨effects, hinfer⟩ := exists_inferEffectsUnresolved file.functions
  have hsymbols : (file.functions.map fun f => { f with inferred := effects f }).map
      FunctionEffects.symbol = file.functions.map FunctionEffects.symbol := by
    rw [map_map]
    rfl
  obtain ⟨x, happly, hsolves, hleast⟩ := exists_applyExternalSummaries
    (file.functions.map fun f => { f with inferred := effects f })
    (by rw [hsymbols]; exact file.symbols_nodup)
    (by rw [hsymbols]; exact forall_mem_map.mpr file.calls_local) summaries
  refine ⟨x, ?_, forall_mem_map.mp hsolves, fun y hy => ?_⟩
  · rw [effectsOfFile, hinfer]
    refine happly.trans ?_
    rw [map_map]
    rfl
  · exact forall_mem_map.mp (hleast y (forall_mem_map.mpr hy))

/-! ## The effects of all paths -/

variable {nodes : OrderedMap Path Node} {x y : OrderedMap Path EffectSet} {path : Path}
  {node : Node}

/-- One map has the keys of the other and a part of its values. -/
def MapBelow (x y : OrderedMap Path EffectSet) : Prop :=
  x.keys = y.keys ∧ Below x.values y.values

theorem mapBelow_mapValues {g h : Path → Node → EffectSet}
    (hsubset : ∀ path node, nodes.lookup path = some node → g path node ⊆ h path node) :
    MapBelow (nodes.mapValues g) (nodes.mapValues h) := by
  unfold MapBelow OrderedMap.keys values mapValues
  refine ⟨by rw [map_map, map_map]; rfl, ?_⟩
  rw [map_map, map_map]
  exact below_map_iff.mpr fun entry hentry =>
    hsubset entry.1 entry.2 (lookup_iff_mem.mpr hentry)

theorem find_subset {K : Type} [LinearOrder K] {as bs : List (K × EffectSet)}
    (hkeys : as.map Prod.fst = bs.map Prod.fst)
    (hvalues : Below (as.map Prod.snd) (bs.map Prod.snd)) (key : K) (default : EffectSet) :
    ((as.find? fun entry => entry.1 = key).map Prod.snd).getD default ⊆
      ((bs.find? fun entry => entry.1 = key).map Prod.snd).getD default := by
  induction as generalizing bs with
  | nil => rw [map_eq_nil_iff.mp hkeys.symm]
  | cons a as ih =>
      obtain ⟨b, bs, rfl, hhead, hrest⟩ := map_eq_cons_iff.mp hkeys.symm
      obtain ⟨hsubset, hvalues⟩ := forall₂_cons.mp hvalues
      by_cases hkey : a.1 = key
      · have hkey' : b.1 = key := hhead.trans hkey
        simpa [hkey, hkey'] using hsubset
      · have hkey' : b.1 ≠ key := hhead ▸ hkey
        simpa [hkey, hkey'] using ih hrest.symm hvalues

theorem MapBelow.summaryOf_subset (h : MapBelow x y) (path : Path) :
    summaryOf x path ⊆ summaryOf y path :=
  find_subset h.1 h.2 path _

theorem mem_nextSummaries : (nextSummaries nodes x).lookup path = (nodes.lookup path).map
    fun node => node.calls.foldl (fun effects callee => effects ∪ summaryOf x callee) node.direct :=
  lookup_mapValues ..

theorem climbs_nextSummaries (nodes : OrderedMap Path Node) :
    Climbs (nextSummaries nodes) MapBelow (fun x => size x.values)
      (nodes.entries.length * Fintype.card EffectKind)
      (nodes.mapValues fun _ node => node.direct) where
  refl x := ⟨rfl, below_refl _⟩
  trans h h' := ⟨h.1.trans h'.1, h.2.trans h'.2⟩
  mono h := mapBelow_mapValues fun _ node _ e he => by
    rw [mem_foldl_union] at he ⊢
    exact he.imp_right fun ⟨callee, hcallee, he⟩ => ⟨callee, hcallee, h.summaryOf_subset callee he⟩
  start := mapBelow_mapValues fun _ node _ e he => (mem_foldl_union ..).mpr (.inl he)
  rank_lt {x y} h hne := by
    refine h.2.size_lt fun hvalues => hne (ext_entries ?_)
    have hzip (m : OrderedMap Path EffectSet) : m.keys.zip m.values = m.entries := by
      unfold OrderedMap.keys values
      rw [← unzip_fst, ← unzip_snd, zip_unzip]
    rw [← hzip, h.1, hvalues, hzip]
  rank_le {x} h := by
    refine size_le_of_length ?_
    have hlength := h.2.length_eq
    unfold values mapValues at hlength
    rw [length_map, length_map, length_map] at hlength
    exact (length_map _).trans hlength.symm

/-- What a path contributes to its effects, given those of the paths it calls. -/
def NodeContributes (x : OrderedMap Path EffectSet) (node : Node) (e : EffectKind) : Prop :=
  e ∈ node.direct ∨ ∃ callee ∈ node.calls, e ∈ summaryOf x callee

/-- The first stage gives the least solution of the equations of the paths. -/
theorem exists_run_nextSummaries (nodes : OrderedMap Path Node) :
    ∃ x, Loop.run (round (nextSummaries nodes)) (roundsFor nodes.entries.length)
        (nodes.mapValues fun _ node => node.direct) = some x ∧
      (∀ path, (x.lookup path).isSome = (nodes.lookup path).isSome) ∧
      (∀ path node, nodes.lookup path = some node → ∀ e,
        e ∈ summaryOf x path ↔ NodeContributes x node e) ∧
      ∀ y : Path → EffectSet, (∀ path, nodes.lookup path = none → y path = {.unsafeCall}) →
        (∀ path node, nodes.lookup path = some node → ∀ e,
          e ∈ node.direct ∨ (∃ callee ∈ node.calls, e ∈ y callee) → e ∈ y path) →
        ∀ path, summaryOf x path ⊆ y path := by
  obtain ⟨x, hrun, hfixed, -, hleast⟩ := (climbs_nextSummaries nodes).run_least
    (Nat.lt_succ_self _)
  have hlookup : ∀ path, x.lookup path = (nodes.lookup path).map fun node =>
      node.calls.foldl (fun effects callee => effects ∪ summaryOf x callee) node.direct :=
    fun path => (congrArg (lookup · path) hfixed.symm).trans mem_nextSummaries
  refine ⟨x, hrun, fun path => by rw [hlookup, Option.isSome_map], fun path node hnode e => ?_,
    fun y hnone hy path => ?_⟩
  · unfold summaryOf NodeContributes
    rw [hlookup, hnode]
    exact mem_foldl_union ..
  · -- a map with the values of `y` at the paths of the nodes
    let z := nodes.mapValues fun path _ => y path
    have hz : ∀ callee, summaryOf z callee = y callee := fun callee => by
      unfold summaryOf
      rw [lookup_mapValues]
      cases hcallee : nodes.lookup callee with
      | none => exact (hnone callee hcallee).symm
      | some => rfl
    have hbelow : MapBelow x z := by
      refine hleast z (mapBelow_mapValues fun path node hnode e he =>
        hy path node hnode e (.inl he))
        (mapBelow_mapValues fun path node hnode e he => hy path node hnode e ?_)
      simpa only [mem_foldl_union, hz] using he
    exact hz path ▸ hbelow.summaryOf_subset path

end Jadren.Effects

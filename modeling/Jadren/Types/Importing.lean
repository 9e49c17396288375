import Jadren.Types.Fingerprint

/-!
# Importing types of another store

`importFrom` rebuilds a type of one store in another.  The identities differ, the term a
type stands for is the same, and with it the fingerprint.  Since a store has one
identity for each term, nothing more is needed for the rest: two types are never
imported as one, and what is imported back is the type it was (`importFrom_faithful`).
-/

namespace Jadren.Types

open Unification List TypeKind

namespace TypeStore

/-- Imports one type graph from another store, to a depth that the index of the type bounds. -/
def importFromDepth (source : TypeStore) : ℕ → TypeId → Transform TypeId
  | 0, ty => throw (.invalidType ty)
  | depth + 1, ty =>
      match source.kind ty with
      | none => throw (.invalidType ty)
      | some kind => do
          let children ← kind.children.mapM (source.importFromDepth depth)
          interning (kind.rebuild children)

/-- Imports one type graph from another semantic store while preserving nominal identities and
rebuilding all structural children locally. -/
def importFrom (source : TypeStore) (ty : TypeId) : Transform TypeId :=
  source.importFromDepth (ty.index + 1) ty

/-- In the store `target` the computation gives `a` and leaves the store `after`. -/
def Gives {α : Type} (call : Transform α) (target : TypeStore) (a : α) (after : TypeStore) : Prop :=
  call.run.run target = (.ok a, after)

section

variable {α β : Type} {target middle after : TypeStore}

theorem gives_pure (a : α) : Gives (pure a) target a target := rfl

variable {call : Transform α}

theorem Gives.bind {next : α → Transform β} {a : α} {b : β} (h : Gives call target a middle)
    (h' : Gives (next a) middle b after) : Gives (call >>= next) target b after := by
  unfold Gives at h ⊢
  rw [ExceptT.run_bind, StateT.run_bind, h]
  exact h'

theorem gives_interning (kind : TypeKind) :
    Gives (interning kind : Transform TypeId) target (target.intern kind).1
      (target.intern kind).2 :=
  rfl

theorem Gives.unique {a b : α} {after' : TypeStore} (h : Gives call target a after)
    (h' : Gives call target b after') : a = b ∧ after = after' := by
  obtain ⟨hvalue, hafter⟩ := Prod.mk.inj (h.symm.trans h')
  exact ⟨Except.ok.inj hvalue, hafter⟩

end

variable {source target after first second : TypeStore}

/-! ## What an import gives -/

/-- What types are imported as: the store is built by interning, holds what was there, and the
types that are new in it stand for the terms that the imported types stand for. -/
structure Imported (source target : TypeStore) (types ids : List TypeId) (after : TypeStore) :
    Prop where
  reachable : after.Reachable
  extends_target : target.Extends after
  has : ∀ id ∈ ids, after.Has id
  terms : ids.map after.term = types.map source.term

variable {types ids : List TypeId}

theorem Imported.length_eq (h : Imported source target types ids after) :
    ids.length = types.length := by
  simpa using congrArg length h.terms

variable {call : TypeId → Transform TypeId}

/-- Lists are imported element by element if each element can be imported into every store. -/
theorem exists_mapM_gives
    (hcall : ∀ ty ∈ types, ∀ target : TypeStore, target.Reachable →
      ∃ id after, Gives (call ty) target id after ∧ Imported source target [ty] [id] after)
    (reachable : target.Reachable) :
    ∃ ids after, Gives (types.mapM call) target ids after ∧
      Imported source target types ids after := by
  induction types generalizing target with
  | nil =>
      rw [mapM_nil]
      exact ⟨[], target, gives_pure [], reachable, .refl _, nofun, rfl⟩
  | cons ty types ih =>
      obtain ⟨id, middle, hid, himported⟩ := hcall ty mem_cons_self target reachable
      obtain ⟨ids, after, hids, himported'⟩ :=
        ih (fun other hother => hcall other (mem_cons_of_mem _ hother)) himported.reachable
      have hhas := himported.has id (mem_singleton_self id)
      -- the term of the first type stays what it is while the others are imported
      have hterm : after.term id = source.term ty :=
        calc after.term id = middle.term id :=
              himported.reachable.wellFormed.term_extends himported'.reachable.wellFormed
                himported'.extends_target hhas
          _ = source.term ty := head_eq_of_cons_eq himported.terms
      refine ⟨id :: ids, after, ?_, himported'.reachable,
        himported.extends_target.trans himported'.extends_target, ?_, ?_⟩
      · rw [mapM_cons]
        exact hid.bind (hids.bind (gives_pure _))
      · exact forall_mem_cons.mpr ⟨himported'.extends_target.has hhas, himported'.has⟩
      · rw [map_cons, map_cons, hterm, himported'.terms]

variable {ty : TypeId}

/-- Interning a kind over imported types gives the type of that kind. -/
theorem Imported.intern (wf : source.WellFormed) {kind : TypeKind}
    (hkind : source.kind ty = some kind) (h : Imported source target kind.children ids after) :
    Imported source target [ty] [(after.intern (kind.rebuild ids)).1]
      (after.intern (kind.rebuild ids)).2 := by
  have hchildren : (kind.rebuild ids).children = ids := children_rebuild h.length_eq
  have hhas : ∀ child ∈ (kind.rebuild ids).children, after.Has child := hchildren.symm ▸ h.has
  obtain ⟨wfLast, hextends, hlast⟩ := h.reachable.wellFormed.intern hhas
  refine ⟨.intern h.reachable _ (hchildren.symm ▸ h.has), h.extends_target.trans hextends, ?_, ?_⟩
  · exact forall_mem_singleton.mpr ⟨_, hlast⟩
  · rw [map_singleton, map_singleton, singleton_inj]
    by_cases hvariable : ∃ v, kind = .inferenceVariable v
    · obtain ⟨v, rfl⟩ := hvariable
      obtain rfl : ids = [] := length_eq_zero_iff.mp h.length_eq
      rw [WellFormed.term_variable hkind, WellFormed.term_variable hlast]
    · have hne : ∀ v, kind ≠ .inferenceVariable v := fun v hv => hvariable ⟨v, hv⟩
      have hterms : ids.map (after.intern (kind.rebuild ids)).2.term = ids.map after.term :=
        map_congr_left fun id hid =>
          h.reachable.wellFormed.term_extends wfLast hextends (h.has id hid)
      rw [wf.term_eq hkind hne,
        wfLast.term_eq hlast (rebuild_ne_inferenceVariable hne ids),
        shape_rebuild h.length_eq, hchildren, hterms, h.terms]

/-- Every type of a store can be imported into every store. -/
theorem WellFormed.exists_importFromDepth (wf : source.WellFormed) (has : source.Has ty) :
    ∀ depth > ty.index, ∀ target : TypeStore, target.Reachable →
      ∃ id after, Gives (source.importFromDepth depth ty) target id after ∧
        Imported source target [ty] [id] after := by
  refine wf.induct (motive := fun ty => ∀ depth > ty.index, ∀ target : TypeStore,
    target.Reachable → ∃ id after, Gives (source.importFromDepth depth ty) target id after ∧
      Imported source target [ty] [id] after) ?_ has
  intro ty kind hkind ih depth hdepth target reachable
  obtain ⟨depth, rfl⟩ : ∃ n, depth = n + 1 := ⟨depth - 1, by omega⟩
  obtain ⟨ids, after, hids, himported⟩ := exists_mapM_gives
    (fun child hchild => ih child hchild depth (by
      have := wf.children_lt hkind child hchild
      omega)) reachable
  refine ⟨_, _, ?_, himported.intern wf hkind⟩
  rw [importFromDepth, hkind]
  exact hids.bind (gives_interning _)

/-! ## What is there already -/

variable {t : TypeId}

/-- Kinds of types that stand for the same term have the same shape, and their parts stand for the
same terms. -/
theorem kinds_of_term_eq (wf : first.WellFormed) (wf' : second.WellFormed) {u : TypeId}
    {kind kind' : TypeKind} (hkind : first.kind t = some kind)
    (hkind' : second.kind u = some kind') (h : first.term t = second.term u) :
    kind.shape = kind'.shape ∧ kind.children.map first.term = kind'.children.map second.term := by
  by_cases hv : ∃ v, kind = .inferenceVariable v <;> by_cases hw : ∃ w, kind' = .inferenceVariable w
  · obtain ⟨v, rfl⟩ := hv
    obtain ⟨w, rfl⟩ := hw
    rw [WellFormed.term_variable hkind, WellFormed.term_variable hkind'] at h
    rw [Term.var.inj h]
    exact ⟨rfl, rfl⟩
  · obtain ⟨v, rfl⟩ := hv
    rw [WellFormed.term_variable hkind, wf'.term_eq hkind' fun w hw' => hw ⟨w, hw'⟩] at h
    cases h
  · obtain ⟨w, rfl⟩ := hw
    rw [WellFormed.term_variable hkind', wf.term_eq hkind fun v hv' => hv ⟨v, hv'⟩] at h
    cases h
  · rw [wf.term_eq hkind fun v hv' => hv ⟨v, hv'⟩, wf'.term_eq hkind' fun w hw' => hw ⟨w, hw'⟩] at h
    exact Term.node.inj h

/-- The relation between the parts of two kinds of the same term. -/
theorem forall₂_of_map_eq {t u : List TypeId} (h : t.map first.term = u.map second.term) :
    Forall₂ (fun t u => first.term t = second.term u) t u := by
  have hall : Forall₂ (· = ·) (t.map first.term) (u.map second.term) :=
    h ▸ forall₂_same.mpr fun _ _ => rfl
  exact forall₂_map_right_iff.mp (forall₂_map_left_iff.mp hall)

theorem mapM_gives (h : Forall₂ (fun ty id => Gives (call ty) target id target) types ids) :
    Gives (types.mapM call) target ids target := by
  induction h with
  | nil =>
      rw [mapM_nil]
      exact gives_pure []
  | cons hhead _ ih =>
      rw [mapM_cons]
      exact hhead.bind (ih.bind (gives_pure _))

/-- A type whose term the store has already is imported as the type that stands for it. -/
theorem WellFormed.gives_existing (wf : source.WellFormed) (wf' : target.WellFormed)
    (has : source.Has ty) : ∀ depth > ty.index, ∀ u, target.Has u →
      SameStructure source target ty u →
        Gives (source.importFromDepth depth ty) target u target := by
  refine wf.induct (motive := fun ty => ∀ depth > ty.index, ∀ u, target.Has u →
    SameStructure source target ty u →
      Gives (source.importFromDepth depth ty) target u target) ?_ has
  intro ty kind hkind ih depth hdepth u hu hsame
  obtain ⟨depth, rfl⟩ : ∃ n, depth = n + 1 := ⟨depth - 1, by omega⟩
  obtain ⟨kind', hkind'⟩ := hu
  obtain ⟨hshape, hterms⟩ := kinds_of_term_eq wf wf' hkind hkind' hsame
  have hlength : kind'.children.length = kind.children.length :=
    (length_children_of_shape hshape).symm
  have hchildren : Gives (kind.children.mapM (source.importFromDepth depth)) target kind'.children
      target := by
    apply mapM_gives
    rw [forall₂_iff_get]
    refine ⟨hlength.symm, fun i hi hi' => ?_⟩
    have hmem := get_mem kind.children ⟨i, hi⟩
    refine ih _ hmem depth ?_ _ (wf'.has_child hkind' (get_mem _ _)) ?_
    · have := wf.children_lt hkind _ hmem
      omega
    · exact (forall₂_iff_get.mp (forall₂_of_map_eq hterms)).2 i hi hi'
  have hrebuild : kind.rebuild kind'.children = kind' :=
    calc kind.rebuild kind'.children = kind.shape.rebuild kind'.children :=
          (rebuild_shape hlength).symm
      _ = kind'.shape.rebuild kind'.children := by rw [hshape]
      _ = kind'.rebuild kind'.children := rebuild_shape rfl
      _ = kind' := kind'.rebuild_children
  have hintern : target.intern kind' = (u, target) := by
    rw [TypeStore.intern, (wf'.interned_iff kind' u).mpr hkind']
  have hlast : Gives _ target _ _ := gives_interning (kind.rebuild kind'.children)
  rw [hrebuild, hintern] at hlast
  rw [importFromDepth, hkind]
  refine hchildren.bind ?_
  rw [hrebuild]
  exact hlast

/-! ## Fingerprints -/

theorem mapM_congr_of_forall₂ {α ε : Type} {f g : TypeId → Except ε α}
    (h : Forall₂ (fun ty id => f ty = g id) types ids) : types.mapM f = ids.mapM g := by
  induction h with
  | nil => rw [mapM_nil, mapM_nil]
  | cons hhead _ ih => rw [mapM_cons, mapM_cons, hhead, ih]

/-- The words of a type, or why it has none, are those of the term. -/
theorem WellFormed.hashFrom_congr (wf : first.WellFormed) (wf' : second.WellFormed)
    (has : first.Has t) : ∀ depth > t.index, ∀ u, second.Has u → SameStructure first second t u →
      ∀ depth' > u.index, first.hashFrom depth t = second.hashFrom depth' u := by
  refine wf.induct (motive := fun t => ∀ depth > t.index, ∀ u, second.Has u →
    SameStructure first second t u →
      ∀ depth' > u.index, first.hashFrom depth t = second.hashFrom depth' u) ?_ has
  intro t kind hkind ih depth hdepth u hu hsame depth' hdepth'
  obtain ⟨depth, rfl⟩ : ∃ n, depth = n + 1 := ⟨depth - 1, by omega⟩
  obtain ⟨depth', rfl⟩ : ∃ n, depth' = n + 1 := ⟨depth' - 1, by omega⟩
  obtain ⟨kind', hkind'⟩ := hu
  obtain ⟨hshape, hterms⟩ := kinds_of_term_eq wf wf' hkind hkind' hsame
  have hwords : kind.children.mapM (first.hashFrom depth) =
      kind'.children.mapM (second.hashFrom depth') := by
    apply mapM_congr_of_forall₂
    rw [forall₂_iff_get]
    refine ⟨length_children_of_shape hshape, fun i hi hi' => ?_⟩
    have hmem := get_mem kind.children ⟨i, hi⟩
    have hmem' := get_mem kind'.children ⟨i, hi'⟩
    have hlt := wf.children_lt hkind _ hmem
    have hlt' := wf'.children_lt hkind' _ hmem'
    exact ih _ hmem depth (by omega) _ (wf'.has_child hkind' hmem')
      ((forall₂_iff_get.mp (forall₂_of_map_eq hterms)).2 i hi hi') depth' (by omega)
  have hhead : kind.head = kind'.head := by
    rw [← kind.head_shape, hshape, kind'.head_shape]
  have hopen : kind.openError = kind'.openError := by
    rw [← kind.openError_shape, hshape, kind'.openError_shape]
  rw [hashFrom, hkind, hashFrom, hkind']
  show hashKind _ kind = hashKind _ kind'
  rw [hashKind_eq, hashKind_eq, hwords, hhead, hopen]

/-- Types of the same structure have the same fingerprint, or both have none. -/
theorem stableFingerprint_congr (wf : first.WellFormed) (wf' : second.WellFormed) {u : TypeId}
    (has : first.Has t) (has' : second.Has u) (h : SameStructure first second t u) :
    first.stableFingerprint t = second.stableFingerprint u := by
  rw [stableFingerprint, stableFingerprint, hashType, hashType,
    wf.hashFrom_congr wf' has _ (Nat.lt_succ_self _) u has' h _ (Nat.lt_succ_self _)]

/-! ## Importing is faithful -/

/-- One identity for each term. -/
def Canonical (store : TypeStore) : Prop :=
  ∀ t u, store.Has t → store.Has u → SameStructure store store t u → t = u

/-- What is asked of a type that was imported. -/
structure Faithful (source target : TypeStore) (ty id : TypeId) (after : TypeStore) : Prop where
  reachable : after.Reachable
  canonical : after.Canonical
  extends_target : target.Extends after
  sameStructure : SameStructure source after ty id
  fingerprint : after.stableFingerprint id = source.stableFingerprint ty
  /-- No other type is imported as this one, in the store as it is or as it grows. -/
  injective : ∀ other later imported final, source.Has other → later.Reachable →
    after.Extends later → Gives (source.importFrom other) later imported final →
      imported = id → other = ty
  /-- The source store finds the type it had. -/
  roundTrip : Gives (after.importFrom id) source ty source

/-- **Importing is faithful**, between any two stores and for every type. -/
theorem importFrom_faithful (reachable : source.Reachable) (reachable' : target.Reachable)
    {ty : TypeId} (has : source.Has ty) :
    ∃ id after, Gives (source.importFrom ty) target id after ∧
      Faithful source target ty id after := by
  obtain ⟨id, after, hgives, himported⟩ := reachable.wellFormed.exists_importFromDepth has
    (ty.index + 1) (Nat.lt_succ_self _) target reachable'
  have hid := himported.has id (mem_singleton_self id)
  have hterm : after.term id = source.term ty := head_eq_of_cons_eq himported.terms
  have wf := himported.reachable.wellFormed
  refine ⟨id, after, hgives, himported.reachable, ?_, himported.extends_target,
    hterm.symm, ?_, ?_, ?_⟩
  · exact fun t u ht hu h => wf.eq_of_term_eq ht hu h
  · exact stableFingerprint_congr wf reachable.wellFormed hid has hterm
  · intro other later imported final hother hlater hextends hgives' heq
    obtain ⟨id', after', hgives'', himported'⟩ := reachable.wellFormed.exists_importFromDepth hother
      (other.index + 1) (Nat.lt_succ_self _) later hlater
    obtain ⟨rfl, rfl⟩ := hgives'.unique hgives''
    subst heq
    -- both types stand for what the one identity stands for in the last store
    have hall : source.term other = source.term ty :=
      calc source.term other = final.term imported :=
            (head_eq_of_cons_eq himported'.terms).symm
        _ = after.term imported := wf.term_extends himported'.reachable.wellFormed
            (hextends.trans himported'.extends_target) hid
        _ = source.term ty := hterm
    exact reachable.wellFormed.eq_of_term_eq hother has hall
  · exact wf.gives_existing reachable.wellFormed hid _ (Nat.lt_succ_self _) ty has hterm

/-- An option is imported into a store that does not have it. -/
theorem importFrom_faithful_withOption :
    ∃ id after, Gives (withOption.importFrom ⟨24⟩) new id after ∧
      Faithful withOption new ⟨24⟩ id after :=
  importFrom_faithful reachable_withOption .new (has_of_lt (by decide))

end TypeStore

end Jadren.Types

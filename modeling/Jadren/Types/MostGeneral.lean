import Jadren.Types.Solutions

/-!
# Unification computes most general unifiers

Following the bindings of a reachable context to the end gives the substitution that
`resolve_deep` applies (`exists_resolveDeep`), so after a successful `unify` the two
types and the result resolve to one type, and the substitution is the most general one
(`unify_mostGeneral`).  That no Error and no Never is met matters: Never unifies with
every type without becoming equal to it.
-/

namespace Jadren.Types

open Unification Inference List TypeStore.WellFormed

namespace InferenceContext

theorem wellFormed_new : WellFormed .new := by
  refine ⟨TypeStore.wellFormed_new, ⟨.error, by decide⟩, fun h => ?_, ⟨fun var => ⟨_, ?_⟩⟩⟩
  · simp [binding, new] at h
  · intro w hw
    obtain ⟨t, ht, -⟩ := hw
    simp [bindings, binding, new] at ht

variable {context after : InferenceContext}

theorem binding_unallocated (context : InferenceContext) (var : TypeVariableId) :
    binding { context with table := ⟨context.table.bindings ++ [none]⟩ } var =
      context.binding var := by
  unfold binding
  rcases Nat.lt_trichotomy var.index context.table.bindings.length with hlt | heq | hgt
  · rw [getElem?_append_left hlt]
  · simp [heq]
  · rw [getElem?_eq_none (by simp only [length_append, length_singleton]; omega),
      getElem?_eq_none (by omega)]

/-- A fresh variable is unbound, and so changes nothing. -/
theorem WellFormed.fresh (wf : context.WellFormed) : context.fresh.2.WellFormed := by
  have hbindings : bindings { context with table := ⟨context.table.bindings ++ [none]⟩ } =
      context.bindings := by
    funext var
    rw [bindings, binding_unallocated]
    rfl
  have hgrown : WellFormed { context with table := ⟨context.table.bindings ++ [none]⟩ } := by
    refine ⟨wf.store, wf.error, fun hbinding => ?_, ?_⟩
    · rw [binding_unallocated] at hbinding
      exact wf.bound hbinding
    · rw [hbindings]
      exact wf.triangular
  exact (hgrown.intern (by simp [TypeKind.children])).1

/-! ## Resolving -/

/-- More types, the same bindings. -/
structure Extended (context after : InferenceContext) : Prop where
  wellFormed : after.WellFormed
  store : context.store.Extends after.store
  table : after.table = context.table

theorem Extended.trans {middle : InferenceContext} (h : context.Extended middle)
    (h' : middle.Extended after) : context.Extended after :=
  ⟨h'.wellFormed, h.store.trans h'.store, h'.table.trans h.table⟩

theorem Extended.binding (h : context.Extended after) (var : TypeVariableId) :
    after.binding var = context.binding var := by
  rw [InferenceContext.binding, h.table]
  rfl

theorem Extended.bindings (wf : context.WellFormed) (h : context.Extended after) :
    after.bindings = context.bindings := by
  funext var
  rw [InferenceContext.bindings, InferenceContext.bindings, h.binding]
  cases hbinding : context.binding var with
  | none => rfl
  | some =>
      exact congrArg some (wf.store.term_extends h.wellFormed.store h.store (wf.bound hbinding))

theorem Extended.grows (h : context.Extended after) : context.Grows after :=
  ⟨h.store, fun hbinding => by rwa [h.binding]⟩

variable {ty : TypeId}

/-- Following bindings ends, after as many steps in every extension. -/
theorem WellFormed.exists_resolveShallow (wf : context.WellFormed) (hty : context.store.Has ty) :
    ∃ enough last, ∀ after, context.Extended after →
      ∀ fuel ≥ enough, after.resolveShallow fuel ty = some last := by
  have hstop : ∀ {ty kind}, context.store.kind ty = some kind →
      (∀ var, kind = .inferenceVariable var → context.binding var = none) →
      ∀ after, context.Extended after → ∀ fuel ≥ 1, after.resolveShallow fuel ty = some ty := by
    intro ty kind hkind hunbound after extended fuel hfuel
    obtain ⟨fuel, rfl⟩ := Nat.exists_eq_add_of_le' hfuel
    rw [resolveShallow, extended.store ty kind hkind]
    cases kind with
    | inferenceVariable var => simp [extended.binding, hunbound var rfl]
    | _ => rfl
  have hvariable : ∀ {var ty}, context.store.kind ty = some (.inferenceVariable var) →
      ∃ enough last, ∀ after, context.Extended after →
        ∀ fuel ≥ enough, after.resolveShallow fuel ty = some last := by
    intro var
    -- a variable leads only to later ones: the bindings are triangular
    induction var using wf.triangular.induction with
    | _ var ih =>
        intro ty hkind
        cases hbinding : context.binding var with
        | none =>
            refine ⟨1, ty, hstop hkind fun other hother => ?_⟩
            cases hother
            exact hbinding
        | some bound =>
            have hne : bound ≠ ty := fun heq => wf.binding_ne hkind (heq ▸ hbinding)
            obtain ⟨enough, last, hlast⟩ : ∃ enough last, ∀ after, context.Extended after →
                ∀ fuel ≥ enough, after.resolveShallow fuel bound = some last := by
              obtain ⟨kind, hbound⟩ := wf.bound hbinding
              by_cases hother : ∃ other, kind = .inferenceVariable other
              · obtain ⟨other, rfl⟩ := hother
                refine ih other ⟨_, bindings_eq_some.mpr ⟨bound, hbinding, rfl⟩, ?_⟩ hbound
                rw [term_variable hbound]
                exact .here
              · exact ⟨1, bound, hstop hbound fun other heq => absurd ⟨other, heq⟩ hother⟩
            refine ⟨enough + 1, last, fun after extended fuel hfuel => ?_⟩
            obtain ⟨fuel, rfl⟩ := Nat.exists_eq_add_of_le' (Nat.one_le_of_lt hfuel)
            rw [resolveShallow, extended.store ty _ hkind]
            simp only [extended.binding, hbinding, if_neg hne]
            exact hlast after extended fuel (by omega)
  obtain ⟨kind, hkind⟩ := hty
  by_cases hother : ∃ var, kind = .inferenceVariable var
  · obtain ⟨var, rfl⟩ := hother
    exact hvariable hkind
  · exact ⟨1, ty, hstop hkind fun var heq => absurd ⟨var, heq⟩ hother⟩

/-- What resolving types one after the other does, whatever it returns: the context is
extended, and types that are returned are the solved ones. -/
structure Resolved (context : InferenceContext) (types : List TypeId)
    (returned : Except UnifyError (List TypeId)) (after : InferenceContext) : Prop where
  extended : context.Extended after
  found : ∀ found, returned = .ok found → (∀ ty ∈ found, after.store.Has ty) ∧
    ∀ ρ, context.bindings.SolvedBy ρ → found.map after.store.term = context.images ρ types

theorem WellFormed.extended_refl (wf : context.WellFormed) : context.Extended context :=
  ⟨wf, .refl _, rfl⟩

variable {types : List TypeId}

theorem Resolved.of_error {error : UnifyError} (h : context.Extended after) :
    context.Resolved types (.error error) after :=
  ⟨h, fun _ h => (by cases h)⟩

/-- Resolving a list resolves its members, when resolving a type does. -/
theorem resolved_mapM {resolve : TypeId → Inference TypeId}
    (hresolve : ∀ {context ty returned after}, context.WellFormed → context.store.Has ty →
      (resolve ty).Runs context returned after →
      context.Resolved [ty] (returned.map fun t => [t]) after) (wf : context.WellFormed)
    (htypes : ∀ ty ∈ types, context.store.Has ty) {returned : Except UnifyError (List TypeId)}
    (h : (types.mapM resolve).Runs context returned after) :
    context.Resolved types returned after := by
  -- each type is resolved in what resolving those before it has left
  induction types generalizing context returned with
  | nil =>
      rw [mapM_nil] at h
      obtain ⟨rfl, rfl⟩ := runs_pure.mp h
      refine ⟨wf.extended_refl, fun found hfound => ?_⟩
      cases hfound
      simp [images]
  | cons ty rest ih =>
      rw [forall_mem_cons] at htypes
      rw [mapM_cons] at h
      obtain ⟨t, middle, hfirst, h⟩ | ⟨error, hfirst, rfl⟩ := runs_bind.mp h
      · have hhead : context.Resolved [ty] (.ok [t]) middle := hresolve wf htypes.1 hfirst
        have hrest : ∀ {returned}, (rest.mapM resolve).Runs middle returned after →
            middle.Resolved rest returned after := fun hruns =>
          ih hhead.extended.wellFormed
            (fun ty hty => hhead.extended.store.has (htypes.2 ty hty)) hruns
        obtain ⟨ts, middle', hsecond, h⟩ | ⟨error, hsecond, rfl⟩ := runs_bind.mp h
        · obtain ⟨rfl, rfl⟩ := runs_pure.mp h
          have htail := hrest hsecond
          obtain ⟨hhas, himages⟩ := hhead.found [t] rfl
          obtain ⟨hhas', himages'⟩ := htail.found ts rfl
          refine ⟨hhead.extended.trans htail.extended, fun found hfound => ?_⟩
          obtain rfl : t :: ts = found := by simpa using hfound
          have ht : middle.store.Has t := hhas t (mem_singleton_self t)
          refine ⟨forall_mem_cons.mpr ⟨htail.extended.store.has ht, hhas'⟩, fun ρ hρ => ?_⟩
          have hfirst' : middle.store.term t = (context.store.term ty).subst ρ := by
            simpa [images] using himages ρ hρ
          have hsame := hhead.extended.wellFormed.store.term_extends htail.extended.wellFormed.store
            htail.extended.store ht
          have hrest' := himages' ρ (by rwa [hhead.extended.bindings wf])
          rw [wf.images_of_grows hhead.extended.wellFormed hhead.extended.grows htypes.2] at hrest'
          simp only [map_cons, images, hsame, hfirst']
          exact congrArg _ hrest'
        · exact .of_error (hhead.extended.trans (hrest hsecond).extended)
      · exact .of_error (hresolve wf htypes.1 hfirst).extended

/-- Where the parts are resolved, interning the kind rebuilt from them resolves the type. -/
theorem Resolved.intern (wf : context.WellFormed) {last : TypeId} {kind : TypeKind}
    (follows : context.Follows ty last) (hkind : context.store.kind last = some kind)
    (h : context.Resolved kind.children (.ok types) after) :
    context.Resolved [ty] (.ok [(after.intern (kind.rebuild types)).1])
      (after.intern (kind.rebuild types)).2 := by
  obtain ⟨hhas, himages⟩ := h.found types rfl
  obtain ⟨ρ, hρ⟩ := wf.triangular.exists_solvedBy
  have hlength : types.length = kind.children.length := by
    simpa [images] using congrArg length (himages ρ hρ)
  have hchildren := TypeKind.children_rebuild hlength
  obtain ⟨hwf, hgrows, -, hinterned⟩ := h.extended.wellFormed.intern
    (show ∀ child ∈ (kind.rebuild types).children, after.store.Has child by rwa [hchildren])
  refine ⟨h.extended.trans ⟨hwf, hgrows.store, rfl⟩, fun found hfound => ?_⟩
  obtain rfl : [_] = found := by simpa using hfound
  refine ⟨by simpa using ⟨_, hinterned⟩, fun ρ hρ => ?_⟩
  simp only [images, map_cons, map_nil, ← follows.image ρ hρ.satisfied]
  by_cases hvariable : ∃ var, kind = .inferenceVariable var
  · obtain ⟨var, rfl⟩ := hvariable
    have hnone : context.bindings var = none := by
      simp [bindings, follows.unbound var hkind]
    rw [term_variable hkind, Term.subst_var, hρ.of_none hnone]
    exact congrArg (fun t => [t]) (term_variable hinterned)
  · have hne : ∀ var, kind ≠ .inferenceVariable var := fun var heq => hvariable ⟨var, heq⟩
    rw [wf.image_eq hkind hne, ← himages ρ hρ,
      hwf.store.term_eq hinterned (TypeKind.rebuild_ne_inferenceVariable hne types), hchildren,
      TypeKind.shape_rebuild hlength]
    congr 2
    apply map_congr_left
    intro t ht
    exact h.extended.wellFormed.store.term_extends hwf.store hgrows.store (hhas t ht)

/-- **What resolving a type does**, whatever it returns. -/
theorem WellFormed.resolved (wf : context.WellFormed) {fuel : ℕ} (hty : context.store.Has ty)
    {returned : Except UnifyError TypeId}
    (h : (Inference.resolveDeep fuel ty).Runs context returned after) :
    context.Resolved [ty] (returned.map fun t => [t]) after := by
  induction fuel generalizing context ty returned after with
  | zero =>
      obtain ⟨answer, hnone, -⟩ := runs_ask.mp h
      cases hnone
  | succ fuel ih =>
      rw [Inference.resolveDeep] at h
      obtain ⟨last, hlast, h⟩ := runs_ask_bind h
      have follows := wf.follows hty hlast
      obtain ⟨kind, hkind, h⟩ | ⟨error, rfl, rfl⟩ := runs_kindOf_bind h
      · rw [resolveKind_eq] at h
        simp only [bind_assoc, pure_bind] at h
        have hlist : ∀ {returned after},
            (kind.children.mapM (Inference.resolveDeep fuel)).Runs context
            returned after → context.Resolved kind.children returned after :=
          resolved_mapM (fun wf hty hruns => ih wf hty hruns) wf
            fun child hchild => wf.store.has_child hkind hchild
        obtain ⟨types, middle, hruns, h⟩ | ⟨error, hruns, rfl⟩ := runs_bind.mp h
        · obtain ⟨rfl, rfl⟩ := runs_interning.mp h
          exact (hlist hruns).intern wf follows hkind
        · exact .of_error (hlist hruns).extended
      · exact .of_error wf.extended_refl

/-- Resolving ends, after as many steps in every extension. -/
def ResolveEnds (context : InferenceContext) (ty : TypeId) : Prop :=
  ∃ enough, ∀ middle, context.Extended middle → ∀ fuel ≥ enough,
    ∃ t after, (Inference.resolveDeep fuel ty).Runs middle (.ok t) after

theorem exists_mapM_resolveDeep (htypes : ∀ ty ∈ types, context.store.Has ty)
    (hends : ∀ ty ∈ types, context.ResolveEnds ty) :
    ∃ enough, ∀ middle, context.Extended middle → ∀ fuel ≥ enough, ∃ found after,
      (types.mapM (Inference.resolveDeep fuel)).Runs middle (.ok found) after := by
  induction types with
  | nil =>
      refine ⟨0, fun middle _ fuel _ => ⟨[], middle, ?_⟩⟩
      rw [mapM_nil]
      exact runs_pure.mpr ⟨rfl, rfl⟩
  | cons ty rest ih =>
      rw [forall_mem_cons] at htypes hends
      obtain ⟨enough, hhead⟩ := hends.1
      obtain ⟨enough', htail⟩ := ih htypes.2 hends.2
      refine ⟨max enough enough', fun middle extended fuel hfuel => ?_⟩
      obtain ⟨t, next, hfirst⟩ := hhead middle extended fuel (le_trans (le_max_left ..) hfuel)
      have hresolved := extended.wellFormed.resolved (extended.store.has htypes.1) hfirst
      obtain ⟨found, after, hsecond⟩ := htail next (extended.trans hresolved.extended) fuel
        (le_trans (le_max_right ..) hfuel)
      refine ⟨t :: found, after, ?_⟩
      rw [mapM_cons]
      refine runs_bind.mpr (.inl ⟨t, next, hfirst, ?_⟩)
      refine runs_bind.mpr (.inl ⟨found, after, hsecond, ?_⟩)
      exact runs_pure.mpr ⟨rfl, rfl⟩

/-- Resolving ends for a type when it does for the parts of the type its bindings lead to. -/
theorem ResolveEnds.of_parts (wf : context.WellFormed) {last : TypeId} {kind : TypeKind}
    {steps : ℕ}
    (hlast : ∀ after, context.Extended after → ∀ fuel ≥ steps,
      after.resolveShallow fuel ty = some last) (hkind : context.store.kind last = some kind)
    (hparts : ∀ child ∈ kind.children, context.ResolveEnds child) : context.ResolveEnds ty := by
  obtain ⟨enough, hends⟩ := exists_mapM_resolveDeep
    (fun child hchild => wf.store.has_child hkind hchild) hparts
  refine ⟨max steps enough + 1, fun middle extended fuel hfuel => ?_⟩
  obtain ⟨fuel, rfl⟩ := Nat.exists_eq_add_of_le' (Nat.one_le_of_lt hfuel)
  have hle : max steps enough ≤ fuel := Nat.le_of_succ_le_succ hfuel
  obtain ⟨found, after, hfound⟩ := hends middle extended fuel (le_trans (le_max_right ..) hle)
  refine ⟨(after.intern (kind.rebuild found)).1, (after.intern (kind.rebuild found)).2, ?_⟩
  rw [Inference.resolveDeep]
  have hshallow := hlast middle extended fuel (le_trans (le_max_left ..) hle)
  refine runs_bind.mpr (.inl ⟨last, middle,
    runs_ask.mpr ⟨last, hshallow, rfl, rfl⟩, ?_⟩)
  refine runs_bind.mpr (.inl ⟨kind, middle,
    kindOf_runs (extended.store last kind hkind), ?_⟩)
  rw [resolveKind_eq]
  simp only [bind_assoc, pure_bind]
  refine runs_bind.mpr (.inl ⟨found, after, hfound, ?_⟩)
  exact runs_interning.mpr ⟨rfl, rfl⟩

/-- **Resolving ends**: the solved type gets smaller from a type to its parts. -/
theorem WellFormed.resolveEnds (wf : context.WellFormed) (hty : context.store.Has ty) :
    context.ResolveEnds ty := by
  obtain ⟨ρ, hρ⟩ := wf.triangular.exists_solvedBy
  have hstep : ∀ {ty}, context.store.Has ty → ∃ kind : TypeKind, (∀ child ∈ kind.children,
      context.store.Has child) ∧ (kind.children = [] ∨ (context.store.term ty).subst ρ =
        .node kind.shape (context.images ρ kind.children)) ∧
      ((∀ child ∈ kind.children, context.ResolveEnds child) → context.ResolveEnds ty) := by
    intro ty hty
    obtain ⟨steps, last, hlast⟩ := wf.exists_resolveShallow hty
    have follows := wf.follows hty (hlast context wf.extended_refl steps le_rfl)
    obtain ⟨kind, hkind⟩ := follows.has
    refine ⟨kind, fun child hchild => wf.store.has_child hkind hchild, ?_,
      ResolveEnds.of_parts wf hlast hkind⟩
    by_cases hvariable : ∃ var, kind = .inferenceVariable var
    · obtain ⟨var, rfl⟩ := hvariable
      exact .inl rfl
    · rw [← follows.image ρ hρ.satisfied]
      exact .inr (wf.image_eq hkind (fun var heq => hvariable ⟨var, heq⟩) ρ)
  generalize hsolved : (context.store.term ty).subst ρ = solved
  induction solved generalizing ty with
  | var =>
      obtain ⟨kind, -, hnone | hnode, hends⟩ := hstep hty
      · exact hends (by simp [hnone])
      · rw [hsolved] at hnode
        cases hnode
  | node symbol children ih =>
      obtain ⟨kind, hhas, hnone | hnode, hends⟩ := hstep hty
      · exact hends (by simp [hnone])
      · obtain ⟨-, rfl⟩ := Term.node.inj (hsolved.symm.trans hnode)
        exact hends fun child hchild =>
          ih _ (mem_map_of_mem hchild) (hhas child hchild) rfl

/-- The types resolve, one after the other, to one type. -/
def SameType (context : InferenceContext) (types : List TypeId) : Prop :=
  ∃ enough, ∀ fuel ≥ enough, ∃ t after,
    (types.mapM (Inference.resolveDeep fuel)).Runs context (.ok (types.map fun _ => t)) after

variable {ρ : TypeVariableId → Term TypeKind TypeVariableId}

/-- Types whose solved terms are equal resolve to one type. -/
theorem WellFormed.sameType (wf : context.WellFormed) (hρ : context.bindings.SolvedBy ρ)
    (htypes : ∀ ty ∈ types, context.store.Has ty) (solved : Term TypeKind TypeVariableId)
    (h : ∀ ty ∈ types, (context.store.term ty).subst ρ = solved) : context.SameType types := by
  obtain ⟨enough, hends⟩ := exists_mapM_resolveDeep htypes
    fun ty hty => wf.resolveEnds (htypes ty hty)
  refine ⟨enough, fun fuel hfuel => ?_⟩
  obtain ⟨found, after, hruns⟩ := hends context wf.extended_refl fuel hfuel
  have hresolved := resolved_mapM (fun wf hty hruns => wf.resolved hty hruns) wf htypes hruns
  obtain ⟨hhas, himages⟩ := hresolved.found found rfl
  have hterms : found.map after.store.term = types.map fun _ => solved := by
    rw [himages ρ hρ]
    exact map_congr_left h
  have hlength : found.length = types.length := by simpa using congrArg length hterms
  have hall : ∀ t ∈ found, after.store.term t = solved := by
    intro t ht
    have hmem : after.store.term t ∈ types.map fun _ => solved := hterms ▸ mem_map_of_mem ht
    obtain ⟨_, -, heq⟩ := mem_map.mp hmem
    exact heq.symm
  cases found with
  | nil =>
      obtain rfl : types = [] := length_eq_zero_iff.mp hlength.symm
      exact ⟨⟨0⟩, after, hruns⟩
  | cons t rest =>
      refine ⟨t, after, ?_⟩
      have hfound : t :: rest = types.map fun _ => t := by
        rw [map_const', ← hlength]
        apply eq_replicate_of_mem
        intro other hother
        have hterm := (hall other hother).trans (hall t (mem_cons_self ..)).symm
        exact hresolved.extended.wellFormed.store.eq_of_term_eq (hhas other hother)
          (hhas t (mem_cons_self ..)) hterm
      rwa [← hfound]

/-- Resolving a type gives the type that the substitution makes of it. -/
def ResolvesBy (context : InferenceContext) (ρ : TypeVariableId → Term TypeKind TypeVariableId) :
    Prop :=
  ∀ ty, context.store.Has ty → ∃ enough, ∀ fuel ≥ enough, ∃ t after,
    (Inference.resolveDeep fuel ty).Runs context (.ok t) after ∧
      after.store.term t = (context.store.term ty).subst ρ

theorem WellFormed.resolvesBy (wf : context.WellFormed) (hρ : context.bindings.SolvedBy ρ) :
    context.ResolvesBy ρ := by
  intro ty hty
  obtain ⟨enough, hends⟩ := wf.resolveEnds hty
  refine ⟨enough, fun fuel hfuel => ?_⟩
  obtain ⟨t, after, hruns⟩ := hends context wf.extended_refl fuel hfuel
  refine ⟨t, after, hruns, ?_⟩
  simpa [images] using ((wf.resolved hty hruns).found [t] rfl).2 ρ hρ

/-- The contexts that creating a store and a table, interning kinds of types of the store,
making variables, unifying and resolving lead to. -/
inductive Reachable : InferenceContext → Prop
  | new : Reachable .new
  | intern {context : InferenceContext} (h : Reachable context) (kind : TypeKind)
      (children : ∀ child ∈ kind.children, context.store.Has child) :
      Reachable (context.intern kind).2
  | fresh {context : InferenceContext} (h : Reachable context) : Reachable context.fresh.2
  | unify {context after : InferenceContext} (h : Reachable context) {fuel : ℕ}
      {left right : TypeId} (left_has : context.store.Has left)
      (right_has : context.store.Has right) {returned : Except UnifyError TypeId}
      (runs : (Inference.unify fuel left right).Runs context returned after) : Reachable after
  | resolveDeep {context after : InferenceContext} (h : Reachable context) {fuel : ℕ} {ty : TypeId}
      (has : context.store.Has ty) {returned : Except UnifyError TypeId}
      (runs : (Inference.resolveDeep fuel ty).Runs context returned after) : Reachable after

/-- Bindings stay acyclic whatever is unified, also where unifying fails half-way. -/
theorem Reachable.wellFormed (h : context.Reachable) : context.WellFormed := by
  induction h with
  | new => exact wellFormed_new
  | intern _ kind children ih => exact (ih.intern children).1
  | fresh _ ih => exact ih.fresh
  | unify _ left_has right_has runs ih =>
      exact (unified_unify ih left_has right_has runs).wellFormed
  | resolveDeep _ has runs ih => exact (ih.resolved has runs).extended.wellFormed

/-! ## Most general unifiers -/

/-- When unifying returns a type, the two types and the result resolve to it, earlier bindings
still hold, and resolving applies the most general substitution that makes the types equal
and satisfies the earlier bindings. -/
def UnifiesMostGenerally (context : InferenceContext) (left right : TypeId) : Prop :=
  ∀ fuel result after, (Inference.unify fuel left right).Runs context (.ok result) after →
    after.SameType [left, right, result] ∧
    (∀ ty var bound, context.store.kind ty = some (.inferenceVariable var) →
      context.binding var = some bound → after.SameType [ty, bound]) ∧
    ∃ ρ, after.ResolvesBy ρ ∧ Bindings.MostGeneral
      (fun σ => context.bindings.Satisfied σ ∧
        (context.store.term left).subst σ = (context.store.term right).subst σ) ρ

/-- The types a type is built from. -/
def parts (context : InferenceContext) (ty : TypeId) : List TypeId :=
  (context.store.kind ty).elim [] TypeKind.children

/-- What a type that is a variable is bound to. -/
def boundTo (context : InferenceContext) (ty : TypeId) : Option TypeId :=
  match context.store.kind ty with
  | some (.inferenceVariable var) => context.binding var
  | _ => none

/-- The second type is a part of the first. -/
def HasPart (context : InferenceContext) (ty part : TypeId) : Prop := part ∈ context.parts ty

/-- The second type is a part of the first, or what the first is bound to. -/
def LeadsTo (context : InferenceContext) (ty next : TypeId) : Prop :=
  next ∈ context.parts ty ∨ next ∈ (context.boundTo ty).toList

/-- No chain of the relation leads from the type to Error or Never. -/
def WithoutErrorNever (context : InferenceContext) (leads : TypeId → TypeId → Prop) (ty : TypeId) :
    Prop :=
  ∀ part, Relation.ReflTransGen leads ty part →
    context.store.kind part ≠ some .error ∧ context.store.kind part ≠ some .never

/-- The types that a type without Error and Never leads to. -/
theorem WellFormed.closed_leadsTo (wf : context.WellFormed) (roots : TypeId → Prop)
    (hroots : ∀ ty, roots ty →
    context.store.Has ty ∧ context.WithoutErrorNever context.LeadsTo ty) :
    context.Closed fun ty => ∃ root, roots root ∧
    Relation.ReflTransGen context.LeadsTo root ty := by
  rintro ty ⟨root, hroot, hleads⟩
  obtain ⟨hhas, hclean⟩ := hroots root hroot
  have hty : context.store.Has ty := by
    induction hleads with
    | refl => exact hhas
    | tail _ hstep ih =>
        obtain ⟨kind, hkind⟩ := ih
        obtain hpart | hbound := hstep
        · exact wf.store.has_child hkind (by simpa [parts, hkind] using hpart)
        · rw [boundTo, hkind] at hbound
          cases kind with
          | inferenceVariable => exact wf.bound (by simpa using hbound)
          | _ => simp at hbound
  obtain ⟨kind, hkind⟩ := hty
  obtain ⟨herror, hnever⟩ := hclean ty hleads
  rw [hkind] at herror hnever
  refine ⟨kind, hkind, fun heq => herror (heq ▸ rfl), fun heq => hnever (heq ▸ rfl), ?_, ?_⟩
  · intro child hchild
    exact ⟨root, hroot, hleads.tail (.inl (by simpa [parts, hkind] using hchild))⟩
  · rintro var bound rfl hbinding
    exact ⟨root, hroot, hleads.tail (.inr (by simp [boundTo, hkind, hbinding]))⟩

/-- **Unification is sound and most general** on types that lead to no Error and no Never. -/
theorem unify_mostGeneral (reachable : context.Reachable) {left right : TypeId}
    (hleft : context.store.Has left) (hright : context.store.Has right)
    (hcleanLeft : context.WithoutErrorNever context.LeadsTo left)
    (hcleanRight : context.WithoutErrorNever context.LeadsTo right) :
    context.UnifiesMostGenerally left right := by
  intro fuel result after hruns
  have wf := reachable.wellFormed
  have h := unified_unify wf hleft hright hruns
  -- what both types lead to is free of Error and Never, so no case is cut short
  have hclosed := wf.closed_leadsTo (fun ty => ty = left ∨ ty = right) (by
    rintro ty (rfl | rfl)
    · exact ⟨hleft, hcleanLeft⟩
    · exact ⟨hright, hcleanRight⟩)
  -- the solutions of the new bindings are the unifiers that satisfy the old ones
  have hsolutions := h.solutions _ hclosed
    (forall_mem_singleton.mpr ⟨left, .inl rfl, .refl⟩)
    (forall_mem_singleton.mpr ⟨right, .inr rfl, .refl⟩) [result] rfl
  obtain ⟨ρ, hρ⟩ := h.wellFormed.triangular.exists_solvedBy
  have hsolves : context.bindings.Satisfied ρ ∧
      (context.store.term left).subst ρ = (context.store.term right).subst ρ := by
    simpa [images] using (hsolutions ρ).1.mp hρ.satisfied
  have hsame : ∀ {ty}, context.store.Has ty → after.store.term ty = context.store.term ty :=
    fun hty => wf.store.term_extends h.wellFormed.store h.grows.store hty
  refine ⟨?_, ?_, ρ, h.wellFormed.resolvesBy hρ, hsolves, fun σ hσ => ?_⟩
  · have hresult : (after.store.term result).subst ρ = (context.store.term left).subst ρ := by
      simpa [images] using (hsolutions ρ).2 hρ.satisfied
    refine h.wellFormed.sameType hρ ?_ ((context.store.term left).subst ρ) ?_
    · simp only [forall_mem_cons, not_mem_nil, false_implies, implies_true, and_true]
      exact ⟨h.grows.store.has hleft, h.grows.store.has hright, h.has [result] rfl result (by simp)⟩
    · simp only [forall_mem_cons, not_mem_nil, false_implies, implies_true, and_true]
      exact ⟨by rw [hsame hleft], by rw [hsame hright, hsolves.2], hresult⟩
  · intro ty var bound hkind hbinding
    refine h.wellFormed.sameType hρ ?_ (ρ var) ?_
    · simp only [forall_mem_cons, not_mem_nil, false_implies, implies_true, and_true]
      exact ⟨h.grows.store.has ⟨_, hkind⟩, h.grows.store.has (wf.bound hbinding)⟩
    · simp only [forall_mem_cons, not_mem_nil, false_implies, implies_true, and_true]
      rw [hsame ⟨_, hkind⟩, term_variable hkind, Term.subst_var,
        hsame (wf.bound hbinding)]
      exact ⟨rfl, (hsolves.1 var _ (bindings_eq_some.mpr ⟨bound, hbinding, rfl⟩)).symm⟩
  · have hall : after.bindings.Satisfied σ := (hsolutions σ).1.mpr ⟨hσ.1, by simp [images, hσ.2]⟩
    exact (hρ.mostGeneral h.wellFormed.triangular).factors σ hall

/-- Types none of which is Error or Never, and that lead only to each other. -/
theorem withoutErrorNever_of_mem {leads : TypeId → TypeId → Prop}
    (hleads : ∀ ty ∈ types, ∀ next, leads ty next → next ∈ types)
    (hkinds : ∀ ty ∈ types, context.store.kind ty ≠ some .error ∧
    context.store.kind ty ≠ some .never)
    (hty : ty ∈ types) : context.WithoutErrorNever leads ty := by
  intro part hpart
  apply hkinds
  induction hpart with
  | refl => exact hty
  | tail _ hstep ih => exact hleads _ ih _ hstep

/-- `fn(v0) -> v1` and `fn(Option<v1>) -> Int32`, as types 27 and 28. -/
def twoFunctions : InferenceContext :=
  let context := new.fresh.2.fresh.2
  let context := (context.intern (.option ⟨25⟩)).2
  let context := (context.intern (.function [⟨24⟩] ⟨25⟩)).2
  (context.intern (.function [⟨26⟩] context.store.core.int32)).2

theorem unify_mostGeneral_twoFunctions :
    (∃ after, (Inference.unify 6 ⟨27⟩ ⟨28⟩).Runs twoFunctions (.ok ⟨28⟩) after) ∧
      twoFunctions.UnifiesMostGenerally ⟨27⟩ ⟨28⟩ := by
  have hreachable : twoFunctions.Reachable := by
    refine .intern (.intern (.intern (.fresh (.fresh .new)) _ ?_) _ ?_) _ ?_
    all_goals exact fun child hchild => TypeStore.has_of_lt (by revert child; decide)
  have hclean : ∀ ty ∈ ([⟨24⟩, ⟨25⟩, ⟨26⟩, ⟨27⟩, ⟨28⟩, ⟨8⟩] : List TypeId),
      twoFunctions.WithoutErrorNever twoFunctions.LeadsTo ty := by
    intro ty
    apply withoutErrorNever_of_mem
    · rintro ty hty next (hnext | hnext)
      · revert ty next
        decide
      · revert ty next
        decide
    · decide
  exact ⟨⟨_, rfl⟩, unify_mostGeneral hreachable ⟨_, rfl⟩ ⟨_, rfl⟩ (hclean _ (by decide))
    (hclean _ (by decide))⟩

/-- `v0`, `Option<Never>` and `Option<Int32>`, as types 24, 25 and 26. -/
def twoOptions : InferenceContext :=
  let context := new.fresh.2
  let context := (context.intern (.option context.store.core.never)).2
  (context.intern (.option context.store.core.int32)).2

/-- `v0` is bound to `Option<Never>`. -/
def boundToNever : InferenceContext := { twoOptions with table := ⟨[some ⟨25⟩]⟩ }

/-- Unifying `v0` with `Option<Int32>` succeeds, since Never unifies with Int32, but afterwards
`v0` still resolves to `Option<Never>`. -/
theorem not_unifiesMostGenerally_boundToNever :
    boundToNever.Reachable ∧ boundToNever.store.Has ⟨24⟩ ∧ boundToNever.store.Has ⟨26⟩ ∧
      boundToNever.WithoutErrorNever boundToNever.HasPart ⟨24⟩ ∧
      boundToNever.WithoutErrorNever boundToNever.HasPart ⟨26⟩ ∧
      ¬ boundToNever.UnifiesMostGenerally ⟨24⟩ ⟨26⟩ := by
  have hreachable : twoOptions.Reachable := by
    refine .intern (.intern (.fresh .new) _ ?_) _ ?_
    all_goals exact fun child hchild => TypeStore.has_of_lt (by revert child; decide)
  have hbind : (Inference.unify 4 ⟨24⟩ ⟨25⟩).Runs twoOptions (.ok ⟨25⟩) boundToNever := by decide
  have hclean : ∀ ty ∈ ([⟨24⟩, ⟨26⟩, ⟨8⟩] : List TypeId),
      boundToNever.WithoutErrorNever boundToNever.HasPart ty := by
    intro ty
    apply withoutErrorNever_of_mem
    · show ∀ ty ∈ _, ∀ next ∈ boundToNever.parts ty, _
      decide
    · decide
  refine ⟨hreachable.unify ⟨_, rfl⟩ ⟨_, rfl⟩ hbind, ⟨_, rfl⟩, ⟨_, rfl⟩, hclean _ (by decide),
    hclean _ (by decide), fun h => ?_⟩
  have hruns : (Inference.unify 4 ⟨24⟩ ⟨26⟩).Runs boundToNever (.ok ⟨26⟩) boundToNever := by decide
  obtain ⟨⟨enough, hsame⟩, -⟩ := h _ _ _ hruns
  obtain ⟨t, after, hresolved⟩ := hsame (enough + 5) (Nat.le_add_right ..)
  have hactual : ([⟨24⟩, ⟨26⟩, ⟨26⟩].mapM (Inference.resolveDeep (enough + 5))).Runs boundToNever
      (.ok [⟨25⟩, ⟨26⟩, ⟨26⟩]) boundToNever := rfl
  cases hresolved.symm.trans hactual

end InferenceContext

end Jadren.Types

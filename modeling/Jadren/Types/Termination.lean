import Jadren.Library.Acyclic
import Jadren.Types.MostGeneral

/-!
# Resolving and unifying end

Bindings stay acyclic whatever is unified, so each operation on an inference context ends
(`terminates_of_driven`).  Following bindings goes down the bindings; looking into a type
goes down the term that solves it.  Unifying changes the bindings between one part and the
next, and the solved terms with them, but then one more variable is bound.  So a call ends
by induction on the number of unbound variables and, among calls with the same bindings,
on the solved term.
-/

namespace Jadren.Types

open Unification Inference Option List

namespace InferenceContext

variable {context middle after : InferenceContext}

/-- How many variables have no binding. -/
def unbound (context : InferenceContext) : ℕ := context.table.bindings.countP isNone

/-- A context that calls of `unify` may leave: either no variable was bound, or fewer are
unbound. -/
structure Later (context after : InferenceContext) : Prop where
  wellFormed : after.WellFormed
  store : context.store.Extends after.store
  table : after.table = context.table ∨ after.unbound < context.unbound

theorem WellFormed.later_refl (wf : context.WellFormed) : context.Later context :=
  ⟨wf, .refl _, .inl rfl⟩

theorem Later.trans (h : context.Later middle) (h' : middle.Later after) : context.Later after := by
  refine ⟨h'.wellFormed, h.store.trans h'.store, ?_⟩
  obtain htable | hlt := h.table
  · rw [← htable, unbound, unbound, ← htable]
    exact h'.table
  · right
    obtain htable' | hlt' := h'.table
    · rwa [unbound, htable']
    · exact hlt'.trans hlt

variable {kind : TypeKind}

theorem Later.intern (h : context.Later after)
    (hchildren : ∀ child ∈ kind.children, after.store.Has child) :
    context.Later (after.intern kind).2 :=
  h.trans ⟨(h.wellFormed.intern hchildren).1, (h.wellFormed.intern hchildren).2.1.store, .inl rfl⟩

variable {var : TypeVariableId} {ty : TypeId}

/-- Binding an unbound variable leaves one variable less. -/
theorem unbound_set (hunbound : context.binding var = none)
    (hlt : var.index < context.table.bindings.length) :
    unbound { context with table := ⟨context.table.bindings.set var.index (some ty)⟩ } <
      context.unbound := by
  have hnone : context.table.bindings[var.index] = none := by
    rw [binding, getElem?_eq_getElem hlt] at hunbound
    simpa using hunbound
  have hpos : 0 < context.table.bindings.countP isNone := by
    rw [countP_pos_iff]
    exact ⟨none, hnone ▸ getElem_mem hlt, rfl⟩
  simp only [unbound, countP_set hlt, hnone, isNone_none, isNone_some]
  simp only [if_true, Bool.false_eq_true, if_false]
  omega

variable {fuel : ℕ}

/-- Binding a variable, if it succeeds, leaves a later context. -/
theorem WellFormed.later_bind (wf : context.WellFormed) (hty : context.store.Has ty)
    (hunbound : context.binding var = none) {returned : Except UnifyError Unit}
    (h : (Inference.bind fuel var ty).Runs context returned after) : context.Later after := by
  obtain ⟨error, -, rfl⟩ | ⟨-, hoccurs, hlt, rfl⟩ := runs_bindVariable h
  · exact wf.later_refl
  · exact ⟨(wf.binds hty hunbound hoccurs hlt).wellFormed, .refl _,
      .inr (unbound_set hunbound hlt)⟩

variable {lefts rights : List TypeId}

/-- Unifying lists leaves a later context if unifying two types does. -/
theorem later_unifyLists {unify : TypeId → TypeId → Inference TypeId}
    (hunify : ∀ {context after : InferenceContext} {left right returned}, context.WellFormed →
      context.store.Has left → context.store.Has right →
      (unify left right).Runs context returned after → context.Later after)
    (wf : context.WellFormed) (hlefts : ∀ ty ∈ lefts, context.store.Has ty)
    (hrights : ∀ ty ∈ rights, context.store.Has ty) {returned : Except UnifyError (List TypeId)}
    (h : (unifyLists unify lefts rights).Runs context returned after) :
    context.Later after := by
  induction lefts generalizing rights context returned with
  | nil =>
      obtain ⟨-, rfl⟩ := runs_pure.mp h
      exact wf.later_refl
  | cons left lefts ih =>
      cases rights with
      | nil =>
          obtain ⟨-, rfl⟩ := runs_pure.mp h
          exact wf.later_refl
      | cons =>
          rw [forall_mem_cons] at hlefts hrights
          obtain ⟨type, middle, hfirst, h⟩ | ⟨error, hfirst, -⟩ := runs_bind.mp h
          · have hlater := hunify wf hlefts.1 hrights.1 hfirst
            refine hlater.trans ?_
            obtain ⟨types, last, hrest, h⟩ | ⟨error, hrest, -⟩ := runs_bind.mp h
            · obtain ⟨-, rfl⟩ := runs_pure.mp h
              exact ih hlater.wellFormed (fun ty hty => hlater.store.has (hlefts.2 ty hty))
                (fun ty hty => hlater.store.has (hrights.2 ty hty)) hrest
            · exact ih hlater.wellFormed (fun ty hty => hlater.store.has (hlefts.2 ty hty))
                (fun ty hty => hlater.store.has (hrights.2 ty hty)) hrest
          · exact hunify wf hlefts.1 hrights.1 hfirst

variable {left right : TypeId} {returned : Except UnifyError TypeId}

/-- What unifying leaves, whatever it returns, is a later context. -/
theorem later_unify (wf : context.WellFormed) (hleft : context.store.Has left)
    (hright : context.store.Has right)
    (h : (Inference.unify fuel left right).Runs context returned after) : context.Later after := by
  induction fuel generalizing context left right returned after with
  | zero =>
      obtain ⟨answer, hnone, -⟩ := runs_ask.mp h
      cases hnone
  | succ fuel ih =>
      obtain ⟨left', right', hleft', hright', h⟩ := runs_unify h
      have hl := wf.follows hleft hleft'
      have hr := wf.follows hright hright'
      obtain ⟨-, -, rfl⟩ | ⟨error, -, rfl⟩ | ⟨leftKind, rightKind, hlk, hrk, h⟩ := h
      · exact wf.later_refl
      · exact wf.later_refl
      · have hkinds := kindsUnify (Inference.unify fuel) (Inference.bind fuel) left' right'
          leftKind rightKind
        generalize unifyKinds (Inference.unify fuel) (Inference.bind fuel) left' right'
          leftKind rightKind = call at hkinds h
        -- only a binding and the parts change anything
        cases hkinds with
        | error =>
            have hreturns := runs_get_bind h
            obtain ⟨-, rfl⟩ := runs_pure.mp hreturns
            exact wf.later_refl
        | neverLeft | neverRight =>
            obtain ⟨-, rfl⟩ := runs_pure.mp h
            exact wf.later_refl
        | mismatch =>
            obtain ⟨-, rfl⟩ := runs_throw.mp h
            exact wf.later_refl
        | bindLeft =>
            obtain ⟨_, middle, hbind, h⟩ | ⟨error, hbind, -⟩ := runs_bind.mp h
            · obtain ⟨-, rfl⟩ := runs_pure.mp h
              exact wf.later_bind hr.has (hl.unbound _ hlk) hbind
            · exact wf.later_bind hr.has (hl.unbound _ hlk) hbind
        | bindRight =>
            obtain ⟨_, middle, hbind, h⟩ | ⟨error, hbind, -⟩ := runs_bind.mp h
            · obtain ⟨-, rfl⟩ := runs_pure.mp h
              exact wf.later_bind hl.has (hr.unbound _ hrk) hbind
            · exact wf.later_bind hl.has (hr.unbound _ hrk) hbind
        | parts left_ne right_ne shape =>
            have hlength := TypeKind.length_children_of_shape shape
            have hlefts : ∀ ty ∈ leftKind.children, context.store.Has ty :=
              fun ty hty => wf.store.has_child hlk hty
            have hrights : ∀ ty ∈ rightKind.children, context.store.Has ty :=
              fun ty hty => wf.store.has_child hrk hty
            obtain ⟨types, middle, hruns, h⟩ | ⟨error, hruns, -⟩ := runs_bind.mp h
            · obtain ⟨-, rfl⟩ := runs_interning.mp h
              have hunified := unified_unifyLists (fun wf hl hr h => unified_unify wf hl hr h) wf
                hlength hlefts hrights hruns
              refine (later_unifyLists ih wf hlefts hrights hruns).intern ?_
              rw [TypeKind.children_rebuild (length_unifyLists hlength hruns)]
              exact hunified.has types rfl
            · exact later_unifyLists ih wf hlefts hrights hruns

/-! ## Looking into a type -/

/-- Every type of a context leads, by its bindings, to a type that is no bound variable, and the
types that one is built from solve to smaller terms. -/
theorem WellFormed.exists_last (wf : context.WellFormed)
    {ρ : TypeVariableId → Term TypeKind TypeVariableId} (hρ : context.bindings.SolvedBy ρ)
    (hty : context.store.Has ty) :
    ∃ steps last kind, (∀ fuel ≥ steps, context.resolveShallow fuel ty = some last) ∧
      context.store.kind last = some kind ∧
      (kind.children = [] ∨
        (context.store.term ty).subst ρ = .node kind.shape (context.images ρ kind.children)) := by
  obtain ⟨steps, last, hlast⟩ := wf.exists_resolveShallow hty
  have follows := wf.follows hty (hlast context wf.extended_refl steps le_rfl)
  obtain ⟨kind, hkind⟩ := follows.has
  refine ⟨steps, last, kind, hlast context wf.extended_refl, hkind, ?_⟩
  by_cases hvariable : ∃ var, kind = .inferenceVariable var
  · obtain ⟨var, rfl⟩ := hvariable
    exact .inl rfl
  · rw [← follows.image ρ hρ.satisfied]
    exact .inr (wf.image_eq hkind (fun var heq => hvariable ⟨var, heq⟩) ρ)

/-- A question to a context is answered with enough fuel. -/
def Answers {α : Type} (query : ℕ → Option α) : Prop :=
  ∃ enough answer, ∀ fuel ≥ enough, query fuel = some answer

theorem answers_anyM {query : ℕ → TypeId → Option Bool} {types : List TypeId}
    (h : ∀ ty ∈ types, Answers fun fuel => query fuel ty) :
    Answers fun fuel => types.anyM (query fuel) := by
  induction types with
  | nil => exact ⟨0, false, fun _ _ => rfl⟩
  | cons ty types ih =>
      rw [forall_mem_cons] at h
      obtain ⟨enough, answer, hhead⟩ := h.1
      obtain ⟨enough', answer', htail⟩ := ih h.2
      refine ⟨max enough enough', if answer then true else answer', fun fuel hfuel => ?_⟩
      simp only [anyM, hhead fuel (le_trans (le_max_left ..) hfuel), bind_eq_bind,
        bind_some]
      cases answer with
      | true => rfl
      | false => exact htail fuel (le_trans (le_max_right ..) hfuel)

/-- The search for a variable ends: the solved type gets smaller from a type to its parts. -/
theorem WellFormed.answers_occurs (wf : context.WellFormed) (var : TypeVariableId)
    (hty : context.store.Has ty) : Answers fun fuel => context.occurs var fuel ty := by
  obtain ⟨ρ, hρ⟩ := wf.triangular.exists_solvedBy
  have hstep : ∀ {ty steps last kind},
      (∀ fuel ≥ steps, context.resolveShallow fuel ty = some last) →
      context.store.kind last = some kind →
      (∀ child ∈ kind.children, Answers fun fuel => context.occurs var fuel child) →
      Answers fun fuel => context.occurs var fuel ty := by
    intro ty steps last kind hlast hkind hparts
    obtain ⟨enough, answer, hanswer⟩ := answers_anyM hparts
    obtain ⟨found, hfound⟩ : ∃ found, ∀ fuel ≥ max steps enough,
        context.occurs var (fuel + 1) ty = some found := by
      by_cases hvariable : ∃ other, kind = .inferenceVariable other
      · obtain ⟨other, rfl⟩ := hvariable
        refine ⟨other == var, fun fuel hfuel => ?_⟩
        rw [occurs_eq, hlast fuel (le_trans (le_max_left ..) hfuel), bind_some, hkind]
      · refine ⟨answer, fun fuel hfuel => ?_⟩
        rw [occurs_eq, hlast fuel (le_trans (le_max_left ..) hfuel), bind_some, hkind]
        cases kind with
        | inferenceVariable other => exact absurd ⟨other, rfl⟩ hvariable
        | _ => exact hanswer fuel (le_trans (le_max_right ..) hfuel)
    refine ⟨max steps enough + 1, found, fun fuel hfuel => ?_⟩
    obtain ⟨fuel, rfl⟩ := Nat.exists_eq_add_of_le' (Nat.one_le_of_lt hfuel)
    exact hfound fuel (Nat.le_of_succ_le_succ hfuel)
  generalize hsolved : (context.store.term ty).subst ρ = solved
  induction solved generalizing ty with
  | var =>
      obtain ⟨steps, last, kind, hlast, hkind, hnone | hnode⟩ := wf.exists_last hρ hty
      · exact hstep hlast hkind (by simp [hnone])
      · rw [hsolved] at hnode
        cases hnode
  | node symbol children ih =>
      obtain ⟨steps, last, kind, hlast, hkind, hnone | hnode⟩ := wf.exists_last hρ hty
      · exact hstep hlast hkind (by simp [hnone])
      · obtain ⟨-, rfl⟩ := Term.node.inj (hsolved.symm.trans hnode)
        exact hstep hlast hkind fun child hchild =>
          ih _ (mem_map_of_mem hchild) (wf.store.has_child hkind hchild) rfl

/-! ## Unifying -/

/-- A call returns with enough fuel, and always the same. -/
def Returns {α : Type} (call : ℕ → Inference α) (context : InferenceContext) : Prop :=
  ∃ enough returned after, ∀ fuel ≥ enough, (call fuel).Runs context returned after

variable {α : Type}

theorem returns_of_forall {call : ℕ → Inference α} {returned : Except UnifyError α}
    (h : ∀ fuel, (call fuel).Runs context returned after) : Returns call context :=
  ⟨0, returned, after, fun fuel _ => h fuel⟩

/-- One call after the other, the second from where the first ended. -/
theorem Returns.bind {β : Type} {call : ℕ → Inference α} {next : ℕ → α → Inference β}
    (h : Returns call context)
    (hnext : ∀ enough a after, (∀ fuel ≥ enough, (call fuel).Runs context (.ok a) after) →
      Returns (fun fuel => next fuel a) after) :
    Returns (fun fuel => call fuel >>= next fuel) context := by
  obtain ⟨enough, returned, middle, hcall⟩ := h
  cases returned with
  | error error =>
      exact ⟨enough, .error error, middle, fun fuel hfuel =>
        runs_bind.mpr (.inr ⟨error, hcall fuel hfuel, rfl⟩)⟩
  | ok a =>
      obtain ⟨enough', returned, after, hrest⟩ := hnext enough a middle hcall
      refine ⟨max enough enough', returned, after, fun fuel hfuel => ?_⟩
      exact runs_bind.mpr (.inl ⟨a, middle, hcall fuel (le_trans (le_max_left ..) hfuel),
        hrest fuel (le_trans (le_max_right ..) hfuel)⟩)

theorem Returns.of_answers {query : ℕ → InferenceContext → Option α}
    (h : Answers fun fuel => query fuel context) :
    Returns (fun fuel => ask (query fuel)) context := by
  obtain ⟨enough, answer, hanswer⟩ := h
  exact ⟨enough, .ok answer, context, fun fuel hfuel =>
    runs_ask.mpr ⟨answer, hanswer fuel hfuel, rfl, rfl⟩⟩

theorem Returns.ask_bind {β : Type} {query : ℕ → InferenceContext → Option α}
    {next : ℕ → α → Inference β} {enough : ℕ} {answer : α}
    (h : ∀ fuel ≥ enough, query fuel context = some answer)
    (hnext : Returns (fun fuel => next fuel answer) context) :
    Returns (fun fuel => ask (query fuel) >>= next fuel) context := by
  refine (Returns.of_answers ⟨enough, answer, h⟩).bind fun enough' a after hasked => ?_
  obtain ⟨found, hfound, hreturned, rfl⟩ :=
    runs_ask.mp (hasked (max enough enough') (le_max_right ..))
  rw [h _ (le_max_left ..)] at hfound
  cases hfound
  cases hreturned
  exact hnext

theorem Returns.kindOf_bind {next : ℕ → TypeKind → Inference α}
    (hkind : context.store.kind ty = some kind)
    (hnext : Returns (fun fuel => next fuel kind) context) :
    Returns (fun fuel => kindOf ty >>= next fuel) context := by
  obtain ⟨enough, returned, after, hruns⟩ := hnext
  exact ⟨enough, returned, after, fun fuel hfuel => runs_bind.mpr
    (.inl ⟨kind, context, kindOf_runs hkind, hruns fuel hfuel⟩)⟩

theorem Returns.of_succ {call : ℕ → Inference α}
    (h : Returns (fun fuel => call (fuel + 1)) context) : Returns call context := by
  obtain ⟨enough, returned, after, hruns⟩ := h
  refine ⟨enough + 1, returned, after, fun fuel hfuel => ?_⟩
  obtain ⟨fuel, rfl⟩ := Nat.exists_eq_add_of_le' (Nat.one_le_of_lt hfuel)
  exact hruns fuel (Nat.le_of_succ_le_succ hfuel)

theorem WellFormed.returns_bind (wf : context.WellFormed) (var : TypeVariableId)
    (hty : context.store.Has ty) : Returns (fun fuel => Inference.bind fuel var ty) context := by
  unfold Inference.bind
  refine (Returns.of_answers (wf.answers_occurs var hty)).bind fun _ found middle hasked => ?_
  by_cases hfound : found = true
  · exact returns_of_forall fun _ => by
      simp only [if_pos hfound]
      exact runs_bind.mpr (.inr ⟨_, runs_throw.mpr ⟨rfl, rfl⟩, rfl⟩)
  · by_cases hlt : var.index < middle.table.bindings.length
    · exact returns_of_forall fun _ => by
        simpa [hfound, runs_bind, runs_get, hlt] using
          runs_set.mpr ⟨rfl, rfl⟩
    · exact returns_of_forall fun _ => by
        simpa [hfound, runs_bind, runs_get, hlt] using
          runs_throw.mpr ⟨rfl, rfl⟩

theorem WellFormed.returns_bind_pure (wf : context.WellFormed) (var : TypeVariableId) {ty : TypeId}
    (hty : context.store.Has ty) :
    Returns (fun fuel => do Inference.bind fuel var ty; return ty) context :=
  (wf.returns_bind var hty).bind fun _ _ _ _ =>
    returns_of_forall fun _ => runs_pure.mpr ⟨rfl, rfl⟩

/-- Unifying lists ends if unifying two of their types does, in whatever context is reached. -/
theorem returns_unifyLists (wf : context.WellFormed) (hlefts : ∀ ty ∈ lefts, context.store.Has ty)
    (hrights : ∀ ty ∈ rights, context.store.Has ty)
    (hunify : ∀ c, context.Later c → ∀ left ∈ lefts, ∀ right, c.store.Has right →
      Returns (fun fuel => Inference.unify fuel left right) c) :
    Returns (fun fuel => unifyLists (Inference.unify fuel) lefts rights) context := by
  induction lefts generalizing rights context with
  | nil => exact returns_of_forall fun _ => runs_pure.mpr ⟨rfl, rfl⟩
  | cons left lefts ih =>
      cases rights with
      | nil => exact returns_of_forall fun _ => runs_pure.mpr ⟨rfl, rfl⟩
      | cons right =>
          rw [forall_mem_cons] at hlefts hrights
          refine (hunify context wf.later_refl left mem_cons_self right hrights.1).bind
            fun enough type middle hfirst => ?_
          have hlater := later_unify wf hlefts.1 hrights.1 (hfirst enough le_rfl)
          refine (ih hlater.wellFormed (fun ty hty => hlater.store.has (hlefts.2 ty hty))
            (fun ty hty => hlater.store.has (hrights.2 ty hty)) fun c hc ty hty =>
              hunify c (hlater.trans hc) ty (mem_cons_of_mem _ hty)).bind fun _ types last _ => ?_
          exact returns_of_forall fun _ => runs_pure.mpr ⟨rfl, rfl⟩

/-- Unifying ends if it does for the parts of the type that the bindings of the first lead to. -/
theorem WellFormed.returns_unify_of_parts (wf : context.WellFormed) {last : TypeId} {steps : ℕ}
    (hright : context.store.Has right)
    (hlast : ∀ fuel ≥ steps, context.resolveShallow fuel left = some last)
    (hkind : context.store.kind last = some kind)
    (hparts : ∀ c, context.Later c → ∀ child ∈ kind.children, ∀ other, c.store.Has other →
      Returns (fun fuel => Inference.unify fuel child other) c) :
    Returns (fun fuel => Inference.unify fuel left right) context := by
  obtain ⟨steps', last', hlast'⟩ := wf.exists_resolveShallow hright
  have hlast'' := hlast' context wf.extended_refl
  have hhas := (wf.follows hright (hlast'' steps' le_rfl)).has
  apply Returns.of_succ
  simp only [Inference.unify]
  refine Returns.ask_bind hlast (Returns.ask_bind hlast'' ?_)
  by_cases heq : last = last'
  · simp only [if_pos heq]
    exact returns_of_forall fun _ => runs_pure.mpr ⟨rfl, rfl⟩
  · simp only [if_neg heq]
    obtain ⟨kind', hkind'⟩ := hhas
    refine Returns.kindOf_bind hkind (Returns.kindOf_bind hkind' ?_)
    -- every case returns at once but the parts, which return by assumption
    cases unifyCase last last' kind kind' with
    | error _ call_eq =>
        simp only [call_eq]
        exact returns_of_forall fun _ => runs_bind.mpr
          (.inl ⟨context, context, runs_get.mpr ⟨rfl, rfl⟩,
            runs_pure.mpr ⟨rfl, rfl⟩⟩)
    | neverLeft _ call_eq | neverRight _ call_eq =>
        simp only [call_eq]
        exact returns_of_forall fun _ => runs_pure.mpr ⟨rfl, rfl⟩
    | bindLeft var _ call_eq =>
        simp only [call_eq]
        exact wf.returns_bind_pure var ⟨kind', hkind'⟩
    | bindRight var _ call_eq =>
        simp only [call_eq]
        exact wf.returns_bind_pure var ⟨kind, hkind⟩
    | parts _ _ _ call_eq =>
        simp only [call_eq]
        refine (returns_unifyLists wf (fun ty hty => wf.store.has_child hkind hty)
          (fun ty hty => wf.store.has_child hkind' hty) hparts).bind fun _ types middle _ => ?_
        exact returns_of_forall fun _ => runs_interning.mpr ⟨rfl, rfl⟩
    | mismatch call_eq =>
        simp only [call_eq]
        exact returns_of_forall fun _ => runs_throw.mpr ⟨rfl, rfl⟩

/-- **Unifying ends**: a part is unified with one variable less unbound, or with the same bindings
and a smaller solved term. -/
theorem WellFormed.returns_unify (wf : context.WellFormed) (hleft : context.store.Has left)
    (hright : context.store.Has right) :
    Returns (fun fuel => Inference.unify fuel left right) context := by
  induction hunbound : context.unbound using Nat.strongRecOn generalizing context left right with
  | _ n ihUnbound =>
      obtain ⟨ρ, hρ⟩ := wf.triangular.exists_solvedBy
      generalize hsolved : (context.store.term left).subst ρ = solved
      induction solved generalizing context left right with
      | var =>
          obtain ⟨steps, last, kind, hlast, hkind, hnone | hnode⟩ := wf.exists_last hρ hleft
          · exact wf.returns_unify_of_parts hright hlast hkind (by simp [hnone])
          · rw [hsolved] at hnode
            cases hnode
      | node symbol children ih =>
          obtain ⟨steps, last, kind, hlast, hkind, hnone | hnode⟩ := wf.exists_last hρ hleft
          · exact wf.returns_unify_of_parts hright hlast hkind (by simp [hnone])
          · obtain ⟨-, rfl⟩ := Term.node.inj (hsolved.symm.trans hnode)
            refine wf.returns_unify_of_parts hright hlast hkind fun c hlater child hchild other
              hother => ?_
            have hhas := wf.store.has_child hkind hchild
            obtain htable | hlt := hlater.table
            · have hextended : context.Extended c := ⟨hlater.wellFormed, hlater.store, htable⟩
              have hterm := wf.store.term_extends hlater.wellFormed.store hlater.store hhas
              refine ih _ (mem_map_of_mem hchild) hlater.wellFormed (hlater.store.has hhas)
                hother ?_ ?_ (by rw [hterm])
              · rw [unbound, htable]
                exact hunbound
              · rw [hextended.bindings wf]
                exact hρ
            · exact ihUnbound c.unbound (hunbound ▸ hlt) hlater.wellFormed (hlater.store.has hhas)
                hother rfl

/-! ## Bindings are acyclic -/

/-- A type leads nowhere for ever if the variables in it do not. -/
theorem WellFormed.acc_of_variables (wf : context.WellFormed) (has : context.store.Has ty)
    (hvariables : ∀ w, (context.store.term ty).Occurs w → ∀ other,
      context.store.kind other = some (.inferenceVariable w) →
        Acc (fun next ty => context.LeadsTo ty next) other) :
    Acc (fun next ty => context.LeadsTo ty next) ty := by
  refine wf.store.induct (motive := fun ty => (∀ w, (context.store.term ty).Occurs w → ∀ other,
    context.store.kind other = some (.inferenceVariable w) →
      Acc (fun next ty => context.LeadsTo ty next) other) →
    Acc (fun next ty => context.LeadsTo ty next) ty) ?_ has hvariables
  intro ty kind hkind ih hvariables
  by_cases hvariable : ∃ v, kind = .inferenceVariable v
  · obtain ⟨v, rfl⟩ := hvariable
    refine hvariables v ?_ ty hkind
    rw [TypeStore.WellFormed.term_variable hkind]
    exact .here
  · have hne : ∀ v, kind ≠ .inferenceVariable v := fun v heq => hvariable ⟨v, heq⟩
    refine ⟨_, fun next hnext => ?_⟩
    obtain hpart | hbound := hnext
    · have hchild : next ∈ kind.children := by simpa [parts, hkind] using hpart
      refine ih next hchild fun w hw => hvariables w ?_
      rw [wf.store.term_eq hkind hne]
      exact .child (mem_map_of_mem hchild) hw
    · rw [boundTo, hkind] at hbound
      cases kind with
      | inferenceVariable v => exact absurd rfl (hne v)
      | _ => cases hbound

/-- What a type is built from and what a variable is bound to never leads back to it. -/
theorem WellFormed.acyclic (wf : context.WellFormed) : Acyclic context.LeadsTo := by
  have hvariable : ∀ v ty, context.store.kind ty = some (.inferenceVariable v) →
      Acc (fun next ty => context.LeadsTo ty next) ty := by
    intro v
    induction v using wf.triangular.induction with
    | _ v ih =>
        intro ty hkind
        refine ⟨_, fun next hnext => ?_⟩
        obtain hpart | hbound := hnext
        · simp [parts, hkind, TypeKind.children] at hpart
        · have hbinding : context.binding v = some next := by simpa [boundTo, hkind] using hbound
          refine wf.acc_of_variables (wf.bound hbinding) fun w hw => ih w ?_
          exact ⟨_, bindings_eq_some.mpr ⟨next, hbinding, rfl⟩, hw⟩
  have hwf : WellFounded fun next ty => context.LeadsTo ty next := by
    refine ⟨fun ty => ?_⟩
    cases hkind : context.store.kind ty with
    | some kind =>
        exact wf.acc_of_variables ⟨kind, hkind⟩ fun w _ other hother => hvariable w other hother
    | none =>
        refine ⟨_, fun next hnext => ?_⟩
        simp [LeadsTo, parts, boundTo, hkind] at hnext
  intro ty hcycle
  have hback : Relation.TransGen (fun next ty => context.LeadsTo ty next) ty ty :=
    Relation.transGen_swap.mp hcycle
  exact hwf.transGen.irrefl.irrefl ty hback

/-! ## Identities that are not in the store -/

theorem resolveShallow_of_none (hkind : context.store.kind ty = none) :
    ∀ fuel ≥ 1, context.resolveShallow fuel ty = some ty := by
  intro fuel hfuel
  obtain ⟨fuel, rfl⟩ := Nat.exists_eq_add_of_le' hfuel
  rw [resolveShallow, hkind]

theorem kind_of_not_has (h : ¬ context.store.Has ty) : context.store.kind ty = none := by
  cases hkind : context.store.kind ty with
  | none => rfl
  | some kind => exact absurd ⟨kind, hkind⟩ h

theorem eq_of_resolveShallow {last : TypeId} (hkind : context.store.kind ty = none)
    (h : context.resolveShallow fuel ty = some last) : ty = last := by
  cases fuel with
  | zero => cases h
  | succ =>
      rw [resolveShallow_of_none hkind _ (Nat.le_add_left ..)] at h
      exact some.inj h

/-- Unifying identities that are not in the store changes nothing. -/
theorem after_eq_of_unify (hnot : ¬ (context.store.Has left ∧ context.store.Has right))
    (h : (Inference.unify fuel left right).Runs context returned after) : after = context := by
  cases fuel with
  | zero =>
      obtain ⟨answer, hnone, -⟩ := runs_ask.mp h
      cases hnone
  | succ =>
      obtain ⟨left', right', hleft', hright', hcase⟩ := runs_unify h
      obtain ⟨-, -, rfl⟩ | ⟨error, -, rfl⟩ | ⟨leftKind, rightKind, hlk, hrk, -⟩ := hcase
      · rfl
      · rfl
      · by_cases hleft : context.store.Has left
        · have hnone := kind_of_not_has fun hright => hnot ⟨hleft, hright⟩
          rw [← eq_of_resolveShallow hnone hright', hnone] at hrk
          cases hrk
        · have hnone := kind_of_not_has hleft
          rw [← eq_of_resolveShallow hnone hleft', hnone] at hlk
          cases hlk

/-- Resolving an identity that is not in the store changes nothing. -/
theorem after_eq_of_resolveDeep (hnot : ¬ context.store.Has ty)
    (h : (Inference.resolveDeep fuel ty).Runs context returned after) : after = context := by
  have hnone := kind_of_not_has hnot
  cases fuel with
  | zero =>
      obtain ⟨answer, hquery, -⟩ := runs_ask.mp h
      cases hquery
  | succ =>
      rw [Inference.resolveDeep] at h
      obtain ⟨last, hlast, h⟩ := runs_ask_bind h
      obtain rfl := eq_of_resolveShallow hnone hlast
      obtain ⟨kind, hkind, -⟩ | ⟨error, -, rfl⟩ := runs_kindOf_bind h
      · rw [hnone] at hkind
        cases hkind
      · rfl

theorem returns_kindOf_bind {next : ℕ → TypeKind → Inference α}
    (hkind : context.store.kind ty = none) :
    Returns (fun fuel => kindOf ty >>= next fuel) context := by
  refine ⟨0, .error (.invalidType ty), context, fun _ _ => ?_⟩
  refine runs_bind.mpr (.inr ⟨.invalidType ty, ?_, rfl⟩)
  simp [kindOf, runs_bind, runs_get, hkind, runs_throw]

/-! ## Every operation ends -/

theorem WellFormed.answers_resolveShallow (wf : context.WellFormed) (ty : TypeId) :
    Answers fun fuel => context.resolveShallow fuel ty := by
  by_cases has : context.store.Has ty
  · obtain ⟨steps, last, hlast⟩ := wf.exists_resolveShallow has
    exact ⟨steps, last, hlast context wf.extended_refl⟩
  · exact ⟨1, ty, resolveShallow_of_none (kind_of_not_has has)⟩

theorem WellFormed.answers_occurs_any (wf : context.WellFormed) (var : TypeVariableId)
    (ty : TypeId) : Answers fun fuel => context.occurs var fuel ty := by
  by_cases has : context.store.Has ty
  · exact wf.answers_occurs var has
  · have hnone := kind_of_not_has has
    refine ⟨2, false, fun fuel hfuel => ?_⟩
    obtain ⟨fuel, rfl⟩ := Nat.exists_eq_add_of_le' hfuel
    show context.occurs var (fuel + 1 + 1) ty = some false
    rw [occurs_eq, resolveShallow_of_none hnone _ (Nat.le_add_left ..), bind_some, hnone]

theorem WellFormed.returns_unify_any (wf : context.WellFormed) (left right : TypeId) :
    Returns (fun fuel => Inference.unify fuel left right) context := by
  by_cases hboth : context.store.Has left ∧ context.store.Has right
  · exact wf.returns_unify hboth.1 hboth.2
  obtain ⟨steps, last, hlast⟩ := wf.answers_resolveShallow left
  obtain ⟨steps', last', hlast'⟩ := wf.answers_resolveShallow right
  apply Returns.of_succ
  simp only [Inference.unify]
  refine Returns.ask_bind hlast (Returns.ask_bind hlast' ?_)
  by_cases heq : last = last'
  · simp only [if_pos heq]
    exact returns_of_forall fun _ => runs_pure.mpr ⟨rfl, rfl⟩
  · simp only [if_neg heq]
    cases hkind : context.store.kind last with
    | none => exact returns_kindOf_bind hkind
    | some =>
        refine Returns.kindOf_bind hkind (returns_kindOf_bind ?_)
        by_cases hleft : context.store.Has left
        · have hnone := kind_of_not_has fun hright => hboth ⟨hleft, hright⟩
          rwa [← eq_of_resolveShallow hnone (hlast' steps' le_rfl)]
        · have hnone := kind_of_not_has hleft
          rw [← eq_of_resolveShallow hnone (hlast steps le_rfl), hnone] at hkind
          cases hkind

theorem WellFormed.exists_resolveDeep (wf : context.WellFormed) (ty : TypeId) :
    ∃ enough, ∀ fuel ≥ enough, ∃ returned after,
      (Inference.resolveDeep fuel ty).Runs context returned after := by
  by_cases has : context.store.Has ty
  · obtain ⟨enough, hends⟩ := wf.resolveEnds has
    refine ⟨enough, fun fuel hfuel => ?_⟩
    obtain ⟨t, after, hruns⟩ := hends context wf.extended_refl fuel hfuel
    exact ⟨.ok t, after, hruns⟩
  · have hnone := kind_of_not_has has
    have hreturns : Returns (fun fuel => Inference.resolveDeep fuel ty) context := by
      apply Returns.of_succ
      simp only [Inference.resolveDeep]
      exact Returns.ask_bind (resolveShallow_of_none hnone) (returns_kindOf_bind hnone)
    obtain ⟨enough, returned, after, hruns⟩ := hreturns
    exact ⟨enough, fun fuel hfuel => ⟨returned, after, hruns fuel hfuel⟩⟩

/-- The contexts that a sequence of calls leads to.  A kind that is interned is built from types of
the store; the other calls are made with any identities and return whatever they return. -/
inductive Driven : InferenceContext → Prop
  | new : Driven .new
  | intern {context : InferenceContext} (driven : Driven context) (kind : TypeKind)
      (children : ∀ child ∈ kind.children, context.store.Has child) :
      Driven (context.intern kind).2
  | fresh {context : InferenceContext} (driven : Driven context) : Driven context.fresh.2
  | unify {context after : InferenceContext} (driven : Driven context) {fuel : ℕ}
      {left right : TypeId} {returned : Except UnifyError TypeId}
      (runs : (Inference.unify fuel left right).Runs context returned after) : Driven after
  | resolveDeep {context after : InferenceContext} (driven : Driven context) {fuel : ℕ}
      {ty : TypeId} {returned : Except UnifyError TypeId}
      (runs : (Inference.resolveDeep fuel ty).Runs context returned after) : Driven after

theorem Driven.reachable (driven : context.Driven) : context.Reachable := by
  induction driven with
  | new => exact .new
  | intern _ kind children ih => exact ih.intern kind children
  | fresh _ ih => exact ih.fresh
  | @unify context after _ fuel left right returned runs ih =>
      by_cases hboth : context.store.Has left ∧ context.store.Has right
      · exact ih.unify hboth.1 hboth.2 runs
      · rwa [after_eq_of_unify hboth runs]
  | @resolveDeep context after _ fuel ty returned runs ih =>
      by_cases has : context.store.Has ty
      · exact ih.resolveDeep has runs
      · rwa [after_eq_of_resolveDeep has runs]

/-- Nothing leads back to itself, and every operation ends. -/
structure Terminates (context : InferenceContext) : Prop where
  acyclic : Acyclic context.LeadsTo
  resolveShallow : ∀ ty, Answers fun fuel => context.resolveShallow fuel ty
  occurs : ∀ var ty, Answers fun fuel => context.occurs var fuel ty
  resolveDeep : ∀ ty, ∃ enough, ∀ fuel ≥ enough, ∃ returned after,
    (Inference.resolveDeep fuel ty).Runs context returned after
  unify : ∀ left right, Returns (fun fuel => Inference.unify fuel left right) context

/-- **Bindings stay acyclic and every operation ends**, after any calls. -/
theorem terminates_of_driven (driven : context.Driven) : context.Terminates where
  acyclic := driven.reachable.wellFormed.acyclic
  resolveShallow := driven.reachable.wellFormed.answers_resolveShallow
  occurs := driven.reachable.wellFormed.answers_occurs_any
  resolveDeep := driven.reachable.wellFormed.exists_resolveDeep
  unify := driven.reachable.wellFormed.returns_unify_any

/-- Unifying `Result<a, Option<b>>` with `Result<b, a>` binds `a` and then fails. -/
def halfUnified : InferenceContext :=
  let context := new.fresh.2.fresh.2
  let context := (context.intern (.option ⟨25⟩)).2
  let context := (context.intern (.result ⟨24⟩ ⟨26⟩)).2
  { (context.intern (.result ⟨25⟩ ⟨24⟩)).2 with table := ⟨[some ⟨25⟩, none]⟩ }

theorem driven_halfUnified : halfUnified.Driven :=
  have fresh : Driven new.fresh.2.fresh.2 := .fresh (.fresh .new)
  have option := fresh.intern (.option ⟨25⟩)
    (forall_mem_singleton.mpr (TypeStore.has_of_lt (by decide)))
  have first := option.intern (.result ⟨24⟩ ⟨26⟩)
    (forall_mem_cons.mpr ⟨TypeStore.has_of_lt (by decide),
      forall_mem_singleton.mpr (TypeStore.has_of_lt (by decide))⟩)
  have second := first.intern (.result ⟨25⟩ ⟨24⟩)
    (forall_mem_cons.mpr ⟨TypeStore.has_of_lt (by decide),
      forall_mem_singleton.mpr (TypeStore.has_of_lt (by decide))⟩)
  have runs : (Inference.unify 8 ⟨27⟩ ⟨28⟩).Runs _ (.error (.occurs ⟨1⟩ ⟨26⟩)) halfUnified := by
    decide
  second.unify runs

theorem terminates_halfUnified : halfUnified.Terminates := terminates_of_driven driven_halfUnified

end InferenceContext

end Jadren.Types

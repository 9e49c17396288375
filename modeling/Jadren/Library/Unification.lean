import Mathlib.Logic.Function.Basic
import Mathlib.Logic.Relation

/-!
# Most general solutions of triangular bindings

First-order terms over any symbols and variables, substitutions, and bindings: a
partial map from variables to terms, read as the equations `v = t`.  Bindings are
triangular when no chain of "occurs in what is bound to" goes on for ever.
Triangular bindings have a solution (`solved`), and every other solution factors
through it (`mostGeneral_solved`).  Binding one more variable keeps them triangular
when the variable does not occur in the solved term (`Triangular.update`).
-/

namespace Jadren.Unification

/-- A first-order term. -/
inductive Term (S V : Type)
  | var (v : V)
  | node (symbol : S) (children : List (Term S V))

namespace Term

variable {S V : Type}

/-- What holds of variables, and of a node when it holds of its children, holds of all terms. -/
@[elab_as_elim, induction_eliminator]
theorem induct {motive : Term S V → Prop} (var : ∀ v, motive (.var v))
    (node : ∀ symbol children, (∀ t ∈ children, motive t) → motive (.node symbol children))
    (t : Term S V) : motive t :=
  match t with
  | .var v => var v
  | .node symbol children => node symbol children fun t _ => induct var node t
termination_by sizeOf t

/-- Replaces every variable by its image. -/
def subst (σ : V → Term S V) : Term S V → Term S V
  | .var v => σ v
  | .node symbol children => .node symbol (children.map fun t => t.subst σ)

@[simp] theorem subst_var (σ : V → Term S V) (v : V) : (Term.var v : Term S V).subst σ = σ v := by
  rw [subst]

@[simp] theorem subst_node (σ : V → Term S V) (symbol : S) (children : List (Term S V)) :
    (Term.node symbol children).subst σ = .node symbol (children.map (subst σ)) := by
  rw [subst]

/-- The variable stands somewhere in the term. -/
inductive Occurs (v : V) : Term S V → Prop
  | here : Occurs v (.var v)
  | child {symbol : S} {children : List (Term S V)} {t : Term S V} (mem : t ∈ children)
      (occurs : Occurs v t) : Occurs v (.node symbol children)

@[simp] theorem occurs_var {v w : V} : (Term.var w : Term S V).Occurs v ↔ v = w := by
  constructor
  · intro h
    cases h
    rfl
  · rintro rfl
    exact .here

@[simp] theorem occurs_node {v : V} {symbol : S} {children : List (Term S V)} :
    (Term.node symbol children).Occurs v ↔ ∃ t ∈ children, t.Occurs v := by
  constructor
  · intro h
    obtain _ | ⟨hmem, hoccurs⟩ := h
    exact ⟨_, hmem, hoccurs⟩
  · intro h
    obtain ⟨t, hmem, hoccurs⟩ := h
    exact .child hmem hoccurs

/-- Only the images of the variables that occur matter. -/
theorem subst_congr {σ τ : V → Term S V} {t : Term S V} (h : ∀ v, t.Occurs v → σ v = τ v) :
    t.subst σ = t.subst τ := by
  induction t with
  | var v => simpa using h v .here
  | node symbol children ih =>
      simp only [subst_node, node.injEq, true_and]
      apply List.map_congr_left
      intro t ht
      exact ih t ht fun v hv => h v (.child ht hv)

/-- Substituting twice is substituting the substituted images. -/
theorem subst_subst (σ τ : V → Term S V) (t : Term S V) :
    (t.subst σ).subst τ = t.subst fun v => (σ v).subst τ := by
  induction t with
  | var => simp
  | node symbol children ih =>
      simp only [subst_node, List.map_map, node.injEq, true_and]
      apply List.map_congr_left
      intro t ht
      exact ih t ht

/-- A variable of the image of a variable is a variable of the substituted term. -/
theorem Occurs.subst {v w : V} {σ : V → Term S V} {t : Term S V} (hw : t.Occurs w)
    (hv : (σ w).Occurs v) : (t.subst σ).Occurs v := by
  induction hw with
  | here => simpa using hv
  | child hmem _ ih =>
      rw [subst_node, occurs_node]
      exact ⟨_, List.mem_map_of_mem hmem, ih⟩

end Term

/-- Some variables are bound to terms. -/
abbrev Bindings (S V : Type) := V → Option (Term S V)

namespace Bindings

variable {S V : Type} {B : Bindings S V} {σ : V → Term S V}

/-- The substitution makes every bound variable equal to what it is bound to. -/
def Satisfied (B : Bindings S V) (σ : V → Term S V) : Prop :=
  ∀ v t, B v = some t → σ v = t.subst σ

/-- The first variable occurs in what the second is bound to. -/
def Needs (B : Bindings S V) (w v : V) : Prop := ∃ t, B v = some t ∧ t.Occurs w

/-- Following the variables of the bound terms ends. -/
def Triangular (B : Bindings S V) : Prop := WellFounded B.Needs

/-- The substitution is what following the bindings to the end gives. -/
def SolvedBy (B : Bindings S V) (ρ : V → Term S V) : Prop :=
  ∀ v, ρ v = match B v with
    | none => .var v
    | some t => t.subst ρ

theorem SolvedBy.satisfied (h : B.SolvedBy σ) : B.Satisfied σ := by
  intro v t hv
  rw [h v, hv]

theorem SolvedBy.of_none (h : B.SolvedBy σ) {v : V} (hv : B v = none) : σ v = .var v := by
  rw [h v, hv]

/-- Triangular bindings are solved by a substitution. -/
theorem Triangular.exists_solvedBy (h : B.Triangular) : ∃ ρ, B.SolvedBy ρ := by
  classical
  let follow : ∀ v, (∀ w, B.Needs w v → Term S V) → Term S V := fun v image =>
    match B v with
    | none => .var v
    | some t => t.subst fun w => if hw : B.Needs w v then image w hw else .var w
  refine ⟨h.fix follow, fun v => ?_⟩
  rw [h.fix_eq]
  cases hv : B v with
  | none => simp [follow, hv]
  | some t =>
      simp only [follow, hv]
      apply Term.subst_congr
      intro w hw
      have hneeds : B.Needs w v := ⟨t, hv, hw⟩
      simp only [hneeds, dite_true]

/-- A solution absorbs what following the bindings gives. -/
theorem Satisfied.absorb (h : B.Satisfied σ) (htriangular : B.Triangular) {ρ : V → Term S V}
    (hρ : B.SolvedBy ρ) (v : V) : (ρ v).subst σ = σ v := by
  induction v using htriangular.induction with
  | _ v ih =>
      cases hv : B v with
      | none => simp [hρ.of_none hv]
      | some t =>
          calc (ρ v).subst σ = (t.subst ρ).subst σ := by rw [hρ.satisfied v t hv]
            _ = t.subst fun w => (ρ w).subst σ := Term.subst_subst ..
            _ = t.subst σ := Term.subst_congr fun w hw => ih w ⟨t, hv, hw⟩
            _ = σ v := (h v t hv).symm

/-- A solution of a problem through which every solution factors. -/
structure MostGeneral (Solves : (V → Term S V) → Prop) (ρ : V → Term S V) : Prop where
  solves : Solves ρ
  factors : ∀ σ, Solves σ → ∃ τ, ∀ v, σ v = (ρ v).subst τ

/-- Following triangular bindings gives their most general solution. -/
theorem SolvedBy.mostGeneral {ρ : V → Term S V} (hρ : B.SolvedBy ρ) (h : B.Triangular) :
    MostGeneral B.Satisfied ρ :=
  ⟨hρ.satisfied, fun σ hσ => ⟨σ, fun v => (hσ.absorb h hρ v).symm⟩⟩

/-- An unbound variable that a variable leads to stands in the image of that variable. -/
theorem SolvedBy.occurs {ρ : V → Term S V} (hρ : B.SolvedBy ρ) {v w : V} (hv : B v = none)
    (h : Relation.ReflTransGen B.Needs v w) : (ρ w).Occurs v := by
  induction h with
  | refl => simp [hρ.of_none hv]
  | tail _ hneeds ih =>
      obtain ⟨t, hbound, hoccurs⟩ := hneeds
      rw [hρ.satisfied _ t hbound]
      exact hoccurs.subst ih

variable [DecidableEq V]

/-- Binding a variable that does not occur in the solved term keeps bindings triangular. -/
theorem Triangular.update (h : B.Triangular) {ρ : V → Term S V} (hρ : B.SolvedBy ρ) {v : V}
    (hv : B v = none) {t : Term S V} (hoccurs : ¬ (t.subst ρ).Occurs v) :
    Triangular (Function.update B v (some t)) := by
  have hsame : ∀ {u w : V}, w ≠ v → Needs (Function.update B v (some t)) u w → B.Needs u w := by
    intro u w hw hneeds
    simpa [Needs, Function.update_of_ne hw] using hneeds
  -- Below variables that do not lead to `v` nothing changed.
  have hbelow : ∀ w, ¬ Relation.ReflTransGen B.Needs v w →
      Acc (Needs (Function.update B v (some t))) w := by
    intro w
    induction w using h.induction with
    | _ w ih =>
        intro hw
        have hne : w ≠ v := fun heq => hw (heq ▸ .refl)
        refine ⟨_, fun u hu => ih u (hsame hne hu) fun hreach => ?_⟩
        exact hw (hreach.tail (hsame hne hu))
  have hbound : Acc (Needs (Function.update B v (some t))) v := by
    refine ⟨_, fun u hu => hbelow u fun hreach => ?_⟩
    obtain ⟨t', ht', hu⟩ := hu
    obtain rfl : t = t' := by simpa using ht'
    exact hoccurs (hu.subst (hρ.occurs hv hreach))
  refine ⟨fun w => ?_⟩
  induction w using h.induction with
  | _ w ih =>
      by_cases hw : w = v
      · exact hw ▸ hbound
      · exact ⟨_, fun u hu => ih u (hsame hw hu)⟩

end Bindings

end Jadren.Unification

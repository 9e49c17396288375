import Jadren.Types.Store

/-!
# Substituting generic parameters

`Substitution.apply` puts types for the generic parameters of a type and interns the result.  It
changes the store, but only by new types: once it has run, running it again in any later store
gives the same type and leaves the store as it is (`stable_apply`).  So a type with arguments for
its parameters can be spoken of in one store for good.
-/

namespace Jadren.Types

/-- Types for generic parameters. -/
abbrev Substitution := List (GenericParameterId × TypeId)

/-- The substitution of parameters by arguments, one by one.  A later pair replaces an earlier one
with the same parameter. -/
def Substitution.ofZip (parameters : List GenericParameterId) (arguments : List TypeId) :
    Substitution := (parameters.zip arguments).reverse

inductive TypeTransformError
  /-- The type identity does not belong to the supplied store. -/
  | invalidType (ty : TypeId)
  /-- A concrete fingerprint was requested for an inference variable. -/
  | inferenceVariable (var : TypeVariableId)
  /-- A concrete fingerprint was requested for an unsubstituted generic parameter. -/
  | genericParameter (parameter : GenericParameterId)
  deriving DecidableEq

/-- A computation that may intern types and may fail. -/
abbrev Transform (α : Type) := ExceptT TypeTransformError (StateM TypeStore) α

namespace Substitution

/-- A type of this kind, the types it is built from replaced. -/
def applyKind (substitution : Substitution) (recurse : TypeId → Transform TypeId) (ty : TypeId) :
    Option TypeKind → Transform TypeId
  | none => throw (.invalidType ty)
  | some (.genericParameter parameter) => pure ((substitution.lookup parameter).getD ty)
  | some kind => do
      let children ← kind.children.mapM recurse
      TypeStore.interning (kind.rebuild children)

/-- Applies the substitution to a type and the types it is built from, to a depth that its index
bounds. -/
def applyFrom (substitution : Substitution) : ℕ → TypeId → Transform TypeId
  | 0, ty => throw (.invalidType ty)
  | depth + 1, ty => do
      substitution.applyKind (applyFrom substitution depth) ty ((← get).kind ty)

/-- Recursively applies this substitution and interns the resulting structure. -/
def apply (substitution : Substitution) (ty : TypeId) : Transform TypeId :=
  applyFrom substitution (ty.index + 1) ty

end Substitution

/-! ## Results that stay -/

/-- In this store the computation gives the result and leaves the store as it is. -/
def Settled {α : Type} (x : Transform α) (store : TypeStore) (a : α) : Prop :=
  x.run.run store = (.ok a, store)

theorem Settled.unique {α : Type} {x : Transform α} {store : TypeStore} {a b : α}
    (h : Settled x store a) (h' : Settled x store b) : a = b :=
  Except.ok.inj (Prod.mk.inj (h.symm.trans h')).1

/-- From a well-formed store the computation, if it gives a result, leads to a well-formed
extension, in which the result is good and in all extensions of which it stays. -/
def Stable {α : Type} (x : Transform α) (good : TypeStore → α → Prop) (store : TypeStore) : Prop :=
  ∀ a after, x.run.run store = (.ok a, after) →
    after.WellFormed ∧ store.Extends after ∧ good after a ∧
      ∀ later : TypeStore, later.WellFormed → after.Extends later → Settled x later a

namespace Stable

variable {α β : Type} {store : TypeStore} {good : TypeStore → α → Prop}

theorem pure {a : α} (wf : store.WellFormed) (h : good store a) :
    Stable (Pure.pure a : Transform α) good store := by
  intro b after hrun
  obtain ⟨hvalue, rfl⟩ := Prod.mk.inj hrun
  obtain rfl := Except.ok.inj hvalue
  exact ⟨wf, .refl _, h, fun _ _ _ => rfl⟩

theorem throw {error : TypeTransformError} :
    Stable (MonadExcept.throw error : Transform α) good store :=
  fun _ _ hrun => nomatch (Prod.mk.inj hrun).1

theorem bind {good' : TypeStore → β → Prop} {x : Transform α} {f : α → Transform β}
    (hx : Stable x good store)
    (hf : ∀ a middle, middle.WellFormed → store.Extends middle → good middle a →
      Stable (f a) good' middle) : Stable (x >>= f) good' store := by
  intro b after hrun
  have hbind (s : TypeStore) : (x >>= f).run.run s = match x.run.run s with
      | (.ok a, s') => (f a).run.run s'
      | (.error e, s') => (.error e, s') := by
    rw [ExceptT.run_bind, StateT.run_bind]
    generalize x.run.run s = answer
    obtain ⟨_ | a, s'⟩ := answer <;> rfl
  rw [hbind] at hrun
  cases hfirst : x.run.run store with
  | mk result middle =>
      rw [hfirst] at hrun
      cases result with
      | error => exact absurd (Prod.mk.inj hrun).1 nofun
      | ok a =>
          obtain ⟨wf, hextends, hgood, hsettled⟩ := hx a middle hfirst
          obtain ⟨wf', hextends', hgood', hsettled'⟩ := hf a middle wf hextends hgood b after hrun
          refine ⟨wf', hextends.trans hextends', hgood', fun later wfLater hlater => ?_⟩
          unfold Settled
          rw [hbind, hsettled later wfLater (hextends'.trans hlater)]
          exact hsettled' later wfLater hlater

/-- The kind of a type is the same in every extension of the store. -/
theorem get_kind {x : Option TypeKind → Transform α} {ty : TypeId}
    (hnone : ∀ s, ∃ e, (x none).run.run s = (.error e, s))
    (hsome : ∀ kind, store.kind ty = some kind → Stable (x (some kind)) good store) :
    Stable (do x ((← get).kind ty)) good store := by
  have hget (s : TypeStore) :
      (do x ((← get).kind ty) : Transform α).run.run s = (x (s.kind ty)).run.run s := rfl
  intro a after hrun
  rw [hget] at hrun
  cases hkind : store.kind ty with
  | none =>
      rw [hkind] at hrun
      obtain ⟨e, herror⟩ := hnone store
      exact absurd (Prod.mk.inj (herror.symm.trans hrun)).1 nofun
  | some kind =>
      rw [hkind] at hrun
      obtain ⟨wf', hextends, hgood, hsettled⟩ := hsome kind hkind a after hrun
      refine ⟨wf', hextends, hgood, fun later wfLater hlater => ?_⟩
      unfold Settled
      rw [hget, hlater _ _ (hextends _ _ hkind)]
      exact hsettled later wfLater hlater

theorem interning {kind : TypeKind} (wf : store.WellFormed)
    (hchildren : ∀ child ∈ kind.children, store.Has child) :
    Stable (TypeStore.interning kind : Transform TypeId) TypeStore.Has store := by
  intro id after hrun
  have hintern : (Except.ok (store.intern kind).1, (store.intern kind).2) =
      ((.ok id, after) : Except TypeTransformError TypeId × TypeStore) := hrun
  obtain ⟨hvalue, hafter⟩ := Prod.mk.inj hintern
  obtain rfl := Except.ok.inj hvalue
  obtain ⟨wf', hextends, hkind⟩ := wf.intern hchildren
  refine ⟨hafter ▸ wf', hafter ▸ hextends, ⟨kind, hafter ▸ hkind⟩, fun later wfLater hlater => ?_⟩
  have hfound : later.interned.lookup kind = some (store.intern kind).1 :=
    (wfLater.interned_iff _ _).mpr (hlater _ _ (hafter ▸ hkind))
  have hlaterIntern : later.intern kind = ((store.intern kind).1, later) := by
    rw [TypeStore.intern, hfound]
  show (Except.ok (later.intern kind).1, (later.intern kind).2) = _
  rw [hlaterIntern]

theorem mapM {ι : Type} {f : ι → Transform TypeId} {is : List ι} (wf : store.WellFormed)
    (hf : ∀ i ∈ is, ∀ middle, middle.WellFormed → store.Extends middle →
      Stable (f i) TypeStore.Has middle) :
    Stable (is.mapM f) (fun s ids => ids.length = is.length ∧ ∀ id ∈ ids, s.Has id) store := by
  induction is generalizing store with
  | nil =>
      rw [List.mapM_nil]
      exact pure wf ⟨rfl, nofun⟩
  | cons i is ih =>
      rw [List.mapM_cons]
      refine bind (hf i List.mem_cons_self store wf (.refl _)) fun id middle wfMiddle
        hextends hid => ?_
      refine bind (ih wfMiddle fun j hj later wfLater hlater =>
        hf j (List.mem_cons_of_mem _ hj) later wfLater (hextends.trans hlater)) ?_
      intro ids last wfLast hlast hids
      exact pure wfLast ⟨congrArg (· + 1) hids.1, List.forall_mem_cons.mpr ⟨hlast.has hid, hids.2⟩⟩

end Stable

namespace Substitution

variable {substitution : Substitution} {store : TypeStore}

theorem stable_applyFrom (depth : ℕ) (ty : TypeId) (wf : store.WellFormed)
    (hsubstitution : ∀ entry ∈ substitution, store.Has entry.2) :
    Stable (substitution.applyFrom depth ty) TypeStore.Has store := by
  induction depth generalizing ty store with
  | zero => exact Stable.throw
  | succ depth ih =>
      unfold applyFrom
      refine Stable.get_kind (x := substitution.applyKind (substitution.applyFrom depth) ty)
        (fun s => ⟨_, rfl⟩) fun kind hkind => ?_
      unfold applyKind
      split
      next heq => cases heq
      next parameter heq =>
        refine Stable.pure wf ?_
        cases hlookup : substitution.lookup parameter with
        | none => exact ⟨kind, hkind⟩
        | some id =>
            obtain ⟨before, behind, hentries, -⟩ := List.lookup_eq_some_iff.mp hlookup
            exact hsubstitution (parameter, id) (by rw [hentries]; simp)
      next kind' hne heq =>
        obtain rfl := Option.some.inj heq
        refine Stable.bind (Stable.mapM wf fun child _ middle wfMiddle hextends =>
          ih child wfMiddle fun entry hentry => hextends.has (hsubstitution entry hentry)) ?_
        intro ids middle wfMiddle _ hids
        refine Stable.interning wfMiddle ?_
        rw [TypeKind.children_rebuild hids.1]
        exact hids.2

theorem stable_apply (ty : TypeId) (wf : store.WellFormed)
    (hsubstitution : ∀ entry ∈ substitution, store.Has entry.2) :
    Stable (substitution.apply ty) TypeStore.Has store :=
  stable_applyFrom _ ty wf hsubstitution

end Substitution

end Jadren.Types

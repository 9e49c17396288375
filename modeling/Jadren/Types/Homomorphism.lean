import Jadren.Types.Importing

/-!
# Substitutions as homomorphisms

Applying a substitution to a type gives the type that is built, by the same constructor, from what
it gives for the parts (`settled_apply_iff`).  In one store that says everything about it: two
substitutions applied one after the other are the one that agrees with them on the parameters, and
a type without the parameters that are replaced stays the type it is, with no change to the store.

Applying one to a part may already extend the store, so the parts are followed through the stores
on the way, in which what was given before is given again.
-/

namespace Jadren.Types

open TypeStore List

/-- From this store on the computation gives the result without changing the store. -/
def Remains {α : Type} (x : Transform α) (store : TypeStore) (a : α) : Prop :=
  ∀ later : TypeStore, later.WellFormed → store.Extends later → Settled x later a

theorem Remains.extends {α : Type} {x : Transform α} {store later : TypeStore} {a : α}
    (h : Remains x store a) (hextends : store.Extends later) : Remains x later a :=
  fun _ wf hlater => h _ wf (hextends.trans hlater)

/-- What gives a result in every later store gives one for each element of a list. -/
theorem exists_mapM_remains {store : TypeStore} {call : TypeId → Transform TypeId}
    {types : List TypeId}
    (hcall : ∀ ty ∈ types, ∀ target : TypeStore, target.WellFormed → store.Extends target →
      ∃ id after, Gives (call ty) target id after ∧ Stable (call ty) Has target)
    {target : TypeStore} (wf : target.WellFormed) (hextends : store.Extends target) :
    ∃ ids after, Gives (types.mapM call) target ids after ∧ after.WellFormed ∧
      target.Extends after ∧ (∀ id ∈ ids, after.Has id) ∧
      Forall₂ (fun ty id => Remains (call ty) after id) types ids := by
  induction types generalizing target with
  | nil =>
      rw [mapM_nil]
      exact ⟨[], target, gives_pure [], wf, .refl _, forall_mem_nil _, .nil⟩
  | cons ty types ih =>
      obtain ⟨id, middle, hid, hstable⟩ := hcall ty mem_cons_self target wf hextends
      obtain ⟨wfMiddle, hmiddle, hhas, hremains⟩ := hstable id middle hid
      obtain ⟨ids, after, hids, wfAfter, hafter, hall, hremain⟩ :=
        ih (fun other hother => hcall other (mem_cons_of_mem _ hother)) wfMiddle
          (hextends.trans hmiddle)
      refine ⟨id :: ids, after, ?_, wfAfter, hmiddle.trans hafter,
        forall_mem_cons.mpr ⟨hafter.has hhas, hall⟩,
        .cons (Remains.extends hremains hafter) hremain⟩
      rw [mapM_cons]
      exact hid.bind (hids.bind (gives_pure _))

/-- A computation in two steps that gives a result gives one in each step. -/
theorem exists_gives_of_bind {α β : Type} {x : Transform α} {f : α → Transform β}
    {store after : TypeStore} {b : β} (h : Gives (x >>= f) store b after) :
    ∃ a middle, Gives x store a middle ∧ Gives (f a) middle b after := by
  unfold Gives at h ⊢
  rw [ExceptT.run_bind, StateT.run_bind] at h
  generalize x.run.run store = answer at h ⊢
  obtain ⟨_ | a, middle⟩ := answer
  · cases h
  · exact ⟨a, middle, rfl, h⟩

/-- Lists are mapped to the same results by what gives at least the same for their elements. -/
theorem gives_mapM_mono {call call' : TypeId → Transform TypeId} {types ids : List TypeId}
    {target after : TypeStore}
    (hmono : ∀ ty store id later, Gives (call ty) store id later → Gives (call' ty) store id later)
    (h : Gives (types.mapM call) target ids after) : Gives (types.mapM call') target ids after := by
  induction types generalizing target ids after with
  | nil => exact h
  | cons ty types ih =>
      rw [mapM_cons] at h ⊢
      obtain ⟨id, middle, hid, hrest⟩ := exists_gives_of_bind h
      obtain ⟨others, last, hothers, hlast⟩ := exists_gives_of_bind hrest
      exact (hmono ty target id middle hid).bind ((ih hothers).bind hlast)

/-- Two relations one after the other, element by element. -/
theorem forall₂_of_forall₂ {α β γ : Type} {R : α → β → Prop} {S : β → γ → Prop} {T : α → γ → Prop}
    {as : List α} {bs : List β} {cs : List γ} (hR : Forall₂ R as bs)
    (hS : Forall₂ S bs cs) (h : ∀ a ∈ as, ∀ b c, R a b → S b c → T a c) :
    Forall₂ T as cs := by
  induction hR generalizing cs with
  | nil =>
      cases hS
      exact .nil
  | cons hab _ ih =>
      obtain _ | ⟨hbc, hS⟩ := hS
      exact .cons (h _ mem_cons_self _ _ hab hbc)
        (ih hS fun a ha => h a (mem_cons_of_mem _ ha))

theorem TypeKind.rebuild_rebuild {kind : TypeKind} {ids ids' : List TypeId}
    (h : ids.length = kind.children.length) (h' : ids'.length = kind.children.length) :
    (kind.rebuild ids).rebuild ids' = kind.rebuild ids' :=
  calc (kind.rebuild ids).rebuild ids' = (kind.rebuild ids).shape.rebuild ids' := by
        rw [rebuild_shape]
        rw [children_rebuild h, h, h']
    _ = kind.shape.rebuild ids' := by rw [shape_rebuild h]
    _ = kind.rebuild ids' := rebuild_shape h'

/-- The parameter stands somewhere in the type. -/
inductive TypeStore.Mentions (store : TypeStore) (parameter : GenericParameterId) : TypeId → Prop
  | here {ty : TypeId} (kind : store.kind ty = some (.genericParameter parameter)) :
      Mentions store parameter ty
  | part {ty child : TypeId} {kind : TypeKind} (is_kind : store.kind ty = some kind)
      (mem : child ∈ kind.children) (mentions : Mentions store parameter child) :
      Mentions store parameter ty

namespace Substitution

variable {substitution first second composite : Substitution} {store target after : TypeStore}
  {ty a b : TypeId} {kind : TypeKind} {depth : ℕ}

/-- The parameters are replaced by types of the store. -/
def Within (substitution : Substitution) (store : TypeStore) : Prop :=
  ∀ entry ∈ substitution, store.Has entry.2

theorem Within.extends (h : substitution.Within store) (hextends : store.Extends after) :
    substitution.Within after := fun entry hentry => hextends.has (h entry hentry)

/-! ## Depth -/

theorem gives_applyFrom_parameter {parameter : GenericParameterId}
    (hkind : store.kind ty = some (.genericParameter parameter)) (depth : ℕ) :
    Gives (substitution.applyFrom (depth + 1) ty) store
      ((substitution.lookup parameter).getD ty) store := by
  have hrun : (substitution.applyFrom (depth + 1) ty).run.run store =
      (substitution.applyKind (substitution.applyFrom depth) ty (store.kind ty)).run.run store :=
        rfl
  rw [Gives, hrun, hkind]
  rfl

/-- For the other kinds: what is done with the parts, and the kind built from the results. -/
theorem run_applyFrom_rebuilt (hkind : store.kind ty = some kind)
    (hparameter : ∀ parameter, kind ≠ .genericParameter parameter) (depth : ℕ) :
    (substitution.applyFrom (depth + 1) ty).run.run store =
      (do
        let children ← kind.children.mapM (substitution.applyFrom depth)
        interning (kind.rebuild children) : Transform TypeId).run.run store := by
  have hrun : (substitution.applyFrom (depth + 1) ty).run.run store =
      (substitution.applyKind (substitution.applyFrom depth) ty (store.kind ty)).run.run store :=
        rfl
  rw [hrun, hkind]
  cases kind with
  | genericParameter parameter => exact absurd rfl (hparameter parameter)
  | _ => rfl

theorem gives_applyFrom_rebuilt (hkind : store.kind ty = some kind)
    (hparameter : ∀ parameter, kind ≠ .genericParameter parameter) {ids : List TypeId}
    (hids : Gives (kind.children.mapM (substitution.applyFrom depth)) store ids after) :
    Gives (substitution.applyFrom (depth + 1) ty) store (after.intern (kind.rebuild ids)).1
      (after.intern (kind.rebuild ids)).2 := by
  rw [Gives, run_applyFrom_rebuilt hkind hparameter]
  exact hids.bind (gives_interning _)

/-- A greater depth gives the same. -/
theorem gives_applyFrom_mono (h : Gives (substitution.applyFrom depth ty) store a after) :
    Gives (substitution.applyFrom (depth + 1) ty) store a after := by
  induction depth generalizing ty store a after with
  | zero => cases (Prod.mk.inj h).1
  | succ depth ih =>
      cases hkind : store.kind ty with
      | none =>
          have hrun : (substitution.applyFrom (depth + 1) ty).run.run store =
              (substitution.applyKind (substitution.applyFrom depth) ty
                (store.kind ty)).run.run store := rfl
          rw [Gives, hrun, hkind] at h
          cases (Prod.mk.inj h).1
      | some kind =>
          by_cases hparameter : ∃ parameter, kind = .genericParameter parameter
          · obtain ⟨parameter, rfl⟩ := hparameter
            obtain ⟨rfl, rfl⟩ := h.unique (gives_applyFrom_parameter hkind depth)
            exact gives_applyFrom_parameter hkind (depth + 1)
          · have hne : ∀ parameter, kind ≠ .genericParameter parameter := fun parameter heq =>
              hparameter ⟨parameter, heq⟩
            rw [Gives, run_applyFrom_rebuilt hkind hne] at h ⊢
            obtain ⟨ids, middle, hids, hlast⟩ := exists_gives_of_bind h
            exact (gives_mapM_mono (fun _ _ _ _ hgives => ih hgives) hids).bind hlast

/-- Every type of a store has a result, in every extension of the store, if the depth is that of
its index. -/
theorem exists_gives_applyFrom (wf : store.WellFormed) (within : substitution.Within store)
    (has : store.Has ty) : ∀ depth > ty.index, ∀ target : TypeStore, target.WellFormed →
      store.Extends target →
        ∃ id after, Gives (substitution.applyFrom depth ty) target id after := by
  refine wf.induct (motive := fun ty => ∀ depth > ty.index, ∀ target : TypeStore,
    target.WellFormed → store.Extends target →
      ∃ id after, Gives (substitution.applyFrom depth ty) target id after) ?_ has
  intro ty kind hkind ih depth hdepth target wfTarget hextends
  obtain ⟨depth, rfl⟩ := Nat.exists_eq_add_one.mpr (Nat.zero_lt_of_lt hdepth)
  by_cases hparameter : ∃ parameter, kind = .genericParameter parameter
  · obtain ⟨parameter, rfl⟩ := hparameter
    exact ⟨_, _, gives_applyFrom_parameter (hextends _ _ hkind) depth⟩
  · have hne : ∀ parameter, kind ≠ .genericParameter parameter := fun parameter heq =>
      hparameter ⟨parameter, heq⟩
    have hcall : ∀ child ∈ kind.children, ∀ target : TypeStore, target.WellFormed →
        store.Extends target →
          ∃ id after, Gives (substitution.applyFrom depth child) target id after ∧
          Stable (substitution.applyFrom depth child) Has target := by
      intro child hchild target wfTarget hextends
      have hlt := wf.children_lt hkind child hchild
      obtain ⟨id, after, hid⟩ := ih child hchild depth (by omega) target wfTarget hextends
      exact ⟨id, after, hid, stable_applyFrom depth child wfTarget (within.extends hextends)⟩
    obtain ⟨ids, after, hids, -⟩ := exists_mapM_remains hcall wfTarget hextends
    have hgives := gives_applyFrom_rebuilt (hextends _ _ hkind) hne hids
    exact ⟨_, _, hgives⟩

theorem gives_applyFrom_of_apply (hdepth : ty.index < depth)
    (h : Gives (substitution.apply ty) store a after) :
    Gives (substitution.applyFrom depth ty) store a after := by
  obtain ⟨more, rfl⟩ := Nat.exists_eq_add_of_le hdepth
  clear hdepth
  induction more with
  | zero => exact h
  | succ more ih => exact gives_applyFrom_mono ih

/-- The depth does not matter as long as it is greater than the index. -/
theorem gives_applyFrom_iff (wf : store.WellFormed) (within : substitution.Within store)
    (has : store.Has ty) (hdepth : ty.index < depth) :
    Gives (substitution.applyFrom depth ty) store a after ↔
      Gives (substitution.apply ty) store a after := by
  refine ⟨fun h => ?_, gives_applyFrom_of_apply hdepth⟩
  obtain ⟨id, last, hgives⟩ :=
    exists_gives_applyFrom wf within has (ty.index + 1) (Nat.lt_succ_self _) store wf (.refl _)
  obtain ⟨rfl, rfl⟩ := h.unique (gives_applyFrom_of_apply hdepth hgives)
  exact hgives

/-! ## The homomorphism -/

theorem exists_gives_apply (wf : store.WellFormed) (within : substitution.Within store)
    (has : store.Has ty) : ∃ a after, Gives (substitution.apply ty) store a after :=
  exists_gives_applyFrom wf within has (ty.index + 1) (Nat.lt_succ_self _) store wf (.refl _)

/-- A parameter becomes what it is replaced by, or stays. -/
theorem settled_apply_parameter {parameter : GenericParameterId}
    (hkind : store.kind ty = some (.genericParameter parameter)) :
    Settled (substitution.apply ty) store a ↔ a = (substitution.lookup parameter).getD ty := by
  have hgives : Settled (substitution.apply ty) store ((substitution.lookup parameter).getD ty) :=
    gives_applyFrom_parameter hkind ty.index
  constructor
  · exact fun h => h.unique hgives
  · rintro rfl
    exact hgives

/-- The results for the parts, in the store in which all of them are there. -/
theorem exists_parts (wf : store.WellFormed) (within : substitution.Within store)
    (hkind : store.kind ty = some kind) :
    ∃ ids middle, Gives (kind.children.mapM (substitution.applyFrom ty.index)) store ids middle ∧
      middle.WellFormed ∧ store.Extends middle ∧ (∀ id ∈ ids, middle.Has id) ∧
      Forall₂ (fun child id => Remains (substitution.apply child) middle id)
        kind.children ids := by
  have hcall : ∀ child ∈ kind.children, ∀ target : TypeStore, target.WellFormed →
      store.Extends target → ∃ id after,
        Gives (substitution.applyFrom ty.index child) target id after ∧
        Stable (substitution.applyFrom ty.index child) Has target := by
    intro child hchild target wfTarget hextends
    obtain ⟨id, after, hid⟩ := exists_gives_applyFrom wf within (wf.has_child hkind hchild) ty.index
      (wf.children_lt hkind child hchild) target wfTarget hextends
    exact ⟨id, after, hid, stable_applyFrom _ child wfTarget (within.extends hextends)⟩
  obtain ⟨ids, middle, hids, wfMiddle, hmiddle, hhas, hremain⟩ :=
    exists_mapM_remains hcall wf (.refl _)
  refine ⟨ids, middle, hids, wfMiddle, hmiddle, hhas, ?_⟩
  have hparts : Forall₂ (fun child id => child ∈ kind.children ∧
      Remains (substitution.applyFrom ty.index child) middle id) kind.children ids :=
    (forall₂_and_left _ _).mpr ⟨fun _ hchild => hchild, hremain⟩
  refine hparts.imp fun child id hpart later wfLater hlater => ?_
  have hextends := hmiddle.trans hlater
  exact (gives_applyFrom_iff wfLater (within.extends hextends)
    (hextends.has (wf.has_child hkind hpart.1)) (wf.children_lt hkind child hpart.1)).mp
    (hpart.2 later wfLater hlater)

/-- **Applying a substitution is a homomorphism**: for every other kind the result is built from the
results for the parts. -/
theorem settled_apply_iff (wf : store.WellFormed) (within : substitution.Within store)
    (hkind : store.kind ty = some kind)
    (hparameter : ∀ parameter, kind ≠ .genericParameter parameter) :
    Settled (substitution.apply ty) store a ↔
      ∃ ids, Forall₂ (fun child id => Settled (substitution.apply child) store id)
        kind.children ids ∧ store.kind a = some (kind.rebuild ids) := by
  constructor
  · intro h
    obtain ⟨ids, middle, hids, wfMiddle, hmiddle, hhas, hremain⟩ := exists_parts wf within hkind
    have hchildren : (kind.rebuild ids).children = ids :=
      TypeKind.children_rebuild hremain.length_eq.symm
    obtain ⟨-, hextends, hlast⟩ := wfMiddle.intern (hchildren.symm ▸ hhas)
    obtain ⟨hid, hafter⟩ := Gives.unique h (gives_applyFrom_rebuilt hkind hparameter hids)
    rw [← hafter, ← hid] at hlast
    rw [← hafter] at hextends
    exact ⟨ids, hremain.imp fun _ _ hpart => hpart store wf hextends, hlast⟩
  · intro h
    obtain ⟨ids, hparts, ha⟩ := h
    have hdeep : Forall₂ (fun child id =>
        Gives (substitution.applyFrom ty.index child) store id store) kind.children ids := by
      have hboth := (forall₂_and_left kind.children ids).mpr ⟨fun _ hchild => hchild, hparts⟩
      exact hboth.imp fun child id hpart =>
        gives_applyFrom_of_apply (wf.children_lt hkind child hpart.1) hpart.2
    have hgives := gives_applyFrom_rebuilt hkind hparameter (mapM_gives hdeep)
    have hintern : store.intern (kind.rebuild ids) = (a, store) := by
      rw [TypeStore.intern, (wf.interned_iff _ a).mpr ha]
    rw [hintern] at hgives
    exact hgives

/-- The result is there, and stays. -/
theorem exists_gives_remains (wf : store.WellFormed) (within : substitution.Within store)
    (has : store.Has ty) :
    ∃ a after, Gives (substitution.apply ty) store a after ∧ after.WellFormed ∧
      store.Extends after ∧ after.Has a ∧ Remains (substitution.apply ty) after a := by
  obtain ⟨a, after, hgives⟩ := exists_gives_apply wf within has
  obtain ⟨wfAfter, hextends, hhas, hremains⟩ := stable_apply ty wf within a after hgives
  exact ⟨a, after, hgives, wfAfter, hextends, hhas, hremains⟩

/-! ## Composition -/

/-- The substitution maps each parameter to what the second gives for what the first gives. -/
def Composite (first second composite : Substitution) (store : TypeStore) : Prop :=
  ∀ ty parameter, store.kind ty = some (.genericParameter parameter) →
    ∃ a b, Settled (first.apply ty) store a ∧ Settled (second.apply a) store b ∧
      Settled (composite.apply ty) store b

/-- **What holds of the parameters holds of all types.** -/
theorem settled_composite (wf : store.WellFormed) (hfirst : first.Within store)
    (hsecond : second.Within store) (hcomposite : composite.Within store)
    (hmaps : Composite first second composite store) (has : store.Has ty) :
    ∀ a b, Settled (first.apply ty) store a → Settled (second.apply a) store b →
      Settled (composite.apply ty) store b := by
  refine wf.induct (motive := fun ty => ∀ a b, Settled (first.apply ty) store a →
    Settled (second.apply a) store b → Settled (composite.apply ty) store b) ?_ has
  intro ty kind hkind ih a b ha hb
  by_cases hparameter : ∃ parameter, kind = .genericParameter parameter
  · obtain ⟨parameter, rfl⟩ := hparameter
    obtain ⟨a', b', ha', hb', hc⟩ := hmaps ty parameter hkind
    obtain rfl := ha.unique ha'
    obtain rfl := hb.unique hb'
    exact hc
  · have hne : ∀ parameter, kind ≠ .genericParameter parameter := fun parameter heq =>
      hparameter ⟨parameter, heq⟩
    obtain ⟨ids, hids, hkindA⟩ := (settled_apply_iff wf hfirst hkind hne).mp ha
    have hneA := TypeKind.rebuild_ne_genericParameter hne ids
    obtain ⟨ids', hids', hkindB⟩ := (settled_apply_iff wf hsecond hkindA hneA).mp hb
    rw [TypeKind.children_rebuild hids.length_eq.symm] at hids'
    have hlength : ids'.length = kind.children.length :=
      hids'.length_eq.symm.trans hids.length_eq.symm
    rw [TypeKind.rebuild_rebuild hids.length_eq.symm hlength] at hkindB
    have hparts := forall₂_of_forall₂ hids hids' ih
    exact (settled_apply_iff wf hcomposite hkind hne).mpr ⟨ids', hparts, hkindB⟩

/-- What the second substitution gives for the types of the first one, and then the second one. -/
def andThen (first second : Substitution) : Transform Substitution := do
  let images ← (first.map Prod.snd).mapM second.apply
  pure ((first.map Prod.fst).zip images ++ second)

theorem lookup_zip_append {R : TypeId → TypeId → Prop} {images : List TypeId}
    (h : Forall₂ R (first.map Prod.snd) images) (parameter : GenericParameterId) :
    (∃ t id, first.lookup parameter = some t ∧ R t id ∧
      ((first.map Prod.fst).zip images ++ second).lookup parameter = some id) ∨
    (first.lookup parameter = none ∧
      ((first.map Prod.fst).zip images ++ second).lookup parameter = second.lookup parameter) := by
  induction first generalizing images with
  | nil => exact .inr ⟨rfl, rfl⟩
  | cons entry first ih =>
      obtain ⟨p, t⟩ := entry
      rw [map_cons] at h
      obtain _ | ⟨hid, hrest⟩ := h
      rename_i id images
      simp only [map_cons, zip_cons_cons, cons_append, lookup_cons]
      by_cases hp : parameter = p
      · subst hp
        simp only [BEq.rfl]
        exact .inl ⟨t, id, rfl, hid, rfl⟩
      · have hne : (parameter == p) = false := by simpa using hp
        simp only [hne]
        exact ih hrest

theorem exists_andThen (wf : store.WellFormed) (hfirst : first.Within store)
    (hsecond : second.Within store) :
    ∃ composite after, Gives (first.andThen second) store composite after ∧ after.WellFormed ∧
      store.Extends after ∧ composite.Within after ∧ Composite first second composite after := by
  have hcall : ∀ ty ∈ first.map Prod.snd, ∀ target : TypeStore, target.WellFormed →
      store.Extends target → ∃ id after, Gives (second.apply ty) target id after ∧
        Stable (second.apply ty) Has target := by
    intro ty hty target wfTarget hextends
    obtain ⟨entry, hentry, rfl⟩ := mem_map.mp hty
    obtain ⟨id, after, hid⟩ := exists_gives_apply wfTarget (hsecond.extends hextends)
      (hextends.has (hfirst entry hentry))
    exact ⟨id, after, hid, stable_apply _ wfTarget (hsecond.extends hextends)⟩
  obtain ⟨images, after, himages, wfAfter, hextends, hhas, hremain⟩ :=
    exists_mapM_remains hcall wf (.refl _)
  refine ⟨(first.map Prod.fst).zip images ++ second, after, himages.bind (gives_pure _), wfAfter,
    hextends, ?_, ?_⟩
  · intro entry hentry
    rcases mem_append.mp hentry with hentry | hentry
    · exact hhas _ (of_mem_zip hentry).2
    · exact hsecond.extends hextends entry hentry
  · intro ty parameter hkind
    rcases @lookup_zip_append first second _ _ hremain parameter with hin | hout
    · obtain ⟨t, id, hlookup, hid, hcomposite⟩ := hin
      refine ⟨t, id, (settled_apply_parameter hkind).mpr ?_, hid after wfAfter (.refl _),
        (settled_apply_parameter hkind).mpr ?_⟩
      · rw [hlookup, Option.getD_some]
      · rw [hcomposite, Option.getD_some]
    · obtain ⟨hlookup, hcomposite⟩ := hout
      refine ⟨ty, (second.lookup parameter).getD ty, (settled_apply_parameter hkind).mpr ?_,
        (settled_apply_parameter hkind).mpr rfl, (settled_apply_parameter hkind).mpr ?_⟩
      · rw [hlookup, Option.getD_none]
      · rw [hcomposite]

/-! ## Types without the parameters -/

/-- A type stays what it is, in the store as it is, if none of its parameters is replaced. -/
theorem settled_of_not_mentions (wf : store.WellFormed) (within : substitution.Within store)
    (has : store.Has ty) :
    (∀ parameter, store.Mentions parameter ty → substitution.lookup parameter = none) →
      Settled (substitution.apply ty) store ty := by
  refine wf.induct (motive := fun ty =>
    (∀ parameter, store.Mentions parameter ty → substitution.lookup parameter = none) →
      Settled (substitution.apply ty) store ty) ?_ has
  intro ty kind hkind ih houtside
  by_cases hparameter : ∃ parameter, kind = .genericParameter parameter
  · obtain ⟨parameter, rfl⟩ := hparameter
    refine (settled_apply_parameter hkind).mpr ?_
    rw [houtside parameter (.here hkind), Option.getD_none]
  · have hne : ∀ parameter, kind ≠ .genericParameter parameter := fun parameter heq =>
      hparameter ⟨parameter, heq⟩
    refine (settled_apply_iff wf within hkind hne).mpr ⟨kind.children, ?_, ?_⟩
    · refine forall₂_same.mpr fun child hchild => ih child hchild fun parameter hmentions => ?_
      exact houtside parameter (.part hkind hchild hmentions)
    · rw [hkind, kind.rebuild_children]

/-! ## One type and two substitutions -/

/-- The result for a parameter is what it is replaced by, and that for another kind is built from
the results for the parts. -/
def Homomorphic (substitution : Substitution) (store : TypeStore) (ty a : TypeId) : Prop :=
  match store.kind ty with
  | none => False
  | some (.genericParameter parameter) => a = (substitution.lookup parameter).getD ty
  | some kind => ∃ ids, Forall₂ (fun child id => Settled (substitution.apply child) store id)
      kind.children ids ∧ store.kind a = some (kind.rebuild ids)

theorem homomorphic_of_settled (wf : store.WellFormed) (within : substitution.Within store)
    (has : store.Has ty) (h : Settled (substitution.apply ty) store a) :
    Homomorphic substitution store ty a := by
  obtain ⟨kind, hkind⟩ := has
  unfold Homomorphic
  rw [hkind]
  cases kind with
  | genericParameter => exact (settled_apply_parameter hkind).mp h
  | _ => exact (settled_apply_iff wf within hkind fun _ heq => by cases heq).mp h

/-- What is asked of applying a substitution to a type, also before a second one: a result built by
the same constructors, which is the type itself if none of its parameters is replaced, and from
which the second leads to what their composite gives at once.  There is a composite, and any will
do. -/
structure Applies (first second : Substitution) (store : TypeStore) (ty a : TypeId)
    (after : TypeStore) : Prop where
  gives : Gives (first.apply ty) store a after
  homomorphic : Homomorphic first after ty a
  unchanged : (∀ parameter, store.Mentions parameter ty → first.lookup parameter = none) →
    a = ty ∧ after = store
  composes : ∃ b last, Gives (second.apply a) after b last ∧
    (∃ composite final, Gives (first.andThen second) last composite final ∧ final.WellFormed ∧
      last.Extends final ∧ composite.Within final ∧ Composite first second composite final) ∧
    ∀ composite later, later.WellFormed → last.Extends later → composite.Within later →
      Composite first second composite later → Gives (composite.apply ty) later b later

/-- **Substitutions are homomorphisms and compose**, for every type of every store. -/
theorem exists_applies (reachable : store.Reachable) (hfirst : first.Within store)
    (hsecond : second.Within store) (has : store.Has ty) :
    ∃ a after, Applies first second store ty a after := by
  have wf := reachable.wellFormed
  obtain ⟨a, after, hgives, wfAfter, hextends, hhas, hremains⟩ :=
    exists_gives_remains wf hfirst has
  have hfirst' := hfirst.extends hextends
  have hsecond' := hsecond.extends hextends
  refine ⟨a, after, hgives, ?_, fun houtside => ?_, ?_⟩
  · exact homomorphic_of_settled wfAfter hfirst' (hextends.has has)
      (hremains after wfAfter (.refl _))
  · exact hgives.unique (settled_of_not_mentions wf hfirst has houtside)
  · obtain ⟨b, last, hgives', wfLast, hlast, -, hremains'⟩ :=
      exists_gives_remains wfAfter hsecond' hhas
    refine ⟨b, last, hgives', exists_andThen wfLast (hfirst'.extends hlast)
      (hsecond'.extends hlast), ?_⟩
    intro composite later wfLater hlater hwithin hmaps
    exact settled_composite wfLater ((hfirst'.extends hlast).extends hlater)
      ((hsecond'.extends hlast).extends hlater) hwithin hmaps
      (hlater.has (hlast.has (hextends.has has))) a b
      (hremains later wfLater (hlast.trans hlater)) (hremains' later wfLater hlater)

/-- A store that has an option of a parameter. -/
def withParameter : TypeStore :=
  ((new.intern (.genericParameter ⟨7, 0⟩)).2.intern (.option ⟨24⟩)).2

/-- The parameter of an option is replaced by the option itself, and then by the 32-bit integers. -/
theorem exists_applies_option :
    ∃ a after, Applies [(⟨7, 0⟩, ⟨25⟩)] [(⟨7, 0⟩, ⟨8⟩)] withParameter ⟨25⟩ a after :=
  have nothing : ∀ child ∈ (TypeKind.genericParameter ⟨7, 0⟩).children, new.Has child :=
    fun _ hchild => absurd hchild not_mem_nil
  exists_applies
    (.intern (.intern .new _ nothing) _ (forall_mem_singleton.mpr (has_of_lt (by decide))))
    (forall_mem_singleton.mpr (has_of_lt (by decide)))
    (forall_mem_singleton.mpr (has_of_lt (by decide))) (has_of_lt (by decide))

end Substitution

end Jadren.Types

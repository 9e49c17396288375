import Jadren.Types.Unify
import Mathlib.Order.WellFounded

/-!
# What unifying adds

Types without Error and Never are unified by their shape: a kind is a shape and parts,
and unifying two kinds unifies their parts pairwise (`KindsUnify`).  The induction over
calls proves, whatever is returned, that the context only grows and its bindings stay
triangular, and that a successful call adds exactly the equations asked for: a
substitution satisfies the new bindings iff it satisfies the old ones and makes the two
types equal (`unified_unify`).
-/

namespace Jadren.Types

open Unification TypeKind Inference List TypeStore.WellFormed

namespace Inference

variable {α β : Type} {context after : InferenceContext}

/-! ## Kinds by their shape -/

theorem unifyLists_append (unify : TypeId → TypeId → Inference TypeId) {lefts rights : List TypeId}
    (h : lefts.length = rights.length) (left right : TypeId) :
    unifyLists unify (lefts ++ [left]) (rights ++ [right]) = do
      let types ← unifyLists unify lefts rights
      let type ← unify left right
      return types ++ [type] := by
  induction lefts generalizing rights with
  | nil =>
      obtain rfl : rights = [] := length_eq_zero_iff.mp h.symm
      simp [unifyLists]
  | cons first rest ih =>
      cases rights with
      | nil => cases h
      | cons => simp [unifyLists, ih (Nat.succ.inj h)]

/-- What unifying two types of known kinds does. -/
inductive KindsUnify (unify : TypeId → TypeId → Inference TypeId)
    (bind : TypeVariableId → TypeId → Inference Unit) (left right : TypeId) :
    TypeKind → TypeKind → Inference TypeId → Prop
  | error {leftKind rightKind} (h : leftKind = .error ∨ rightKind = .error) :
      KindsUnify unify bind left right leftKind rightKind
        (do return (← get).store.core.error)
  | neverLeft {rightKind} : KindsUnify unify bind left right .never rightKind (pure right)
  | neverRight {leftKind} : KindsUnify unify bind left right leftKind .never (pure left)
  | bindLeft {var rightKind} :
      KindsUnify unify bind left right (.inferenceVariable var) rightKind
        (do bind var right; return right)
  | bindRight {var leftKind} :
      KindsUnify unify bind left right leftKind (.inferenceVariable var)
        (do bind var left; return left)
  | parts {leftKind rightKind} (left_ne : ∀ v, leftKind ≠ .inferenceVariable v)
      (right_ne : ∀ v, rightKind ≠ .inferenceVariable v)
        (shape : leftKind.shape = rightKind.shape) :
      KindsUnify unify bind left right leftKind rightKind
        (do
          let types ← unifyLists unify leftKind.children rightKind.children
          interning (leftKind.rebuild types))
  | mismatch {leftKind rightKind} :
      KindsUnify unify bind left right leftKind rightKind (throw (.mismatch left right))

/-- What unifying two types of known kinds does, however parts are unified and variables bound. -/
inductive UnifyCase (left right : TypeId) (leftKind rightKind : TypeKind) : Prop
  | error (kind_eq : leftKind = .error ∨ rightKind = .error)
      (call_eq : ∀ unify bind, unifyKinds unify bind left right leftKind rightKind =
        (do return (← get).store.core.error))
  | neverLeft (kind_eq : leftKind = .never)
      (call_eq : ∀ unify bind, unifyKinds unify bind left right leftKind rightKind = pure right)
  | neverRight (kind_eq : rightKind = .never)
      (call_eq : ∀ unify bind, unifyKinds unify bind left right leftKind rightKind = pure left)
  | bindLeft (var : TypeVariableId) (kind_eq : leftKind = .inferenceVariable var)
      (call_eq : ∀ unify bind, unifyKinds unify bind left right leftKind rightKind =
        (do bind var right; return right))
  | bindRight (var : TypeVariableId) (kind_eq : rightKind = .inferenceVariable var)
      (call_eq : ∀ unify bind, unifyKinds unify bind left right leftKind rightKind =
        (do bind var left; return left))
  | parts (left_ne : ∀ v, leftKind ≠ .inferenceVariable v)
      (right_ne : ∀ v, rightKind ≠ .inferenceVariable v) (shape : leftKind.shape = rightKind.shape)
      (call_eq : ∀ unify bind, unifyKinds unify bind left right leftKind rightKind =
        (do
          let types ← unifyLists unify leftKind.children rightKind.children
          interning (leftKind.rebuild types)))
  | mismatch (call_eq : ∀ unify bind, unifyKinds unify bind left right leftKind rightKind =
      throw (.mismatch left right))

theorem unifyCase (left right : TypeId) (leftKind rightKind : TypeKind) :
    UnifyCase left right leftKind rightKind := by
  fun_cases unifyKinds (fun left _ => pure left) (fun _ _ => pure ()) left right leftKind rightKind
  case case1 => exact .error (.inl rfl) fun _ _ => by simp only [unifyKinds]
  case case2 => exact .error (.inr rfl) fun _ _ => by rw [unifyKinds]; assumption
  case case3 => exact .neverLeft rfl fun _ _ => by rw [unifyKinds]; assumption
  case case4 => exact .neverRight rfl fun _ _ => by rw [unifyKinds] <;> assumption
  case case5 => exact .bindLeft _ rfl fun _ _ => by rw [unifyKinds] <;> assumption
  case case6 => exact .bindRight _ rfl fun _ _ => by rw [unifyKinds] <;> assumption
  case case16 constructor lefts constructor' rights h =>
    obtain ⟨rfl, hlength⟩ := h
    refine .parts (by simp) (by simp) ?_ fun unify bind => ?_
    · simp [TypeKind.shape, rebuild, children, map_const', hlength]
    · simp [unifyKinds, rebuild, children, hlength]
  case case18 lefts left rights right hlength =>
    refine .parts (by simp) (by simp) ?_ fun unify bind => ?_
    · simp [TypeKind.shape, rebuild, children, map_const', hlength]
    · simp [unifyKinds, rebuild, children, hlength,
        unifyLists_append unify hlength]
  case case8 | case10 | case17 | case19 | case21 =>
    exact .mismatch fun _ _ => by simp_all [unifyKinds]
  case case22 => exact .mismatch fun _ _ => by rw [unifyKinds] <;> assumption
  all_goals
    refine .parts (by simp) (by simp) rfl fun unify bind => ?_
    simp [unifyKinds, rebuild, children, unifyLists]

theorem kindsUnify (unify : TypeId → TypeId → Inference TypeId)
    (bind : TypeVariableId → TypeId → Inference Unit) (left right : TypeId)
    (leftKind rightKind : TypeKind) :
    KindsUnify unify bind left right leftKind rightKind
      (unifyKinds unify bind left right leftKind rightKind) := by
  obtain ⟨kind_eq, call_eq⟩ | ⟨rfl, call_eq⟩ | ⟨rfl, call_eq⟩ | ⟨var, rfl, call_eq⟩ |
    ⟨var, rfl, call_eq⟩ | ⟨left_ne, right_ne, shape, call_eq⟩ | ⟨call_eq⟩ :=
    unifyCase left right leftKind rightKind <;> rw [call_eq]
  · exact .error kind_eq
  · exact .neverLeft
  · exact .neverRight
  · exact .bindLeft
  · exact .bindRight
  · exact .parts left_ne right_ne shape
  · exact .mismatch

theorem resolveKind_eq (resolve : TypeId → Inference TypeId) (kind : TypeKind) :
    resolveKind resolve kind = do
      let types ← kind.children.mapM resolve
      return kind.rebuild types := by
  cases kind <;> simp [resolveKind, children, rebuild]

end Inference

namespace InferenceContext

variable {α : Type}

theorem anyM_singleton (query : α → Option Bool) (a : α) : [a].anyM query = query a := by
  cases h : query a with
  | none => simp [h]
  | some found => cases found <;> simp [h]

theorem anyM_append_singleton (query : α → Option Bool) (l : List α) (a : α) :
    (l ++ [a]).anyM query =
      (l.anyM query).bind fun found => if found then some true else query a := by
  induction l with
  | nil => exact anyM_singleton query a
  | cons b rest ih =>
      cases h : query b with
      | none => simp [h]
      | some found => cases found <;> simp [h, ih]

/-- A query that answers whether a property holds, asked of a list. -/
theorem anyM_iff {query : α → Option Bool} {P : α → Prop} {l : List α} {found : Bool}
    (hquery : ∀ a ∈ l, ∀ answer, query a = some answer → (answer = true ↔ P a))
    (h : l.anyM query = some found) : found = true ↔ ∃ a ∈ l, P a := by
  induction l with
  | nil =>
      obtain rfl : false = found := by simpa using h
      simp
  | cons a rest ih =>
      cases ha : query a with
      | none => simp [ha] at h
      | some answer =>
          have hanswer := hquery a (mem_cons_self ..) answer ha
          cases answer with
          | true =>
              obtain rfl : true = found := by simpa [ha] using h
              simpa using .inl (hanswer.mp rfl)
          | false =>
              have hrest := ih (fun b hb => hquery b (mem_cons_of_mem _ hb))
                (by simpa [ha] using h)
              have hnot : ¬ P a := fun hP => by simpa using hanswer.mpr hP
              simpa [hnot] using hrest

theorem occurs_eq (context : InferenceContext) (var : TypeVariableId) (fuel : ℕ) (ty : TypeId) :
    context.occurs var (fuel + 1) ty = (context.resolveShallow fuel ty).bind fun ty =>
      match context.store.kind ty with
      | some (.inferenceVariable other) => some (other == var)
      | some kind => kind.children.anyM (context.occurs var fuel)
      | none => some false := by
  rw [occurs]
  cases context.resolveShallow fuel ty with
  | none => rfl
  | some ty =>
      simp only [Option.bind_eq_bind, Option.bind_some]
      cases context.store.kind ty with
      | none => rfl
      | some kind =>
          cases kind with
          | result ok error =>
              have happend := anyM_append_singleton (context.occurs var fuel) [ok] error
              rw [anyM_singleton] at happend
              exact happend.symm
          | function parameters result =>
              exact (anyM_append_singleton (context.occurs var fuel) parameters result).symm
          | nominal | inferenceVariable => rfl
          | vector | array | buffer | slice | pointer | option | capability =>
              exact (anyM_singleton _ _).symm
          | _ => rfl

/-! ## The bindings of a context -/

/-- What the variables are bound to, as terms. -/
def bindings (context : InferenceContext) : Bindings TypeKind TypeVariableId := fun var =>
  (context.binding var).map context.store.term

/-- The types of the store and the bindings fit together, and no chain of bindings goes on
for ever. -/
structure WellFormed (context : InferenceContext) : Prop where
  store : context.store.WellFormed
  error : context.store.Has context.store.core.error
  bound : ∀ {var ty}, context.binding var = some ty → context.store.Has ty
  triangular : context.bindings.Triangular

/-- Types stay what they are, and bindings stay. -/
structure Grows (context after : InferenceContext) : Prop where
  store : context.store.Extends after.store
  binding : ∀ {var ty}, context.binding var = some ty → after.binding var = some ty

theorem Grows.refl (context : InferenceContext) : context.Grows context :=
  ⟨TypeStore.Extends.refl _, id⟩

variable {middle : InferenceContext}

theorem Grows.trans {context after : InferenceContext} (h : context.Grows middle)
    (h' : middle.Grows after) : context.Grows after :=
  ⟨h.store.trans h'.store, fun hbinding => h'.binding (h.binding hbinding)⟩

variable {context after : InferenceContext}

variable {var : TypeVariableId}

theorem bindings_eq_some {t : Term TypeKind TypeVariableId} :
    context.bindings var = some t ↔ ∃ ty, context.binding var = some ty ∧
    context.store.term ty = t := by
  simp [bindings]

variable {kind : TypeKind}

/-- Interning a kind built from types of the context changes no binding. -/
theorem WellFormed.intern (wf : context.WellFormed)
    (hchildren : ∀ child ∈ kind.children, context.store.Has child) :
    (context.intern kind).2.WellFormed ∧ context.Grows (context.intern kind).2 ∧
      (context.intern kind).2.bindings = context.bindings ∧
      (context.intern kind).2.store.kind (context.intern kind).1 = some kind := by
  obtain ⟨hstore, hextends, hkind⟩ := wf.store.intern hchildren
  have hbindings : (context.intern kind).2.bindings = context.bindings := by
    funext var
    show (context.binding var).map _ = (context.binding var).map _
    cases hbinding : context.binding var with
    | none => rfl
    | some =>
        exact congrArg some (wf.store.term_extends hstore hextends (wf.bound hbinding))
  have hcore : (context.intern kind).2.store.core = context.store.core := by
    show (context.store.intern kind).2.core = _
    unfold TypeStore.intern
    split <;> rfl
  refine ⟨⟨hstore, ?_, fun hbinding => hextends.has (wf.bound hbinding), ?_⟩,
    ⟨hextends, id⟩, hbindings, hkind⟩
  · rw [hcore]
    exact hextends.has wf.error
  · rw [hbindings]
    exact wf.triangular

/-! ## Following bindings -/

/-- A set of types without Error and Never that parts and bindings do not lead out of. -/
def Closed (context : InferenceContext) (S : TypeId → Prop) : Prop :=
  ∀ ty, S ty → ∃ kind, context.store.kind ty = some kind ∧ kind ≠ .error ∧ kind ≠ .never ∧
    (∀ child ∈ kind.children, S child) ∧
    ∀ var bound, kind = .inferenceVariable var → context.binding var = some bound → S bound

variable {ty : TypeId}

/-- A type that is Error or Never is in no closed set. -/
theorem Closed.kind_ne {S : TypeId → Prop} (hS : context.Closed S) (hty : S ty)
    (hkind : context.store.kind ty = some kind) : kind ≠ .error ∧ kind ≠ .never := by
  obtain ⟨kind', hkind', herror, hnever, -⟩ := hS ty hty
  obtain rfl : kind = kind' := by simpa [hkind] using hkind'
  exact ⟨herror, hnever⟩

theorem Closed.parts {S : TypeId → Prop} (hS : context.Closed S) (hty : S ty)
    (hkind : context.store.kind ty = some kind) : ∀ child ∈ kind.children, S child := by
  obtain ⟨kind', hkind', -, -, hchildren, -⟩ := hS ty hty
  obtain rfl : kind = kind' := by simpa [hkind] using hkind'
  exact hchildren

/-- The second type is where the bindings of the first lead. -/
structure Follows (context : InferenceContext) (ty last : TypeId) : Prop where
  has : context.store.Has last
  image : ∀ σ, context.bindings.Satisfied σ →
    (context.store.term last).subst σ = (context.store.term ty).subst σ
  unbound : ∀ var, context.store.kind last = some (.inferenceVariable var) →
    context.binding var = none
  closed : ∀ S, context.Closed S → S ty → S last

theorem WellFormed.binding_ne (wf : context.WellFormed)
    (hkind : context.store.kind ty = some (.inferenceVariable var)) :
    context.binding var ≠ some ty := by
  intro hbinding
  have hterm := term_variable hkind
  apply wf.triangular.irrefl.irrefl var
  exact ⟨_, bindings_eq_some.mpr ⟨ty, hbinding, hterm⟩, .here⟩

variable {fuel : ℕ}

theorem WellFormed.follows (wf : context.WellFormed) {last : TypeId} (hty : context.store.Has ty)
    (h : context.resolveShallow fuel ty = some last) : context.Follows ty last := by
  induction fuel generalizing ty with
  | zero => cases h
  | succ fuel ih =>
      have hstop : ty = last → (∀ var, context.store.kind ty = some (.inferenceVariable var) →
          context.binding var = none) → context.Follows ty last := by
        rintro rfl hunbound
        exact ⟨hty, fun _ _ => rfl, hunbound, fun _ _ hS => hS⟩
      obtain ⟨kind, hkind⟩ := hty
      by_cases hvariable : ∃ var, kind = .inferenceVariable var
      · obtain ⟨var, rfl⟩ := hvariable
        cases hbinding : context.binding var with
        | none =>
            apply hstop (by simpa [resolveShallow, hkind, hbinding] using h)
            intro other hother
            obtain rfl : var = other := by simpa [hkind] using hother
            exact hbinding
        | some bound =>
            have hne : bound ≠ ty := fun heq => wf.binding_ne hkind (heq ▸ hbinding)
            have hnext := ih (wf.bound hbinding)
              (by simpa [resolveShallow, hkind, hbinding, hne] using h)
            refine ⟨hnext.has, fun σ hσ => ?_, hnext.unbound, fun S hS hmem => ?_⟩
            · rw [hnext.image σ hσ, term_variable hkind, Term.subst_var]
              exact (hσ var _ (bindings_eq_some.mpr ⟨bound, hbinding, rfl⟩)).symm
            · obtain ⟨kind, hkind', -, -, -, hbound⟩ := hS ty hmem
              obtain rfl : .inferenceVariable var = kind := by simpa [hkind] using hkind'
              exact hnext.closed S hS (hbound var bound rfl hbinding)
      · have hne : ∀ var, kind ≠ .inferenceVariable var := fun var heq => hvariable ⟨var, heq⟩
        apply hstop
        · rw [resolveShallow, hkind] at h
          cases kind with
          | inferenceVariable var => exact absurd rfl (hne var)
          | _ => simpa using h
        · intro var hvar
          rw [hkind] at hvar
          exact absurd (Option.some.inj hvar) (hne var)

/-- What `occurs` answers is about the solved type. -/
theorem WellFormed.occurs_iff (wf : context.WellFormed)
    {ρ : TypeVariableId → Term TypeKind TypeVariableId} (hρ : context.bindings.SolvedBy ρ)
    {answer : Bool} (hty : context.store.Has ty) (h : context.occurs var fuel ty = some answer) :
    answer = true ↔ ((context.store.term ty).subst ρ).Occurs var := by
  induction fuel generalizing ty answer with
  | zero => cases h
  | succ fuel ih =>
      rw [occurs_eq] at h
      obtain ⟨last, hlast, h⟩ := Option.bind_eq_some_iff.mp h
      have follows := wf.follows hty hlast
      obtain ⟨kind, hkind⟩ := follows.has
      rw [← follows.image ρ hρ.satisfied]
      rw [hkind] at h
      by_cases hvariable : ∃ other, kind = .inferenceVariable other
      · obtain ⟨other, rfl⟩ := hvariable
        have hnone : context.bindings other = none := by
          simp [bindings, follows.unbound other hkind]
        obtain rfl : (other == var) = answer := by simpa using h
        rw [term_variable hkind, Term.subst_var, hρ.of_none hnone,
          beq_iff_eq, Term.occurs_var]
        exact eq_comm
      · have hne : ∀ v, kind ≠ .inferenceVariable v := fun v heq => hvariable ⟨v, heq⟩
        have hany : kind.children.anyM (context.occurs var fuel) = some answer := by
          cases kind with
          | inferenceVariable v => exact absurd rfl (hne v)
          | _ => exact h
        rw [wf.store.term_eq hkind hne, Term.subst_node, Term.occurs_node, anyM_iff
          (fun child hchild found hfound => ih (wf.store.has_child hkind hchild) hfound) hany]
        simp

/-! ## What unifying does -/

/-- The terms of types under a substitution. -/
def images (context : InferenceContext) (σ : TypeVariableId → Term TypeKind TypeVariableId)
    (types : List TypeId) : List (Term TypeKind TypeVariableId) :=
  types.map fun ty => (context.store.term ty).subst σ

/-- What unifying types pairwise does, whatever it returns: the context grows, and as long as
no Error and no Never is met, a successful call adds exactly the equations asked for. -/
structure Unified (context : InferenceContext) (lefts rights : List TypeId)
    (returned : Except UnifyError (List TypeId)) (after : InferenceContext) : Prop where
  wellFormed : after.WellFormed
  grows : context.Grows after
  has : ∀ types, returned = .ok types → ∀ ty ∈ types, after.store.Has ty
  closed : ∀ S, context.Closed S → (∀ ty ∈ lefts, S ty) → (∀ ty ∈ rights, S ty) → after.Closed S
  solutions : ∀ S, context.Closed S → (∀ ty ∈ lefts, S ty) → (∀ ty ∈ rights, S ty) →
    ∀ types, returned = .ok types → ∀ σ,
      (after.bindings.Satisfied σ ↔
        context.bindings.Satisfied σ ∧ context.images σ lefts = context.images σ rights) ∧
      (after.bindings.Satisfied σ → after.images σ types = context.images σ lefts)

theorem images_append (context : InferenceContext)
    (σ : TypeVariableId → Term TypeKind TypeVariableId) (types types' : List TypeId) :
    context.images σ (types ++ types') = context.images σ types ++ context.images σ types' :=
  map_append

variable {types : List TypeId}

theorem WellFormed.images_of_grows (wf : context.WellFormed) (wf' : after.WellFormed)
    (grows : context.Grows after) {σ : TypeVariableId → Term TypeKind TypeVariableId}
    (h : ∀ ty ∈ types, context.store.Has ty) : after.images σ types = context.images σ types := by
  apply map_congr_left
  intro ty hty
  rw [wf.store.term_extends wf'.store grows.store (h ty hty)]

variable {lefts rights : List TypeId}

/-- A call that fails without having changed anything. -/
theorem Unified.of_error (wf : context.WellFormed) (error : UnifyError) :
    context.Unified lefts rights (.error error) context :=
  ⟨wf, .refl context, fun _ h => (by cases h), fun _ hS _ _ => hS, fun _ _ _ _ _ h => (by cases h)⟩

variable {lefts' rights' : List TypeId} {returned : Except UnifyError (List TypeId)}

theorem Unified.append (wf : context.WellFormed) (hlength : lefts.length = rights.length)
    (hlefts : ∀ ty ∈ lefts', context.store.Has ty)
    (hrights : ∀ ty ∈ rights', context.store.Has ty)
    (h : context.Unified lefts rights (.ok types) middle)
    (h' : middle.Unified lefts' rights' returned after) :
    context.Unified (lefts ++ lefts') (rights ++ rights')
      (returned.map fun types' => types ++ types') after := by
  refine ⟨h'.wellFormed, h.grows.trans h'.grows, ?_, ?_, ?_⟩
  · intro all hall ty hty
    cases returned with
    | error => cases hall
    | ok types' =>
        obtain rfl : types ++ types' = all := by simpa [Except.map] using hall
        obtain hfirst | hsecond := mem_append.mp hty
        · exact h'.grows.store.has (h.has types rfl ty hfirst)
        · exact h'.has types' rfl ty hsecond
  · intro S hS hl hr
    simp only [mem_append] at hl hr
    exact h'.closed S (h.closed S hS (fun ty hty => hl ty (.inl hty))
      fun ty hty => hr ty (.inl hty)) (fun ty hty => hl ty (.inr hty))
      fun ty hty => hr ty (.inr hty)
  · intro S hS hl hr all hall σ
    simp only [mem_append] at hl hr
    cases returned with
    | error => cases hall
    | ok types' =>
        obtain rfl : types ++ types' = all := by simpa [Except.map] using hall
        have hfirst := h.solutions S hS (fun ty hty => hl ty (.inl hty))
          (fun ty hty => hr ty (.inl hty)) types rfl σ
        have hS' := h.closed S hS (fun ty hty => hl ty (.inl hty))
          fun ty hty => hr ty (.inl hty)
        have hsecond := h'.solutions S hS' (fun ty hty => hl ty (.inr hty))
          (fun ty hty => hr ty (.inr hty)) types' rfl σ
        have hl' := wf.images_of_grows h.wellFormed h.grows (σ := σ) hlefts
        have hr' := wf.images_of_grows h.wellFormed h.grows (σ := σ) hrights
        -- lists of one length are equal pairwise
        have hsplit : (context.images σ lefts ++ context.images σ lefts' =
            context.images σ rights ++ context.images σ rights') ↔
            context.images σ lefts = context.images σ rights ∧
              context.images σ lefts' = context.images σ rights' :=
          ⟨fun heq => append_inj heq (by simp [images, hlength]), fun heq => by rw [heq.1, heq.2]⟩
        constructor
        · rw [hsecond.1, hfirst.1, hl', hr', images_append, images_append, hsplit, and_assoc]
        · intro hσ
          have hmiddle := hsecond.1.mp hσ
          rw [images_append, images_append, hsecond.2 hσ, hl',
            h.wellFormed.images_of_grows h'.wellFormed h'.grows (h.has types rfl),
            hfirst.2 hmiddle.1]

/-- A part that fails leaves what it has changed. -/
theorem Unified.append_error {error : UnifyError}
    (h : context.Unified lefts rights (.error error) after) :
    context.Unified (lefts ++ lefts') (rights ++ rights') (.error error) after := by
  refine ⟨h.wellFormed, h.grows, fun _ h => (by cases h), fun S hS hl hr => ?_,
    fun _ _ _ _ _ h => (by cases h)⟩
  simp only [mem_append] at hl hr
  exact h.closed S hS (fun ty hty => hl ty (.inl hty)) fun ty hty => hr ty (.inl hty)

/-- Unifying lists unifies them pairwise, when unifying two types does. -/
theorem unified_unifyLists {unify : TypeId → TypeId → Inference TypeId}
    (hunify : ∀ {context left right returned after}, context.WellFormed →
      context.store.Has left → context.store.Has right →
      (unify left right).Runs context returned after →
      context.Unified [left] [right] (returned.map fun ty => [ty]) after)
    (wf : context.WellFormed) (hlength : lefts.length = rights.length)
    (hlefts : ∀ ty ∈ lefts, context.store.Has ty) (hrights : ∀ ty ∈ rights, context.store.Has ty)
    (h : (Inference.unifyLists unify lefts rights).Runs context returned after) :
    context.Unified lefts rights returned after := by
  -- the rest is unified in the context that the first pair has left
  induction lefts generalizing context rights returned with
  | nil =>
      obtain rfl : rights = [] := length_eq_zero_iff.mp hlength.symm
      obtain ⟨rfl, rfl⟩ := runs_pure.mp h
      refine ⟨wf, .refl _, fun types htypes => ?_, fun _ hS _ _ => hS,
        fun _ _ _ _ types htypes σ => ?_⟩
      · cases htypes
        simp
      · cases htypes
        simp [images]
  | cons left lefts ih =>
      cases rights with
      | nil => cases hlength
      | cons right rights =>
          rw [forall_mem_cons] at hlefts hrights
          rw [Inference.unifyLists] at h
          obtain ⟨type, middle, hfirst, h⟩ | ⟨error, hfirst, rfl⟩ := runs_bind.mp h
          · have hunified : context.Unified [left] [right] (.ok [type]) middle :=
              hunify wf hlefts.1 hrights.1 hfirst
            have hrest : ∀ {returned'}, (Inference.unifyLists unify lefts rights).Runs middle
                returned' after → middle.Unified lefts rights returned' after := fun hruns =>
              ih hunified.wellFormed (Nat.succ.inj hlength)
                (fun ty hty => hunified.grows.store.has (hlefts.2 ty hty))
                (fun ty hty => hunified.grows.store.has (hrights.2 ty hty)) hruns
            have happend : ∀ {returned'}, (Inference.unifyLists unify lefts rights).Runs middle
                returned' after → context.Unified (left :: lefts) (right :: rights)
                  (returned'.map fun types => type :: types) after := by
              intro returned' hruns
              show context.Unified ([left] ++ lefts) ([right] ++ rights) _ after
              exact Unified.append wf (by simp) hlefts.2 hrights.2 hunified (hrest hruns)
            obtain ⟨types, middle', hsecond, h⟩ | ⟨error, hsecond, rfl⟩ := runs_bind.mp h
            · obtain ⟨rfl, rfl⟩ := runs_pure.mp h
              exact happend hsecond
            · exact happend hsecond
          · show context.Unified ([left] ++ lefts) ([right] ++ rights) _ after
            exact (hunify wf hlefts.1 hrights.1 hfirst).append_error

/-- What binding an unbound variable does: nothing, or one more binding. -/
structure Binds (context : InferenceContext) (var : TypeVariableId) (ty : TypeId)
    (after : InferenceContext) : Prop where
  wellFormed : after.WellFormed
  grows : context.Grows after
  store : after.store = context.store
  bindings : after.bindings = Function.update context.bindings var (some (context.store.term ty))
  closed : ∀ S, context.Closed S → S ty → after.Closed S

theorem WellFormed.binds (wf : context.WellFormed) (hty : context.store.Has ty)
    (hunbound : context.binding var = none) (hoccurs : context.occurs var fuel ty = some false)
    (hlt : var.index < context.table.bindings.length) :
    context.Binds var ty
      { context with table := ⟨context.table.bindings.set var.index (some ty)⟩ } := by
  have hbinding : ∀ other, (binding
      { context with table := ⟨context.table.bindings.set var.index (some ty)⟩ } other) =
      if other = var then some ty else context.binding other := by
    rintro ⟨index⟩
    obtain ⟨varIndex⟩ := var
    by_cases hindex : varIndex = index
    · subst hindex
      simp [binding, hlt]
    · simp [binding, hindex, Ne.symm hindex]
  have hbindings : bindings
      { context with table := ⟨context.table.bindings.set var.index (some ty)⟩ } =
      Function.update context.bindings var (some (context.store.term ty)) := by
    funext other
    by_cases hother : other = var
    · subst hother
      simp [bindings, hbinding]
    · simp [bindings, hbinding, hother]
  have hnone : context.bindings var = none := by simp [bindings, hunbound]
  obtain ⟨ρ, hρ⟩ := wf.triangular.exists_solvedBy
  -- the occurs check keeps the bindings triangular
  have hnot : ¬ ((context.store.term ty).subst ρ).Occurs var := fun h => by
    simpa using (wf.occurs_iff hρ hty hoccurs).mpr h
  refine ⟨⟨wf.store, wf.error, ?_, ?_⟩, ⟨.refl _, ?_⟩, rfl, hbindings, ?_⟩
  · intro other bound hbound
    rw [hbinding] at hbound
    split at hbound
    · obtain rfl : ty = bound := by simpa using hbound
      exact hty
    · exact wf.bound hbound
  · rw [hbindings]
    exact wf.triangular.update hρ hnone hnot
  · intro other bound hbound
    rw [hbinding, if_neg]
    · exact hbound
    · rintro rfl
      rw [hunbound] at hbound
      cases hbound
  · -- a set closed under what its types lead to stays closed: it has the bound type
    intro S hS hmem member hmember
    obtain ⟨kind, hkind, herror, hnever, hchildren, hbound⟩ := hS member hmember
    refine ⟨kind, hkind, herror, hnever, hchildren, fun other bound hother hnew => ?_⟩
    rw [hbinding] at hnew
    split at hnew
    · obtain rfl : ty = bound := by simpa using hnew
      exact hmem
    · exact hbound other bound hother hnew

variable {left right : TypeId}

/-- Binding the variable one type is adds the equation with the other. -/
theorem Binds.unified (hkind : context.store.kind left = some (.inferenceVariable var))
    (hright : context.store.Has right) (hunbound : context.binding var = none)
    (h : context.Binds var right after) : context.Unified [left] [right] (.ok [right]) after := by
  have hterm := term_variable hkind
  have hnone : context.bindings var = none := by simp [InferenceContext.bindings, hunbound]
  have hsolutions : ∀ σ, after.bindings.Satisfied σ ↔
      context.bindings.Satisfied σ ∧ σ var = (context.store.term right).subst σ := by
    intro σ
    rw [h.bindings]
    constructor
    · intro hσ
      refine ⟨fun other t ht => hσ other t ?_, hσ var _ (by simp)⟩
      rw [Function.update_of_ne]
      · exact ht
      · rintro rfl
        rw [hnone] at ht
        cases ht
    · rintro ⟨hσ, hvar⟩ other t ht
      by_cases hother : other = var
      · subst hother
        obtain rfl : context.store.term right = t := by simpa using ht
        exact hvar
      · exact hσ other t (by simpa [hother] using ht)
  refine ⟨h.wellFormed, h.grows, ?_, fun S hS _ hr => h.closed S hS (hr right (by simp)), ?_⟩
  · intro types htypes ty hty
    obtain rfl : [right] = types := by simpa using htypes
    obtain rfl : ty = right := by simpa using hty
    exact h.grows.store.has hright
  · intro S _ _ _ types htypes σ
    obtain rfl : [right] = types := by simpa using htypes
    refine ⟨by simpa [images, hterm] using hsolutions σ, fun hσ => ?_⟩
    simpa [images, hterm, h.store] using ((hsolutions σ).mp hσ).2.symm

theorem Unified.symm (h : context.Unified lefts rights returned after) :
    context.Unified rights lefts returned after := by
  refine ⟨h.wellFormed, h.grows, h.has, fun S hS hl hr => h.closed S hS hr hl, ?_⟩
  intro S hS hl hr types htypes σ
  have hsolutions := h.solutions S hS hr hl types htypes σ
  refine ⟨by rw [hsolutions.1, eq_comm (a := context.images σ rights)], fun hσ => ?_⟩
  rw [hsolutions.2 hσ]
  exact (hsolutions.1.mp hσ).2

/-- Unifying where the bindings lead unifies the types. -/
theorem Unified.of_follows {left' right' : TypeId} (hleft : context.Follows left left')
    (hright : context.Follows right right') (h : context.Unified [left'] [right'] returned after) :
    context.Unified [left] [right] returned after := by
  refine ⟨h.wellFormed, h.grows, h.has, fun S hS hl hr => ?_, fun S hS hl hr types htypes σ => ?_⟩
  · simp only [forall_mem_singleton] at hl hr
    exact h.closed S hS (by simpa using hleft.closed S hS hl) (by simpa using hright.closed S hS hr)
  · simp only [forall_mem_singleton] at hl hr
    have hsolutions := h.solutions S hS (by simpa using hleft.closed S hS hl)
      (by simpa using hright.closed S hS hr) types htypes σ
    have himages : context.bindings.Satisfied σ →
        context.images σ [left'] = context.images σ [left] ∧
        context.images σ [right'] = context.images σ [right] := fun hσ => by
      simp [images, hleft.image σ hσ, hright.image σ hσ]
    constructor
    · rw [hsolutions.1]
      apply and_congr_right
      intro hσ
      rw [(himages hσ).1, (himages hσ).2]
    · intro hσ
      rw [hsolutions.2 hσ, (himages (hsolutions.1.mp hσ).1).1]

/-- The term of a type built from parts, under a substitution. -/
theorem WellFormed.image_eq (wf : context.WellFormed) (hkind : context.store.kind ty = some kind)
    (hne : ∀ var, kind ≠ .inferenceVariable var)
    (σ : TypeVariableId → Term TypeKind TypeVariableId) :
    (context.store.term ty).subst σ = .node kind.shape (context.images σ kind.children) := by
  rw [wf.store.term_eq hkind hne, Term.subst_node, map_map]
  rfl

/-- Where the parts are unified, the types are. -/
theorem Unified.of_parts (wf : context.WellFormed) {leftKind rightKind : TypeKind}
    (hleft : context.store.kind left = some leftKind)
    (hright : context.store.kind right = some rightKind)
    (left_ne : ∀ var, leftKind ≠ .inferenceVariable var)
    (right_ne : ∀ var, rightKind ≠ .inferenceVariable var)
    (hshape : leftKind.shape = rightKind.shape)
    (hlength : types.length = leftKind.children.length)
    (h : context.Unified leftKind.children rightKind.children (.ok types) after) :
    context.Unified [left] [right] (.ok [(after.intern (leftKind.rebuild types)).1])
      (after.intern (leftKind.rebuild types)).2 := by
  have hchildren := children_rebuild hlength
  have hhas : ∀ child ∈ (leftKind.rebuild types).children, after.store.Has child := by
    simpa [hchildren] using h.has types rfl
  obtain ⟨hwf, hgrows, hbindings, hkind⟩ := h.wellFormed.intern hhas
  refine ⟨hwf, h.grows.trans hgrows, ?_, fun S hS hl hr => ?_, fun S hS hl hr all hall σ => ?_⟩
  · intro all hall ty hty
    obtain rfl : [_] = all := by simpa using hall
    obtain rfl := mem_singleton.mp hty
    exact ⟨_, hkind⟩
  · rw [forall_mem_singleton] at hl hr
    intro ty hty
    obtain ⟨kind, hk, herror, hnever, hc, hbound⟩ :=
      h.closed S hS (hS.parts hl hleft) (hS.parts hr hright) ty hty
    exact ⟨kind, hgrows.store ty kind hk, herror, hnever, hc, hbound⟩
  · obtain rfl : [_] = all := by simpa using hall
    rw [forall_mem_singleton] at hl hr
    have hsolutions := h.solutions S hS (hS.parts hl hleft) (hS.parts hr hright) types rfl σ
    have hterms : context.images σ [left] = context.images σ [right] ↔
        context.images σ leftKind.children = context.images σ rightKind.children := by
      simp [images, wf.image_eq hleft left_ne, wf.image_eq hright right_ne, hshape]
    rw [hbindings]
    refine ⟨by rw [hsolutions.1, hterms], fun hσ => ?_⟩
    simp only [images, map_cons, map_nil]
    rw [hwf.image_eq hkind (rebuild_ne_inferenceVariable left_ne types), wf.image_eq hleft left_ne,
      hchildren, shape_rebuild hlength,
      ← hsolutions.2 hσ, h.wellFormed.images_of_grows hwf hgrows (h.has types rfl)]

/-- Where Error or Never is met, nothing is said about solutions. -/
theorem Unified.of_excluded (wf : context.WellFormed) (hty : context.store.Has ty)
    (hnot : ∀ S, context.Closed S → S left → S right → False) :
    context.Unified [left] [right] (.ok [ty]) context := by
  refine ⟨wf, .refl _, fun types htypes => ?_, fun _ hS _ _ => hS, fun S hS hl hr => ?_⟩
  · obtain rfl : [ty] = types := by simpa using htypes
    simpa using hty
  · exact absurd (hnot S hS (by simpa using hl) (by simpa using hr)) id

/-- Binding a variable and returning the type it is bound to. -/
theorem WellFormed.unified_bind (wf : context.WellFormed) {left right : TypeId}
    {var : TypeVariableId} (hkind : context.store.kind left = some (.inferenceVariable var))
    (hunbound : context.binding var = none) (hright : context.store.Has right) {fuel : ℕ}
    {returned : Except UnifyError TypeId}
    (h : Runs (do Inference.bind fuel var right; return right) context returned after) :
    context.Unified [left] [right] (returned.map fun ty => [ty]) after := by
  obtain ⟨_, middle, hbind, h⟩ | ⟨error, hbind, rfl⟩ := runs_bind.mp h
  · obtain ⟨rfl, rfl⟩ := runs_pure.mp h
    obtain ⟨error, heq, -⟩ | ⟨-, hoccurs, hlt, rfl⟩ := runs_bindVariable hbind
    · cases heq
    · exact (wf.binds hright hunbound hoccurs hlt).unified hkind hright hunbound
  · obtain ⟨error', -, rfl⟩ | ⟨heq, -⟩ := runs_bindVariable hbind
    · exact .of_error wf error
    · cases heq

/-- **What unifying does**, whatever it returns. -/
theorem unified_unify {returned : Except UnifyError TypeId} (wf : context.WellFormed)
    (hleft : context.store.Has left) (hright : context.store.Has right)
    (h : (Inference.unify fuel left right).Runs context returned after) :
    context.Unified [left] [right] (returned.map fun ty => [ty]) after := by
  induction fuel generalizing context left right returned after with
  | zero =>
      obtain ⟨answer, hnone, -⟩ := runs_ask.mp h
      cases hnone
  | succ fuel ih =>
      obtain ⟨left', right', hleft', hright', h⟩ := runs_unify h
      have hl := wf.follows hleft hleft'
      have hr := wf.follows hright hright'
      apply Unified.of_follows hl hr
      obtain ⟨rfl, rfl, rfl⟩ | ⟨error, rfl, rfl⟩ | ⟨leftKind, rightKind, hlk, hrk, h⟩ := h
      · refine ⟨wf, .refl _, fun types htypes => ?_, fun _ hS _ _ => hS,
          fun _ _ _ _ types htypes σ => ?_⟩
        · obtain rfl : [left'] = types := by simpa [Except.map] using htypes
          simpa using hl.has
        · obtain rfl : [left'] = types := by simpa [Except.map] using htypes
          simp
      · exact .of_error wf error
      · have hkinds := Inference.kindsUnify (Inference.unify fuel)
          (Inference.bind fuel) left' right'
          leftKind rightKind
        generalize Inference.unifyKinds (Inference.unify fuel) (Inference.bind fuel) left' right'
          leftKind rightKind = call at hkinds h
        -- one case for each pair of kinds that the source tells apart
        cases hkinds with
        | error hkind =>
            have hreturns := runs_get_bind h
            obtain ⟨rfl, rfl⟩ := runs_pure.mp hreturns
            refine Unified.of_excluded wf wf.error fun S hS hleftS hrightS => ?_
            obtain hkind | hkind := hkind
            · exact (hS.kind_ne hleftS hlk).1 hkind
            · exact (hS.kind_ne hrightS hrk).1 hkind
        | neverLeft =>
            obtain ⟨rfl, rfl⟩ := runs_pure.mp h
            exact Unified.of_excluded wf hr.has fun S hS hleftS _ => (hS.kind_ne hleftS hlk).2 rfl
        | neverRight =>
            obtain ⟨rfl, rfl⟩ := runs_pure.mp h
            exact Unified.of_excluded wf hl.has fun S hS _ hrightS => (hS.kind_ne hrightS hrk).2 rfl
        | bindLeft => exact wf.unified_bind hlk (hl.unbound _ hlk) hr.has h
        | bindRight => exact (wf.unified_bind hrk (hr.unbound _ hrk) hl.has h).symm
        | parts left_ne right_ne shape =>
            have hlength := length_children_of_shape shape
            have hlists : ∀ {returned middle}, (Inference.unifyLists (Inference.unify fuel)
                leftKind.children rightKind.children).Runs context returned middle →
                context.Unified leftKind.children rightKind.children returned middle :=
              unified_unifyLists (fun wf hl hr hruns => ih wf hl hr hruns) wf hlength
                (fun ty hty => wf.store.has_child hlk hty) fun ty hty => wf.store.has_child hrk hty
            obtain ⟨types, middle, hruns, h⟩ | ⟨error, hruns, rfl⟩ := runs_bind.mp h
            · obtain ⟨rfl, rfl⟩ := runs_interning.mp h
              exact .of_parts wf hlk hrk left_ne right_ne shape
                (length_unifyLists hlength hruns) (hlists hruns)
            · have hfailed := hlists hruns
              refine ⟨hfailed.wellFormed, hfailed.grows, fun _ h => (by cases h),
                fun S hS hleftS hrightS => ?_, fun _ _ _ _ _ h => (by cases h)⟩
              rw [forall_mem_singleton] at hleftS hrightS
              exact hfailed.closed S hS (hS.parts hleftS hlk) (hS.parts hrightS hrk)
        | mismatch =>
            obtain ⟨rfl, rfl⟩ := runs_throw.mp h
            exact .of_error wf _

end InferenceContext

end Jadren.Types

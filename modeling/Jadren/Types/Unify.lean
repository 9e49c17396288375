import Jadren.Types.Store

/-!
# Structural unification

The inference context (a type store and a table of variable bindings) and the
operations on it, with explicit state and early return on an error.  The operations
recurse through bindings, so each takes fuel; `Runs` relates a call to what it returns
and the context it leaves, also when it fails half-way.
-/

namespace Jadren.Types

open Unification

/-- Structural unification failure. -/
inductive UnifyError
  | mismatch (left right : TypeId)
  | occurs (var : TypeVariableId) (within : TypeId)
  | invalidType (ty : TypeId)
  | unknownVariable (var : TypeVariableId)
  deriving DecidableEq

/-- Context-local inference-variable bindings. -/
structure UnificationTable where
  bindings : List (Option TypeId)
  deriving DecidableEq

/-- The type store and the bindings of the variables. -/
structure InferenceContext where
  store : TypeStore
  table : UnificationTable
  deriving DecidableEq

namespace InferenceContext

/-- The type a variable is bound to. -/
def binding (context : InferenceContext) (var : TypeVariableId) : Option TypeId :=
  (context.table.bindings[var.index]?).join

def new : InferenceContext := ⟨.new, ⟨[]⟩⟩

/-- Interns a kind. -/
def intern (context : InferenceContext) (kind : TypeKind) : TypeId × InferenceContext :=
  let (id, store) := context.store.intern kind
  (id, { context with store })

/-- Allocates and interns a fresh unconstrained inference variable. -/
def fresh (context : InferenceContext) : TypeId × InferenceContext :=
  let index := context.table.bindings.length
  intern { context with table := ⟨context.table.bindings ++ [none]⟩ } (.inferenceVariable ⟨index⟩)

/-- Follows inference bindings without recursively rebuilding compound types. -/
def resolveShallow (context : InferenceContext) : ℕ → TypeId → Option TypeId
  | 0, _ => none
  | fuel + 1, ty =>
      match context.store.kind ty with
      | some (.inferenceVariable var) =>
          match context.binding var with
          | some bound => if bound = ty then some ty else context.resolveShallow fuel bound
          | none => some ty
      | _ => some ty

/-- Whether the variable stands in the type, following bindings. -/
def occurs (context : InferenceContext) (var : TypeVariableId) : ℕ → TypeId → Option Bool
  | 0, _ => none
  | fuel + 1, ty => do
      let ty ← context.resolveShallow fuel ty
      match context.store.kind ty with
      | some (.inferenceVariable other) => some (other == var)
      | some (.array element _) | some (.vector element _) | some (.buffer element)
      | some (.slice element) | some (.pointer element) | some (.option element) =>
          context.occurs var fuel element
      | some (.result ok error) =>
          if ← context.occurs var fuel ok then some true else context.occurs var fuel error
      | some (.nominal _ arguments) => arguments.anyM (context.occurs var fuel)
      | some (.function parameters result) =>
          if ← parameters.anyM (context.occurs var fuel) then some true
          else context.occurs var fuel result
      | some (.capability _ inner) => context.occurs var fuel inner
      | _ => some false

end InferenceContext

/-- A computation on the inference context that may fail or run out of fuel. -/
abbrev Inference (α : Type) := ExceptT UnifyError (StateT InferenceContext Option) α

namespace Inference

/-- What a query of the context answers; `none` is out of fuel. -/
def ask {α : Type} (query : InferenceContext → Option α) : Inference α :=
  ExceptT.mk fun context => (query context).map fun answer => (.ok answer, context)

/-- The canonical description of a type that must belong to the store. -/
def kindOf (ty : TypeId) : Inference TypeKind := do
  let context ← get
  match context.store.kind ty with
  | some kind => return kind
  | none => throw (.invalidType ty)

def interning (kind : TypeKind) : Inference TypeId :=
  modifyGet fun context => context.intern kind

def bind (fuel : ℕ) (var : TypeVariableId) (ty : TypeId) : Inference Unit := do
  if ← ask fun context => context.occurs var fuel ty then
    throw (.occurs var ty)
  let context ← get
  if var.index < context.table.bindings.length then
    set { context with table := ⟨context.table.bindings.set var.index (some ty)⟩ }
  else
    throw (.unknownVariable var)

/-- Unifies two lists element by element. -/
def unifyLists (unify : TypeId → TypeId → Inference TypeId) :
    List TypeId → List TypeId → Inference (List TypeId)
  | left :: lefts, right :: rights => do
      let type ← unify left right
      let types ← unifyLists unify lefts rights
      return type :: types
  | _, _ => return []

/-- Unifies two different types of the given kinds. -/
def unifyKinds (unify : TypeId → TypeId → Inference TypeId)
    (bind : TypeVariableId → TypeId → Inference Unit) (left right : TypeId) :
    TypeKind → TypeKind → Inference TypeId
  | .error, _ | _, .error => do return (← get).store.core.error
  | .never, _ => return right
  | _, .never => return left
  | .inferenceVariable var, _ => do
      bind var right
      return right
  | _, .inferenceVariable var => do
      bind var left
      return left
  | .array leftElement leftLength, .array rightElement rightLength =>
      if leftLength = rightLength then do
        let element ← unify leftElement rightElement
        interning (.array element leftLength)
      else throw (.mismatch left right)
  | .vector leftElement leftLanes, .vector rightElement rightLanes =>
      if leftLanes = rightLanes then do
        let element ← unify leftElement rightElement
        interning (.vector element leftLanes)
      else throw (.mismatch left right)
  | .buffer leftElement, .buffer rightElement => do
      interning (.buffer (← unify leftElement rightElement))
  | .slice leftElement, .slice rightElement => do
      interning (.slice (← unify leftElement rightElement))
  | .pointer leftElement, .pointer rightElement => do
      interning (.pointer (← unify leftElement rightElement))
  | .option leftInner, .option rightInner => do
      interning (.option (← unify leftInner rightInner))
  | .result leftOk leftError, .result rightOk rightError => do
      let ok ← unify leftOk rightOk
      let error ← unify leftError rightError
      interning (.result ok error)
  | .nominal leftConstructor leftArguments, .nominal rightConstructor rightArguments =>
      if leftConstructor = rightConstructor ∧ leftArguments.length = rightArguments.length then do
        let arguments ← unifyLists unify leftArguments rightArguments
        interning (.nominal leftConstructor arguments)
      else throw (.mismatch left right)
  | .function leftParameters leftResult, .function rightParameters rightResult =>
      if leftParameters.length = rightParameters.length then do
        let parameters ← unifyLists unify leftParameters rightParameters
        let result ← unify leftResult rightResult
        interning (.function parameters result)
      else throw (.mismatch left right)
  | .capability leftCapability leftInner, .capability rightCapability rightInner =>
      if leftCapability = rightCapability then do
        let inner ← unify leftInner rightInner
        interning (.capability leftCapability inner)
      else throw (.mismatch left right)
  | _, _ => throw (.mismatch left right)

/-- Unifies two types structurally and returns their canonical representative. -/
def unify : ℕ → TypeId → TypeId → Inference TypeId
  | 0, _, _ => ask fun _ => none
  | fuel + 1, left, right => do
      let left ← ask fun context => context.resolveShallow fuel left
      let right ← ask fun context => context.resolveShallow fuel right
      if left = right then
        return left
      let leftKind ← kindOf left
      let rightKind ← kindOf right
      unifyKinds (unify fuel) (bind fuel) left right leftKind rightKind

/-- A kind with each of its parts replaced by what it resolves to. -/
def resolveKind (resolve : TypeId → Inference TypeId) : TypeKind → Inference TypeKind
  | .array element length => return .array (← resolve element) length
  | .vector element lanes => return .vector (← resolve element) lanes
  | .buffer element => return .buffer (← resolve element)
  | .slice element => return .slice (← resolve element)
  | .pointer element => return .pointer (← resolve element)
  | .option inner => return .option (← resolve inner)
  | .result ok error => return .result (← resolve ok) (← resolve error)
  | .nominal constructor arguments =>
      return .nominal constructor (← arguments.mapM resolve)
  | .function parameters result =>
      return .function (← parameters.mapM resolve) (← resolve result)
  | .capability capability inner => return .capability capability (← resolve inner)
  | other => return other

/-- Recursively substitutes all currently bound variables and re-interns the result. -/
def resolveDeep : ℕ → TypeId → Inference TypeId
  | 0, _ => ask fun _ => none
  | fuel + 1, ty => do
      let ty ← ask fun context => context.resolveShallow fuel ty
      let kind ← kindOf ty
      let resolved ← resolveKind (resolveDeep fuel) kind
      interning resolved

/-- The call returns this from this context and leaves that one. -/
def Runs {α : Type} (call : Inference α) (context : InferenceContext)
    (returned : Except UnifyError α) (after : InferenceContext) : Prop :=
  call.run.run context = some (returned, after)

instance {α : Type} [DecidableEq α] (call : Inference α) (context : InferenceContext)
    (returned : Except UnifyError α) (after : InferenceContext) :
    Decidable (call.Runs context returned after) :=
  inferInstanceAs (Decidable (_ = _))

variable {α β : Type} {context after : InferenceContext}

variable {returned : Except UnifyError α}

theorem runs_pure {a : α} :
    (pure a : Inference α).Runs context returned after ↔ returned = .ok a ∧ after = context := by
  show some (Except.ok a, context) = some (returned, after) ↔ _
  simp [eq_comm]

theorem runs_throw {error : UnifyError} :
    (throw error : Inference α).Runs context returned after ↔
      returned = .error error ∧ after = context := by
  show some (Except.error error, context) = some (returned, after) ↔ _
  simp [eq_comm]

theorem runs_get {returned : Except UnifyError InferenceContext} :
    (get : Inference InferenceContext).Runs context returned after ↔
      returned = .ok context ∧ after = context := by
  show some (Except.ok context, context) = some (returned, after) ↔ _
  simp [eq_comm]

theorem runs_set {next : InferenceContext} {returned : Except UnifyError PUnit} :
    (set next : Inference PUnit).Runs context returned after ↔
      returned = .ok ⟨⟩ ∧ after = next := by
  show some (Except.ok _, next) = some (returned, after) ↔ _
  simp [eq_comm]

theorem runs_ask {query : InferenceContext → Option α} :
    (ask query).Runs context returned after ↔
      ∃ answer, query context = some answer ∧ returned = .ok answer ∧ after = context := by
  show (query context).map (fun answer => (Except.ok answer, context)) = some (returned, after) ↔ _
  cases query context <;> simp [eq_comm]

theorem runs_interning {kind : TypeKind} {returned : Except UnifyError TypeId} :
    (interning kind).Runs context returned after ↔
      returned = .ok (context.intern kind).1 ∧ after = (context.intern kind).2 := by
  show some (Except.ok (context.intern kind).1, (context.intern kind).2) =
    some (returned, after) ↔ _
  simp [eq_comm]

theorem runs_bind {call : Inference α} {next : α → Inference β} {returned : Except UnifyError β} :
    (call >>= next).Runs context returned after ↔
      (∃ a middle, call.Runs context (.ok a) middle ∧ (next a).Runs middle returned after) ∨
      (∃ error, call.Runs context (.error error) after ∧ returned = .error error) := by
  unfold Runs
  rw [ExceptT.run_bind, StateT.run_bind]
  cases hcall : (call.run).run context with
  | none => simp
  | some answer =>
      obtain ⟨_ | a, middle⟩ := answer
      · simp [and_comm, eq_comm]
      · simp

variable {ty : TypeId}

theorem runs_kindOf {returned : Except UnifyError TypeKind}
    (h : (kindOf ty).Runs context returned after) :
    after = context ∧ ((∃ kind, context.store.kind ty = some kind ∧ returned = .ok kind) ∨
      ∃ error, returned = .error error) := by
  unfold kindOf at h
  cases hkind : context.store.kind ty with
  | none =>
      obtain ⟨hreturned, hafter⟩ : returned = .error (.invalidType ty) ∧ after = context := by
        simpa [runs_bind, runs_get, hkind, runs_throw] using h
      exact ⟨hafter, .inr ⟨_, hreturned⟩⟩
  | some kind =>
      obtain ⟨hreturned, hafter⟩ : returned = .ok kind ∧ after = context := by
        simpa [runs_bind, runs_get, hkind, runs_pure] using h
      exact ⟨hafter, .inl ⟨kind, rfl, hreturned⟩⟩

theorem kindOf_runs {kind : TypeKind} (h : context.store.kind ty = some kind) :
    (kindOf ty).Runs context (.ok kind) context := by
  unfold kindOf
  refine runs_bind.mpr (.inl ⟨context, context, runs_get.mpr ⟨rfl, rfl⟩, ?_⟩)
  simp only [h]
  exact runs_pure.mpr ⟨rfl, rfl⟩

/-- A call that goes on after asking the context. -/
theorem runs_ask_bind {α β : Type} {query : InferenceContext → Option α} {next : α → Inference β}
    {returned : Except UnifyError β} (h : (ask query >>= next).Runs context returned after) :
    ∃ answer, query context = some answer ∧ (next answer).Runs context returned after := by
  obtain ⟨answer, middle, hask, hnext⟩ | ⟨error, hask, -⟩ := runs_bind.mp h
  · obtain ⟨_, hquery, hanswer, rfl⟩ := runs_ask.mp hask
    cases hanswer
    exact ⟨answer, hquery, hnext⟩
  · obtain ⟨_, -, hne, -⟩ := runs_ask.mp hask
    cases hne

theorem runs_get_bind {α : Type} {next : InferenceContext → Inference α}
    {returned : Except UnifyError α} (h : (get >>= next).Runs context returned after) :
    (next context).Runs context returned after := by
  obtain ⟨current, middle, hget, hnext⟩ | ⟨error, hget, -⟩ := runs_bind.mp h
  · obtain ⟨hcurrent, rfl⟩ := runs_get.mp hget
    cases hcurrent
    exact hnext
  · obtain ⟨hne, -⟩ := runs_get.mp hget
    cases hne

/-- A call that goes on after looking a kind up. -/
theorem runs_kindOf_bind {α : Type} {next : TypeKind → Inference α}
    {returned : Except UnifyError α} (h : (kindOf ty >>= next).Runs context returned after) :
    (∃ kind, context.store.kind ty = some kind ∧ (next kind).Runs context returned after) ∨
      ∃ error, returned = .error error ∧ after = context := by
  obtain ⟨kind, middle, hkind, hnext⟩ | ⟨error, hkind, rfl⟩ := runs_bind.mp h
  · obtain ⟨rfl, ⟨found, hfound, heq⟩ | ⟨error, heq⟩⟩ := runs_kindOf hkind
    · cases heq
      exact .inl ⟨kind, hfound, hnext⟩
    · cases heq
  · exact .inr ⟨error, rfl, (runs_kindOf hkind).1⟩

/-- Unifying compares where the bindings lead, then the kinds. -/
theorem runs_unify {fuel : ℕ} {left right : TypeId} {returned : Except UnifyError TypeId}
    (h : (unify (fuel + 1) left right).Runs context returned after) :
    ∃ left' right', context.resolveShallow fuel left = some left' ∧
      context.resolveShallow fuel right = some right' ∧
      ((left' = right' ∧ returned = .ok left' ∧ after = context) ∨
        (∃ error, returned = .error error ∧ after = context) ∨
        ∃ leftKind rightKind, context.store.kind left' = some leftKind ∧
          context.store.kind right' = some rightKind ∧
          (unifyKinds (unify fuel) (bind fuel) left' right' leftKind rightKind).Runs context
            returned after) := by
  rw [unify] at h
  obtain ⟨left', hleft, h⟩ := runs_ask_bind h
  obtain ⟨right', hright, h⟩ := runs_ask_bind h
  refine ⟨left', right', hleft, hright, ?_⟩
  by_cases heq : left' = right'
  · rw [if_pos heq] at h
    obtain ⟨rfl, rfl⟩ := runs_pure.mp h
    exact .inl ⟨heq, rfl, rfl⟩
  · right
    rw [if_neg heq] at h
    obtain ⟨leftKind, hleftKind, h⟩ | herror := runs_kindOf_bind h
    · obtain ⟨rightKind, hrightKind, h⟩ | herror := runs_kindOf_bind h
      · exact .inr ⟨leftKind, rightKind, hleftKind, hrightKind, h⟩
      · exact .inl herror
    · exact .inl herror

/-- Binding a variable: it must not stand in the type, and must belong to the table. -/
theorem runs_bindVariable {fuel : ℕ} {var : TypeVariableId} {returned : Except UnifyError Unit}
    (h : (bind fuel var ty).Runs context returned after) :
    (∃ error, returned = .error error ∧ after = context) ∨
      (returned = .ok () ∧ context.occurs var fuel ty = some false ∧
        var.index < context.table.bindings.length ∧
        after = { context with table := ⟨context.table.bindings.set var.index (some ty)⟩ }) := by
  unfold bind at h
  obtain ⟨found, hoccurs, h⟩ := runs_ask_bind h
  cases found with
  | true =>
      left
      exact ⟨_, by simpa [runs_bind, runs_throw] using h⟩
  | false =>
      by_cases hlt : var.index < context.table.bindings.length
      · right
        obtain ⟨hreturned, hafter⟩ : returned = .ok () ∧
            after = ⟨context.store, ⟨context.table.bindings.set var.index (some ty)⟩⟩ := by
          simpa [runs_bind, runs_get, hlt, runs_set] using h
        exact ⟨hreturned, hoccurs, hlt, hafter⟩
      · left
        exact ⟨_, by simpa [runs_bind, runs_get, hlt, runs_throw] using h⟩

theorem length_unifyLists {unify : TypeId → TypeId → Inference TypeId} {lefts rights : List TypeId}
    (hlength : lefts.length = rights.length) {types : List TypeId}
    (h : (unifyLists unify lefts rights).Runs context (.ok types) after) :
    types.length = lefts.length := by
  induction lefts generalizing rights context after types with
  | nil =>
      obtain rfl : rights = [] := List.length_eq_zero_iff.mp hlength.symm
      obtain ⟨hreturned, -⟩ := runs_pure.mp h
      cases hreturned
      rfl
  | cons left lefts ih =>
      cases rights with
      | nil => cases hlength
      | cons =>
          obtain ⟨type, middle, -, h⟩ | ⟨error, -, hreturned⟩ := runs_bind.mp h
          · obtain ⟨rest, middle', hrest, h⟩ | ⟨error, -, hreturned⟩ := runs_bind.mp h
            · obtain ⟨hreturned, -⟩ := runs_pure.mp h
              cases hreturned
              simpa using ih (Nat.succ.inj hlength) hrest
            · cases hreturned
          · cases hreturned

end Inference

end Jadren.Types

import Jadren.Library.Unification
import Mathlib.Data.List.Basic
import Mathlib.Data.List.GetD

/-!
# Interned types

A type is named by its index in a store of kinds; a kind names its parts by their
indices.  `intern` gives equal kinds one index, so types built in one store are equal
when their indices are.  `TypeStore.term` is what an index stands for, as a term over
the shapes of kinds; in a well-formed store no two indices stand for one term
(`WellFormed.eq_of_term_eq`).
-/

namespace Jadren.Types

open Unification List

/-- Opaque canonical type identity inside one `TypeStore`. -/
structure TypeId where
  index : ℕ
  deriving DecidableEq

/-- Stable identity of a user-defined struct, component, enum, or type constructor. -/
structure NominalTypeId where
  fingerprint : ℕ
  deriving DecidableEq

/-- Identity of a type inference variable inside one type-checking context. -/
structure TypeVariableId where
  index : ℕ
  deriving DecidableEq

/-- Stable generic parameter position owned by a nominal or function declaration. -/
structure GenericParameterId where
  owner : ℕ
  index : ℕ
  deriving DecidableEq

inductive Signedness
  | signed
  | unsigned
  deriving DecidableEq

inductive IntegerWidth
  | bits8
  | bits16
  | bits32
  | bits64
  | pointer
  deriving DecidableEq

inductive FloatWidth
  | bits16
  | bits32
  | bits64
  deriving DecidableEq

/-- Explicit ownership or access capability attached to a type. -/
inductive Capability
  | owned
  | read
  | write
  deriving DecidableEq

/-- Canonical structural description interned by `TypeStore`. -/
inductive TypeKind
  | error
  | bool
  | char
  | string
  | ownedString
  | unit
  | never
  | integer (signedness : Signedness) (width : IntegerWidth)
  | float (width : FloatWidth)
  | vector (element : TypeId) (lanes : ℕ)
  | array (element : TypeId) (length : ℕ)
  | buffer (element : TypeId)
  | slice (element : TypeId)
  | pointer (element : TypeId)
  | option (inner : TypeId)
  | result (ok error : TypeId)
  | nominal (constructor : NominalTypeId) (arguments : List TypeId)
  | genericParameter (parameter : GenericParameterId)
  | inferenceVariable (var : TypeVariableId)
  | function (parameters : List TypeId) (result : TypeId)
  | capability (capability : Capability) (inner : TypeId)
  deriving DecidableEq

namespace TypeKind

/-- The types a kind is built from, in declaration order. -/
def children : TypeKind → List TypeId
  | .vector element _ | .array element _ | .buffer element | .slice element
  | .pointer element => [element]
  | .option inner | .capability _ inner => [inner]
  | .result success failure => [success, failure]
  | .nominal _ arguments => arguments
  | .function parameters output => parameters ++ [output]
  | _ => []

/-- The kind with other types in the places of its parts. -/
def rebuild : TypeKind → List TypeId → TypeKind
  | .vector _ lanes, [element] => .vector element lanes
  | .array _ length, [element] => .array element length
  | .buffer _, [element] => .buffer element
  | .slice _, [element] => .slice element
  | .pointer _, [element] => .pointer element
  | .option _, [inner] => .option inner
  | .result _ _, [success, failure] => .result success failure
  | .nominal constructor _, arguments => .nominal constructor arguments
  | .function _ _, types => .function types.dropLast (types.getLastD ⟨0⟩)
  | .capability access _, [inner] => .capability access inner
  | kind, _ => kind

/-- What is left of a kind without the types it is built from. -/
def shape (kind : TypeKind) : TypeKind := kind.rebuild (kind.children.map fun _ => ⟨0⟩)

theorem rebuild_children (kind : TypeKind) : kind.rebuild kind.children = kind := by
  cases kind <;> simp [rebuild, children]

variable {types : List TypeId}

theorem exists_append_of_length {parameters : List TypeId} {output : TypeId}
    (h : types.length = (parameters ++ [output]).length) :
    ∃ front last, types = front ++ [last] := by
  have hne : types ≠ [] := by
    rintro rfl
    simp at h
  exact ⟨types.dropLast, types.getLast hne, (dropLast_concat_getLast hne).symm⟩

theorem children_rebuild {kind : TypeKind} (h : types.length = kind.children.length) :
    (kind.rebuild types).children = types := by
  cases kind with
  | function =>
      obtain ⟨front, last, rfl⟩ := exists_append_of_length h
      simp [rebuild, children]
  | nominal => rfl
  | result =>
      obtain ⟨a, b, rfl⟩ := length_eq_two.mp h
      rfl
  | vector | array | buffer | slice | pointer | option | capability =>
      obtain ⟨a, rfl⟩ := length_eq_one_iff.mp h
      rfl
  | _ => simpa [children, rebuild] using (length_eq_zero_iff.mp h).symm

theorem rebuild_shape {kind : TypeKind} (h : types.length = kind.children.length) :
    kind.shape.rebuild types = kind.rebuild types := by
  cases kind with
  | result =>
      obtain ⟨a, b, rfl⟩ := length_eq_two.mp h
      rfl
  | vector | array | buffer | slice | pointer | option | capability =>
      obtain ⟨a, rfl⟩ := length_eq_one_iff.mp h
      rfl
  | _ => rfl

theorem shape_rebuild {kind : TypeKind} (h : types.length = kind.children.length) :
    (kind.rebuild types).shape = kind.shape := by
  rw [shape, children_rebuild h, shape]
  have hmap : (types.map fun _ => (⟨0⟩ : TypeId)) = kind.children.map fun _ => ⟨0⟩ := by
    simp [map_const', h]
  rw [hmap]
  cases kind with
  | result =>
      obtain ⟨a, b, rfl⟩ := length_eq_two.mp h
      rfl
  | vector | array | buffer | slice | pointer | option | capability =>
      obtain ⟨a, rfl⟩ := length_eq_one_iff.mp h
      rfl
  | _ => rfl

theorem eq_of_shape_of_children {a b : TypeKind} (hshape : a.shape = b.shape)
    (hchildren : a.children = b.children) : a = b :=
  calc a = a.rebuild a.children := a.rebuild_children.symm
    _ = a.shape.rebuild a.children := (rebuild_shape rfl).symm
    _ = b.shape.rebuild b.children := by rw [hshape, hchildren]
    _ = b.rebuild b.children := rebuild_shape rfl
    _ = b := b.rebuild_children

theorem rebuild_ne_inferenceVariable {kind : TypeKind} (h : ∀ v, kind ≠ .inferenceVariable v)
    (types : List TypeId) (v : TypeVariableId) : kind.rebuild types ≠ .inferenceVariable v := by
  unfold rebuild
  split <;> simp_all

theorem rebuild_ne_genericParameter {kind : TypeKind} (h : ∀ p, kind ≠ .genericParameter p)
    (types : List TypeId) (p : GenericParameterId) : kind.rebuild types ≠ .genericParameter p := by
  unfold rebuild
  split <;> simp_all

theorem length_children_of_shape {a b : TypeKind} (h : a.shape = b.shape) :
    a.children.length = b.children.length := by
  have hlength : ∀ kind : TypeKind, kind.shape.children.length = kind.children.length := by
    intro kind
    rw [shape, children_rebuild (by simp)]
    simp
  rw [← hlength a, ← hlength b, h]

end TypeKind

/-- Pre-interned core scalar and fixed-width vector identities. -/
structure CoreTypes where
  error : TypeId
  bool : TypeId
  char : TypeId
  string : TypeId
  ownedString : TypeId
  unit : TypeId
  never : TypeId
  int8 : TypeId
  int16 : TypeId
  int32 : TypeId
  int64 : TypeId
  intSize : TypeId
  uint8 : TypeId
  uint16 : TypeId
  uint32 : TypeId
  uint64 : TypeId
  uintSize : TypeId
  float16 : TypeId
  float32 : TypeId
  float64 : TypeId
  float2 : TypeId
  float3 : TypeId
  float4 : TypeId
  float8 : TypeId
  deriving DecidableEq

/-- Deterministic canonical type interner. -/
structure TypeStore where
  kinds : List TypeKind
  interned : List (TypeKind × TypeId)
  core : CoreTypes
  deriving DecidableEq

namespace TypeStore

/-- Returns the canonical description for an identity. -/
def kind (store : TypeStore) (id : TypeId) : Option TypeKind := store.kinds[id.index]?

/-- Interns a structural description, returning an existing identity when equal. -/
def intern (store : TypeStore) (kind : TypeKind) : TypeId × TypeStore :=
  match store.interned.lookup kind with
  | some id => (id, store)
  | none =>
      let id : TypeId := ⟨store.kinds.length⟩
      (id, { store with kinds := store.kinds ++ [kind], interned := (kind, id) :: store.interned })

/-- `intern` with the store threaded through. -/
def interning (kind : TypeKind) : StateM TypeStore TypeId := fun store => store.intern kind

/-- Interns an integer scalar. -/
def integer (signedness : Signedness) (width : IntegerWidth) : StateM TypeStore TypeId :=
  interning (.integer signedness width)

/-- The core types, interned in stable order. -/
def internCore : StateM TypeStore CoreTypes := do
  let error ← interning .error
  let bool ← interning .bool
  let char ← interning .char
  let string ← interning .string
  let unit ← interning .unit
  let never ← interning .never
  let int8 ← integer .signed .bits8
  let int16 ← integer .signed .bits16
  let int32 ← integer .signed .bits32
  let int64 ← integer .signed .bits64
  let intSize ← integer .signed .pointer
  let uint8 ← integer .unsigned .bits8
  let uint16 ← integer .unsigned .bits16
  let uint32 ← integer .unsigned .bits32
  let uint64 ← integer .unsigned .bits64
  let uintSize ← integer .unsigned .pointer
  let float16 ← interning (.float .bits16)
  let float32 ← interning (.float .bits32)
  let float64 ← interning (.float .bits64)
  let float4 ← interning (.vector float32 4)
  let float8 ← interning (.vector float32 8)
  let float2 ← interning (.vector float32 2)
  let float3 ← interning (.vector float32 3)
  let ownedString ← interning .ownedString
  return { error, bool, char, string, ownedString, unit, never, int8, int16, int32, int64, intSize,
           uint8, uint16, uint32, uint64, uintSize, float16, float32, float64, float2, float3,
           float4, float8 }

/-- A store without types; its core identities are placeholders. -/
def empty : TypeStore :=
  let none : TypeId := ⟨0⟩
  ⟨[], [], ⟨none, none, none, none, none, none, none, none, none, none, none, none, none, none,
    none, none, none, none, none, none, none, none, none, none⟩⟩

/-- Creates a store with every scalar core type pre-interned in stable order. -/
def new : TypeStore :=
  let (core, store) := internCore.run empty
  { store with core }

/-! ## What an identity stands for -/

/-- The kinds listed are exactly the interned ones, and a kind is built from earlier types. -/
structure WellFormed (store : TypeStore) : Prop where
  interned_iff : ∀ kind id, store.interned.lookup kind = some id ↔ store.kind id = some kind
  children_lt : ∀ {id kind}, store.kind id = some kind → ∀ child ∈ kind.children,
    child.index < id.index

/-- The identity belongs to the store. -/
def Has (store : TypeStore) (id : TypeId) : Prop := ∃ kind, store.kind id = some kind

/-- The term an identity stands for. -/
def term (store : TypeStore) (id : TypeId) : Term TypeKind TypeVariableId :=
  match store.kind id with
  | none => .node .error []
  | some (.inferenceVariable var) => .var var
  | some kind => .node kind.shape (kind.children.map fun child =>
      if child.index < id.index then store.term child else .node .error [])
termination_by id.index

/-- Types of the first store are the same types of the second. -/
def Extends (store later : TypeStore) : Prop :=
  ∀ id kind, store.kind id = some kind → later.kind id = some kind

theorem Extends.refl (store : TypeStore) : store.Extends store := fun _ _ h => h

theorem Extends.trans {first second third : TypeStore} (h : first.Extends second)
    (h' : second.Extends third) : first.Extends third := fun id kind hkind =>
  h' id kind (h id kind hkind)

variable {store : TypeStore} {id : TypeId}

theorem Extends.has {later : TypeStore} (h : store.Extends later) (hid : store.Has id) :
    later.Has id := by
  obtain ⟨kind, hkind⟩ := hid
  exact ⟨kind, h id kind hkind⟩

theorem Has.lt (h : store.Has id) : id.index < store.kinds.length := by
  obtain ⟨kind, hkind⟩ := h
  exact (List.getElem?_eq_some_iff.mp hkind).1

theorem has_of_lt (h : id.index < store.kinds.length) :
    store.Has id := ⟨_, getElem?_eq_getElem h⟩

namespace WellFormed

variable {store later : TypeStore}

variable {id : TypeId}

theorem has_child (wf : store.WellFormed) {kind : TypeKind} (hkind : store.kind id = some kind)
    {child : TypeId} (hchild : child ∈ kind.children) : store.Has child :=
  has_of_lt (Nat.lt_trans (wf.children_lt hkind child hchild) (Has.lt ⟨kind, hkind⟩))

/-- What holds of a type when it holds of the types it is built from holds of all types. -/
theorem induct (wf : store.WellFormed) {motive : TypeId → Prop}
    (step : ∀ ty kind, store.kind ty = some kind →
    (∀ child ∈ kind.children, motive child) → motive ty)
    {ty : TypeId} (has : store.Has ty) : motive ty := by
  induction hindex : ty.index using Nat.strongRecOn generalizing ty with
  | _ index ih =>
      obtain ⟨kind, hkind⟩ := has
      refine step ty kind hkind fun child hchild => ?_
      exact ih child.index (hindex ▸ wf.children_lt hkind child hchild)
        (wf.has_child hkind hchild) rfl

theorem term_variable {var : TypeVariableId}
    (hkind : store.kind id = some (.inferenceVariable var)) : store.term id = .var var := by
  rw [term, hkind]

theorem term_eq (wf : store.WellFormed) {kind : TypeKind} (hkind : store.kind id = some kind)
    (hvariable : ∀ v, kind ≠ .inferenceVariable v) :
    store.term id = .node kind.shape (kind.children.map store.term) := by
  have hchildren : (kind.children.map fun child =>
      if child.index < id.index then store.term child else .node .error []) =
      kind.children.map store.term := by
    apply map_congr_left
    intro child hchild
    rw [if_pos (wf.children_lt hkind child hchild)]
  rw [term, hkind, ← hchildren]
  cases kind with
  | inferenceVariable v => exact absurd rfl (hvariable v)
  | _ => rfl

/-- A term does not change as the store grows. -/
theorem term_extends (wf : store.WellFormed) (wf' : later.WellFormed)
    (hextends : store.Extends later) (hid : store.Has id) : later.term id = store.term id := by
  induction hindex : id.index using Nat.strongRecOn generalizing id with
  | _ index ih =>
      obtain ⟨kind, hkind⟩ := hid
      by_cases hvariable : ∃ v, kind = .inferenceVariable v
      · obtain ⟨v, rfl⟩ := hvariable
        rw [term_variable hkind, term_variable (hextends _ _ hkind)]
      · have hne : ∀ v, kind ≠ .inferenceVariable v := fun v heq => hvariable ⟨v, heq⟩
        rw [wf.term_eq hkind hne, wf'.term_eq (hextends _ _ hkind) hne]
        congr 1
        apply map_congr_left
        intro child hchild
        have hlt := wf.children_lt hkind child hchild
        exact ih child.index (hindex ▸ hlt) (wf.has_child hkind hchild) rfl

theorem eq_of_term_eq (wf : store.WellFormed) {a b : TypeId} (ha : store.Has a) (hb : store.Has b)
    (h : store.term a = store.term b) : a = b := by
  induction hindex : a.index using Nat.strongRecOn generalizing a b with
  | _ index ih =>
      obtain ⟨kindA, hkindA⟩ := ha
      obtain ⟨kindB, hkindB⟩ := hb
      have hkinds : kindA = kindB → a = b := by
        rintro rfl
        have hinterned := (wf.interned_iff kindA a).mpr hkindA
        rw [(wf.interned_iff kindA b).mpr hkindB] at hinterned
        exact (Option.some.inj hinterned).symm
      apply hkinds
      by_cases hA : ∃ v, kindA = .inferenceVariable v <;>
        by_cases hB : ∃ v, kindB = .inferenceVariable v
      · obtain ⟨v, rfl⟩ := hA
        obtain ⟨w, rfl⟩ := hB
        rw [term_variable hkindA, term_variable hkindB] at h
        rw [Term.var.inj h]
      · obtain ⟨v, rfl⟩ := hA
        rw [term_variable hkindA, wf.term_eq hkindB fun w heq => hB ⟨w, heq⟩] at h
        cases h
      · obtain ⟨w, rfl⟩ := hB
        rw [term_variable hkindB, wf.term_eq hkindA fun w heq => hA ⟨w, heq⟩] at h
        cases h
      · rw [wf.term_eq hkindA fun w heq => hA ⟨w, heq⟩,
          wf.term_eq hkindB fun w heq => hB ⟨w, heq⟩] at h
        obtain ⟨hshape, hterms⟩ := Term.node.inj h
        apply TypeKind.eq_of_shape_of_children hshape
        apply ext_getElem (TypeKind.length_children_of_shape hshape)
        intro i hiA hiB
        have hterm : store.term kindA.children[i] = store.term kindB.children[i] := by
          have hget := congrArg (fun l => l[i]?) hterms
          simpa [hiA, hiB] using hget
        have hmemA : kindA.children[i] ∈ kindA.children := getElem_mem hiA
        have hlt := wf.children_lt hkindA _ hmemA
        exact ih _ (hindex ▸ hlt) (wf.has_child hkindA hmemA)
          (wf.has_child hkindB (getElem_mem hiB)) hterm rfl

end WellFormed

/-- Interning a kind built from types of the store gives a type of that kind. -/
theorem WellFormed.intern (wf : store.WellFormed) {kind : TypeKind}
    (hchildren : ∀ child ∈ kind.children, store.Has child) :
    (store.intern kind).2.WellFormed ∧ store.Extends (store.intern kind).2 ∧
      (store.intern kind).2.kind (store.intern kind).1 = some kind := by
  unfold TypeStore.intern
  cases hlookup : store.interned.lookup kind with
  | some id => exact ⟨wf, Extends.refl store, (wf.interned_iff kind id).mp hlookup⟩
  | none =>
      -- A kind of the grown store is an earlier one or the new one, at the end.
      have hkinds : ∀ id k, (store.kinds ++ [kind])[id]? = some k ↔
          store.kinds[id]? = some k ∨ (id = store.kinds.length ∧ k = kind) := by
        intro id k
        rcases Nat.lt_trichotomy id store.kinds.length with hlt | rfl | hgt
        · simp [getElem?_append_left hlt, Nat.ne_of_lt hlt]
        · simp [eq_comm]
        · have hnone : (store.kinds ++ [kind])[id]? = none := by
            simp only [getElem?_eq_none_iff, length_append, length_singleton]
            omega
          have hnone' : store.kinds[id]? = none := by
            simp only [getElem?_eq_none_iff]
            omega
          simp [hnone, hnone', Nat.ne_of_gt hgt]
      refine ⟨⟨?_, ?_⟩, fun id k hk => (hkinds id.index k).mpr (Or.inl hk),
        (hkinds _ kind).mpr (Or.inr ⟨rfl, rfl⟩)⟩
      · intro k id
        have hold := wf.interned_iff k id
        simp only [TypeStore.kind] at hold ⊢
        rw [hkinds, ← hold, lookup_cons]
        by_cases hk : k = kind
        · subst hk
          obtain ⟨index⟩ := id
          simp [hlookup, eq_comm]
        · have hne : (k == kind) = false := by simpa using hk
          simp [hne, hk]
      · intro id k hk child hchild
        obtain hk | ⟨hid, rfl⟩ := (hkinds id.index k).mp hk
        · exact wf.children_lt hk child hchild
        · exact hid ▸ (hchildren child hchild).lt

/-- Interns kinds one after the other. -/
def internAll (store : TypeStore) (kinds : List TypeKind) : TypeStore :=
  kinds.foldl (fun store kind => (store.intern kind).2) store

theorem WellFormed.internAll (wf : store.WellFormed) {kinds : List TypeKind}
    (hchildren : ∀ kind ∈ kinds, ∀ child ∈ kind.children, store.Has child) :
    (store.internAll kinds).WellFormed := by
  induction kinds generalizing store with
  | nil => exact wf
  | cons kind rest ih =>
      obtain ⟨hwf, hextends, -⟩ := wf.intern (hchildren kind (mem_cons_self ..))
      apply ih hwf
      intro k hk child hchild
      exact hextends.has (hchildren k (mem_cons_of_mem _ hk) child hchild)

theorem wellFormed_empty : empty.WellFormed := by
  refine ⟨fun kind id => ?_, fun hkind => ?_⟩
  · simp [empty, TypeStore.kind]
  · simp [empty, TypeStore.kind] at hkind

/-- The core scalars are built from nothing, and the core vectors from one of them. -/
theorem wellFormed_new : new.WellFormed := by
  have hnothing : ∀ kind ∈ new.kinds.take 19, kind.children = [] := by decide
  have hscalars : (empty.internAll (new.kinds.take 19)).WellFormed := by
    apply wellFormed_empty.internAll
    intro kind hkind child hchild
    rw [hnothing kind hkind] at hchild
    cases hchild
  have hearlier : ∀ kind ∈ new.kinds.drop 19, ∀ child ∈ kind.children,
      child.index < (empty.internAll (new.kinds.take 19)).kinds.length := by decide
  have hall := hscalars.internAll fun kind hkind child hchild =>
    has_of_lt (hearlier kind hkind child hchild)
  exact ⟨hall.interned_iff, hall.children_lt⟩

end TypeStore

end Jadren.Types

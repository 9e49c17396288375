import Jadren.Determinism.Hashing
import Jadren.Library.TermCodes
import Jadren.Types.Substitution
import Mathlib.Algebra.Order.Ring.Nat
import Mathlib.Data.List.Forall2

/-!
# Fingerprints of concrete types

`hashType` feeds the words of a type to a hasher: a tag for the kind, its numbers, and
then the types it is built from.  Only a concrete type has a fingerprint.  What is fed is
a prefix code of the term the type stands for, so it tells any two types of any two
stores apart before they are hashed (`hashType_prefixCode`).
-/

namespace Jadren.Types

open Unification List
open Determinism (StableHasher)

/-- Fingerprint of a concrete structural type. -/
structure TypeFingerprint where
  value : UInt64
  deriving DecidableEq

/-! ## The words of a type -/

namespace Signedness

def toWord : Signedness → ℕ
  | .signed => 0
  | .unsigned => 1

end Signedness

namespace IntegerWidth

def toWord : IntegerWidth → ℕ
  | .bits8 => 0
  | .bits16 => 1
  | .bits32 => 2
  | .bits64 => 3
  | .pointer => 4

end IntegerWidth

namespace FloatWidth

def toWord : FloatWidth → ℕ
  | .bits16 => 0
  | .bits32 => 1
  | .bits64 => 2

end FloatWidth

namespace Capability

def toWord : Capability → ℕ
  | .owned => 0
  | .read => 1
  | .write => 2

end Capability

namespace TypeStore

/-- The words of a type of this kind. -/
def hashKind (hashType : TypeId → Except TypeTransformError (List ℕ)) :
    TypeKind → Except TypeTransformError (List ℕ)
  | .error => return [0]
  | .bool => return [1]
  | .char => return [2]
  | .string => return [3]
  | .ownedString => return [18]
  | .unit => return [4]
  | .never => return [5]
  | .integer signedness width => return [6, signedness.toWord, width.toWord]
  | .float width => return [7, width.toWord]
  | .vector element lanes => return [17, lanes] ++ (← hashType element)
  | .array element length => return [8, length] ++ (← hashType element)
  | .buffer element => return [9] ++ (← hashType element)
  | .slice element => return [10] ++ (← hashType element)
  | .pointer element => return [11] ++ (← hashType element)
  | .option inner => return [12] ++ (← hashType inner)
  | .result ok error => return [13] ++ (← hashType ok) ++ (← hashType error)
  | .nominal constructor arguments =>
      return [14, constructor.fingerprint, arguments.length] ++ (← arguments.mapM hashType).flatten
  | .genericParameter parameter => throw (.genericParameter parameter)
  | .inferenceVariable var => throw (.inferenceVariable var)
  | .function parameters result =>
      return [15, parameters.length] ++ (← parameters.mapM hashType).flatten ++ (← hashType result)
  | .capability capability inner => return [16, capability.toWord] ++ (← hashType inner)

/-- The words of a type, to a depth that its index bounds. -/
def hashFrom (store : TypeStore) : ℕ → TypeId → Except TypeTransformError (List ℕ)
  | 0, ty => throw (.invalidType ty)
  | depth + 1, ty =>
      match store.kind ty with
      | none => throw (.invalidType ty)
      | some kind => hashKind (store.hashFrom depth) kind

/-- The words that are fed to the hasher. -/
def hashType (store : TypeStore) (ty : TypeId) : Except TypeTransformError (List ℕ) :=
  store.hashFrom (ty.index + 1) ty

/-- Computes a stable structural fingerprint for a fully concrete type. -/
def stableFingerprint (store : TypeStore) (ty : TypeId) :
    Except TypeTransformError TypeFingerprint := do
  let words ← store.hashType ty
  let hasher := StableHasher.withDomain "jadren-concrete-type-v1".toList
  return ⟨(words.foldl (fun hasher word => hasher.writeU64 word.toUInt64) hasher).state⟩

end TypeStore

/-! ## The code of a term -/

namespace TypeKind

/-- The words in front of those of the children. -/
def head : TypeKind → List ℕ
  | .error => [0]
  | .bool => [1]
  | .char => [2]
  | .string => [3]
  | .ownedString => [18]
  | .unit => [4]
  | .never => [5]
  | .integer signedness width => [6, signedness.toWord, width.toWord]
  | .float width => [7, width.toWord]
  | .vector _ lanes => [17, lanes]
  | .array _ length => [8, length]
  | .buffer _ => [9]
  | .slice _ => [10]
  | .pointer _ => [11]
  | .option _ => [12]
  | .result _ _ => [13]
  | .nominal constructor arguments => [14, constructor.fingerprint, arguments.length]
  | .genericParameter _ | .inferenceVariable _ => []
  | .function parameters _ => [15, parameters.length]
  | .capability access _ => [16, access.toWord]

/-- The shape of a concrete kind. -/
def GoodShape (shape : TypeKind) : Prop :=
  shape.shape = shape ∧ (∀ p, shape ≠ .genericParameter p) ∧ ∀ v, shape ≠ .inferenceVariable v

def readSignedness : ℕ → Signedness
  | 0 => .signed
  | _ => .unsigned

def readIntegerWidth : ℕ → IntegerWidth
  | 0 => .bits8
  | 1 => .bits16
  | 2 => .bits32
  | 3 => .bits64
  | _ => .pointer

def readFloatWidth : ℕ → FloatWidth
  | 0 => .bits16
  | 1 => .bits32
  | _ => .bits64

def readCapability : ℕ → Capability
  | 0 => .owned
  | 1 => .read
  | _ => .write

/-- The shape whose words a text begins with, and the rest of the text. -/
def readHead : List ℕ → Option (TypeKind × List ℕ)
  | 0 :: rest => some (.error, rest)
  | 1 :: rest => some (.bool, rest)
  | 2 :: rest => some (.char, rest)
  | 3 :: rest => some (.string, rest)
  | 4 :: rest => some (.unit, rest)
  | 5 :: rest => some (.never, rest)
  | 6 :: signedness :: width :: rest =>
      some (.integer (readSignedness signedness) (readIntegerWidth width), rest)
  | 7 :: width :: rest => some (.float (readFloatWidth width), rest)
  | 8 :: length :: rest => some (.array ⟨0⟩ length, rest)
  | 9 :: rest => some (.buffer ⟨0⟩, rest)
  | 10 :: rest => some (.slice ⟨0⟩, rest)
  | 11 :: rest => some (.pointer ⟨0⟩, rest)
  | 12 :: rest => some (.option ⟨0⟩, rest)
  | 13 :: rest => some (.result ⟨0⟩ ⟨0⟩, rest)
  | 14 :: fingerprint :: count :: rest =>
      some (.nominal ⟨fingerprint⟩ (replicate count ⟨0⟩), rest)
  | 15 :: count :: rest => some (.function (replicate count ⟨0⟩) ⟨0⟩, rest)
  | 16 :: access :: rest => some (.capability (readCapability access) ⟨0⟩, rest)
  | 17 :: lanes :: rest => some (.vector ⟨0⟩ lanes, rest)
  | 18 :: rest => some (.ownedString, rest)
  | _ => none

theorem readHead_append {shape : TypeKind} (h : GoodShape shape) (rest : List ℕ) :
    readHead (head shape ++ rest) = some (shape, rest) := by
  obtain ⟨hshape, hparameter, hvariable⟩ := h
  cases shape with
  | genericParameter p => exact absurd rfl (hparameter p)
  | inferenceVariable v => exact absurd rfl (hvariable v)
  | integer signedness width => cases signedness <;> cases width <;> rfl
  | float width => cases width <;> rfl
  | capability access inner =>
      obtain rfl : (⟨0⟩ : TypeId) = inner := by simpa [shape, rebuild, children] using hshape
      cases access <;> rfl
  | nominal constructor arguments =>
      have harguments : replicate arguments.length ⟨0⟩ = arguments := by
        simpa [shape, rebuild, children, map_const'] using hshape
      show some (nominal ⟨constructor.fingerprint⟩ (replicate arguments.length ⟨0⟩), rest) = _
      rw [harguments]
  | function parameters result =>
      obtain ⟨hparameters, hresult⟩ :
          replicate parameters.length ⟨0⟩ = parameters ∧ (⟨0⟩ : TypeId) = result := by
        simpa [shape, rebuild, children, map_const'] using hshape
      show some (function (replicate parameters.length ⟨0⟩) ⟨0⟩, rest) = _
      rw [hparameters, hresult]
  | vector element | array element | buffer element | slice element | pointer element
  | option element =>
      obtain rfl : (⟨0⟩ : TypeId) = element := by simpa [shape, rebuild, children] using hshape
      rfl
  | result ok error =>
      obtain ⟨rfl, rfl⟩ : (⟨0⟩ : TypeId) = ok ∧ (⟨0⟩ : TypeId) = error := by
        simpa [shape, rebuild, children] using hshape
      rfl
  | _ => rfl

/-- The words of a shape can be told from those of another and from what follows. -/
theorem headsReadBack : Term.HeadsReadBack GoodShape head := by
  intro s s' rest rest' hs hs' h
  have hread : some (s, rest) = some (s', rest') :=
    calc some (s, rest) = readHead (head s ++ rest) := (readHead_append hs rest).symm
      _ = readHead (head s' ++ rest') := by rw [h]
      _ = some (s', rest') := readHead_append hs' rest'
  exact Prod.mk.inj (Option.some.inj hread)

end TypeKind

namespace TypeKind

/-- Why a type of this kind has no fingerprint. -/
def openError : TypeKind → Option TypeTransformError
  | .genericParameter parameter => some (.genericParameter parameter)
  | .inferenceVariable var => some (.inferenceVariable var)
  | _ => none

theorem openError_shape (kind : TypeKind) : kind.shape.openError = kind.openError := by
  cases kind <;> rfl

theorem head_shape (kind : TypeKind) : kind.shape.head = kind.head := by
  cases kind <;> simp [shape, rebuild, children, head]

theorem shape_shape (kind : TypeKind) : kind.shape.shape = kind.shape := shape_rebuild (by simp)

theorem goodShape_shape {kind : TypeKind} (h : kind.openError = none) : GoodShape kind.shape := by
  refine ⟨shape_shape kind, fun p hp => ?_, fun v hv => ?_⟩
  · rw [← openError_shape, hp] at h
    cases h
  · rw [← openError_shape, hv] at h
    cases h

end TypeKind

theorem mapM_eq_ok {α β ε : Type} {f : α → Except ε β} {as : List α} {bs : List β} :
    as.mapM f = .ok bs ↔ Forall₂ (fun a b => f a = .ok b) as bs := by
  induction as generalizing bs with
  | nil =>
      rw [mapM_nil, forall₂_nil_left_iff]
      exact ⟨fun h => (Except.ok.inj h).symm, fun h => congrArg Except.ok h.symm⟩
  | cons a as ih =>
      rw [mapM_cons, forall₂_cons_left_iff]
      constructor
      · intro h
        cases ha : f a with
        | error => rw [ha] at h; cases h
        | ok b =>
            rw [ha] at h
            cases has : as.mapM f with
            | error => rw [has] at h; cases h
            | ok rest =>
                rw [has] at h
                exact ⟨b, rest, rfl, ih.mp has, (Except.ok.inj h).symm⟩
      · intro h
        obtain ⟨b, rest, ha, hrest, rfl⟩ := h
        rw [ha, ih.mpr hrest]
        rfl

namespace TypeStore

/-- The words of a kind are its own and then those of the types it is built from. -/
theorem hashKind_eq (hashType : TypeId → Except TypeTransformError (List ℕ)) (kind : TypeKind) :
    hashKind hashType kind = match kind.openError with
      | some error => .error error
      | none => do
          let words ← kind.children.mapM hashType
          return kind.head ++ words.flatten := by
  have hone (words : List ℕ) (child : TypeId) :
      (do return words ++ (← hashType child) : Except TypeTransformError (List ℕ)) = do
        let others ← [child].mapM hashType
        return words ++ others.flatten := by
    cases hchild : hashType child <;> simp [hchild]
  cases kind with
  | vector child | array child | buffer child | slice child | pointer child | option child
  | capability _ child => exact hone _ child
  | result ok error =>
      show (do return [13] ++ (← hashType ok) ++ (← hashType error)) = do
        let words ← [ok, error].mapM hashType
        return [13] ++ words.flatten
      simp
  | function parameters result =>
      show (do return [15, parameters.length] ++ (← parameters.mapM hashType).flatten ++
          (← hashType result)) = do
        let words ← (parameters ++ [result]).mapM hashType
        return [15, parameters.length] ++ words.flatten
      simp
  | _ => rfl

/-- A type is concrete if neither a variable nor a generic parameter stands in it. -/
def Concrete (store : TypeStore) (ty : TypeId) : Prop :=
  (store.term ty).Ground fun shape => shape.openError = none

variable {store first second : TypeStore}

theorem WellFormed.term_of_openError (wf : store.WellFormed) {ty : TypeId} {kind : TypeKind}
    (hkind : store.kind ty = some kind) (hopen : kind.openError = none) :
    store.term ty = .node kind.shape (kind.children.map store.term) := by
  refine wf.term_eq hkind fun v hv => ?_
  rw [hv] at hopen
  cases hopen

theorem WellFormed.concrete_iff (wf : store.WellFormed) {ty : TypeId} {kind : TypeKind}
    (hkind : store.kind ty = some kind) :
    store.Concrete ty ↔ kind.openError = none ∧ ∀ child ∈ kind.children, store.Concrete child := by
  have hnode (hterm : store.term ty = .node kind.shape (kind.children.map store.term)) :
      store.Concrete ty ↔
        kind.openError = none ∧ ∀ child ∈ kind.children, store.Concrete child := by
    rw [Concrete, hterm]
    constructor
    · intro h
      obtain ⟨hgood, hchildren⟩ := h
      exact ⟨by rwa [← TypeKind.openError_shape],
        fun child hchild => hchildren _ (mem_map_of_mem hchild)⟩
    · intro h
      refine .node (by rw [TypeKind.openError_shape]; exact h.1) fun t ht => ?_
      obtain ⟨child, hchild, rfl⟩ := mem_map.mp ht
      exact h.2 child hchild
  by_cases hvariable : ∃ v, kind = .inferenceVariable v
  · obtain ⟨v, rfl⟩ := hvariable
    rw [Concrete, term_variable hkind]
    constructor
    · intro h
      cases h
    · intro h
      cases h.1
  · exact hnode (wf.term_eq hkind fun v hv => hvariable ⟨v, hv⟩)

/-- The words of a concrete type are the code of the term it stands for. -/
theorem WellFormed.hashFrom_eq (wf : store.WellFormed) {ty : TypeId} (has : store.Has ty) :
    ∀ depth > ty.index, (store.Concrete ty →
        store.hashFrom depth ty = .ok ((store.term ty).encode TypeKind.head)) ∧
      ∀ words, store.hashFrom depth ty = .ok words → store.Concrete ty := by
  refine wf.induct (motive := fun ty => ∀ depth > ty.index, (store.Concrete ty →
      store.hashFrom depth ty = .ok ((store.term ty).encode TypeKind.head)) ∧
    ∀ words, store.hashFrom depth ty = .ok words → store.Concrete ty) ?_ has
  intro ty kind hkind ih depth hdepth
  obtain ⟨depth, rfl⟩ : ∃ n, depth = n + 1 := ⟨depth - 1, by omega⟩
  have hchild : ∀ child ∈ kind.children, depth > child.index := fun child hchild => by
    have := wf.children_lt hkind child hchild
    omega
  rw [hashFrom, hkind, wf.concrete_iff hkind]
  show (_ → hashKind _ kind = _) ∧ ∀ words, hashKind _ kind = _ → _
  rw [hashKind_eq]
  cases hopen : kind.openError with
  | some => simp
  | none =>
      refine ⟨fun h => ?_, fun words h => ⟨rfl, fun child hmem => ?_⟩⟩
      · have hwords : kind.children.mapM (store.hashFrom depth) =
            .ok (kind.children.map fun child => (store.term child).encode TypeKind.head) := by
          rw [mapM_eq_ok, forall₂_map_right_iff, forall₂_same]
          exact fun child hmem => (ih child hmem depth (hchild child hmem)).1 (h.2 child hmem)
        rw [hwords, wf.term_of_openError hkind hopen, Term.encode_node, TypeKind.head_shape,
          map_map]
        rfl
      · cases hmap : kind.children.mapM (store.hashFrom depth) with
        | error =>
            simp only [hmap] at h
            cases h
        | ok =>
            obtain ⟨i, hi, rfl⟩ := getElem_of_mem hmem
            have hforall := mapM_eq_ok.mp hmap
            have hget := Forall₂.get hforall hi (hforall.length_eq ▸ hi)
            exact (ih _ hmem depth (hchild _ hmem)).2 _ hget

/-- A concrete type stands for a term that the code can be read back to. -/
theorem WellFormed.codes (wf : store.WellFormed) {ty : TypeId} (has : store.Has ty)
    (concrete : store.Concrete ty) :
    (store.term ty).Ground TypeKind.GoodShape ∧
      (store.term ty).Ranked fun shape => shape.children.length := by
  refine wf.induct (motive := fun ty => store.Concrete ty →
    (store.term ty).Ground TypeKind.GoodShape ∧
      (store.term ty).Ranked fun shape => shape.children.length) ?_ has concrete
  intro ty kind hkind ih hconcrete
  obtain ⟨hopen, hchildren⟩ := (wf.concrete_iff hkind).mp hconcrete
  rw [wf.term_of_openError hkind hopen]
  refine ⟨.node (TypeKind.goodShape_shape hopen) fun t ht => ?_, .node ?_ fun t ht => ?_⟩
  · obtain ⟨child, hchild, rfl⟩ := mem_map.mp ht
    exact (ih child hchild (hchildren child hchild)).1
  · rw [length_map, ← TypeKind.length_children_of_shape (TypeKind.shape_shape kind)]
  · obtain ⟨child, hchild, rfl⟩ := mem_map.mp ht
    exact (ih child hchild (hchildren child hchild)).2

/-! ## Types of two stores -/

/-- The stores that are built by interning. -/
inductive Reachable : TypeStore → Prop
  | new : Reachable .new
  | intern {store : TypeStore} (reachable : Reachable store) (kind : TypeKind)
      (children : ∀ child ∈ kind.children, store.Has child) : Reachable (store.intern kind).2

theorem Reachable.wellFormed (reachable : store.Reachable) : store.WellFormed := by
  induction reachable with
  | new => exact wellFormed_new
  | intern reachable kind children ih => exact (ih.intern children).1

/-- Two types of two stores have the same structure: from the outside in they are built in the
same way. -/
def SameStructure (first second : TypeStore) (t u : TypeId) : Prop := first.term t = second.term u

/-- **The words of concrete types are an injective prefix code**, whatever the stores are. -/
theorem hashType_prefixCode (reachable : first.Reachable) (reachable' : second.Reachable)
    {t u : TypeId} (has : first.Has t) (has' : second.Has u) (concrete : first.Concrete t)
    (concrete' : second.Concrete u) :
    ∃ words words', first.hashType t = .ok words ∧ second.hashType u = .ok words' ∧
      (words = words' ↔ SameStructure first second t u) ∧
      (words <+: words' → words = words') ∧ (words' <+: words → words' = words) := by
  have hwords := (reachable.wellFormed.hashFrom_eq has (t.index + 1) (Nat.lt_succ_self _)).1
      concrete
  have hwords' :=
    (reachable'.wellFormed.hashFrom_eq has' (u.index + 1) (Nat.lt_succ_self _)).1 concrete'
  obtain ⟨hground, hranked⟩ := reachable.wellFormed.codes has concrete
  obtain ⟨hground', hranked'⟩ := reachable'.wellFormed.codes has' concrete'
  have hsame (h : (first.term t).encode TypeKind.head <+: (second.term u).encode TypeKind.head) :
      first.term t = second.term u :=
    Term.eq_of_encode_isPrefix TypeKind.headsReadBack hground hranked hground' hranked' h
  have hsame' (h : (second.term u).encode TypeKind.head <+: (first.term t).encode TypeKind.head) :
      second.term u = first.term t :=
    Term.eq_of_encode_isPrefix TypeKind.headsReadBack hground' hranked' hground hranked h
  refine ⟨_, _, hwords, hwords', ⟨fun h => ?_, fun h => ?_⟩, fun h => ?_, fun h => ?_⟩
  · exact hsame (h ▸ prefix_rfl)
  · rw [SameStructure] at h
    rw [h]
  · rw [hsame h]
  · rw [hsame' h]

/-- A store that has an option of the 32-bit integers. -/
def withOption : TypeStore := (new.intern (.option new.core.int32)).2

theorem reachable_withOption : withOption.Reachable :=
  .intern .new _ (forall_mem_singleton.mpr (has_of_lt (by decide)))

/-- The words of the integers are those of the option but for the first. -/
theorem hashType_prefixCode_withOption :
    ∃ words words', new.hashType ⟨8⟩ = .ok words ∧ withOption.hashType ⟨24⟩ = .ok words' ∧
      (words = words' ↔ SameStructure new withOption ⟨8⟩ ⟨24⟩) ∧
      (words <+: words' → words = words') ∧ (words' <+: words → words' = words) :=
  have has : new.Has ⟨8⟩ := has_of_lt (by decide)
  have has' : withOption.Has ⟨24⟩ := has_of_lt (by decide)
  hashType_prefixCode .new reachable_withOption has has'
    ((wellFormed_new.hashFrom_eq has 9 (by decide)).2 [6, 0, 2] (by decide))
    ((reachable_withOption.wellFormed.hashFrom_eq has' 25 (by decide)).2 [12, 6, 0, 2] (by decide))

end TypeStore

end Jadren.Types

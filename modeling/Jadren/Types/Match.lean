import Jadren.Types.MostGeneral

/-!
# Type checking a match

The part of the checker that looks at the arms of a match: `inferMatchArms`, which
collects the variants that arms without a guard cover, and `inferPattern`, which types
the declarations of a pattern and says what it covers.

Everything else the checker does meanwhile (`CheckerCalls`: typing guards and arms,
unifying, instantiating generic fields) only adds types, bindings and diagnostics.
-/

namespace Jadren.Types

/-! ## Syntax -/

/-- A source range. -/
structure Span where
  source : ℕ
  start : ℕ
  stop : ℕ
  deriving DecidableEq

structure Name where
  text : String
  span : Span
  deriving DecidableEq

/-- A dot-separated path. -/
structure Path where
  segments : List Name
  span : Span
  deriving DecidableEq

inductive LiteralKind
  | integer
  | float
  | string
  | char
  | bool
  deriving DecidableEq

/-- A literal of the source, with the text it stands for there. -/
structure Literal where
  kind : LiteralKind
  text : String
  span : Span
  deriving DecidableEq

/-- A match pattern. -/
inductive Pattern
  | wildcard (span : Span)
  /-- A name, or a dot-separated enum path. -/
  | path (path : Path)
  | constructor (path : Path) (arguments : List Pattern) (span : Span)
  | literal (literal : Literal)
  | error (span : Span)

structure MatchArm (Expression : Type) where
  pattern : Pattern
  guard : Option Expression
  value : Expression
  span : Span

/-- The last segment of a path. -/
def Path.last (path : Path) : Option String := path.segments.getLast?.map Name.text

/-- A single name that starts with a lower-case letter binds the value. -/
def isBindingPattern (path : Path) : Bool :=
  match path.segments with
  | [name] => name.text.toList.head?.any Char.isLower
  | _ => false

/-! ## The state of the checker -/

structure EnumVariantInfo where
  fields : List TypeId
  span : Span
  deriving DecidableEq

/-- A declared enum, with its variants in the order of their names. -/
structure EnumInfo where
  genericParameters : List GenericParameterId
  variants : List (String × EnumVariantInfo)
  deriving DecidableEq

structure Diagnostic where
  code : String
  message : String
  span : Span
  label : String
  secondary : Option (Span × String)
  deriving DecidableEq

structure Checker where
  /-- The source file. -/
  source : ℕ
  context : InferenceContext
  enums : List (NominalTypeId × EnumInfo)
  diagnostics : List Diagnostic
  /-- The types given to declarations, by where they are declared. -/
  declarations : List (Span × TypeId)

namespace Checker

variable (c : Checker)

def report (diagnostic : Diagnostic) : Checker :=
  { c with diagnostics := c.diagnostics ++ [diagnostic] }

def assignDeclaration (span : Span) (ty : TypeId) : Checker :=
  { c with declarations := c.declarations ++ [(span, ty)] }

def fresh : TypeId × Checker := (c.context.fresh.1, { c with context := c.context.fresh.2 })

/-- A later state: nothing that was known is forgotten. -/
structure Extends (c c' : Checker) : Prop where
  enums : c'.enums = c.enums
  diagnostics : c.diagnostics <+: c'.diagnostics
  grows : c.context.Grows c'.context

theorem Extends.refl : c.Extends c := ⟨rfl, List.prefix_rfl, .refl _⟩

variable {c} {c' c'' : Checker}

theorem Extends.trans (h : c.Extends c') (h' : c'.Extends c'') : c.Extends c'' :=
  ⟨h'.enums.trans h.enums, h.diagnostics.trans h'.diagnostics, h.grows.trans h'.grows⟩

theorem Extends.diagnostics_eq_nil (h : c.Extends c') (hnil : c'.diagnostics = []) :
    c.diagnostics = [] := List.prefix_nil.mp (hnil ▸ h.diagnostics)

theorem extends_report (diagnostic : Diagnostic) : c.Extends (c.report diagnostic) :=
  ⟨rfl, List.prefix_append _ _, .refl _⟩

theorem extends_assignDeclaration (span : Span) (ty : TypeId) :
    c.Extends (c.assignDeclaration span ty) := ⟨rfl, List.prefix_rfl, .refl _⟩

theorem TypeStore.extends_intern (store : TypeStore) (kind : TypeKind) :
    store.Extends (store.intern kind).2 := by
  unfold TypeStore.intern
  split
  · exact TypeStore.Extends.refl store
  · intro id kind' hkind
    exact (List.getElem?_append_left (List.getElem?_eq_some_iff.mp hkind).1).trans hkind

theorem extends_fresh : c.Extends c.fresh.2 := by
  refine ⟨rfl, List.prefix_rfl, ⟨TypeStore.extends_intern _ _, fun {var ty} hbinding => ?_⟩⟩
  exact (c.context.binding_unallocated var).trans hbinding

end Checker

/-- The rest of the checker: what is called while a match is checked. -/
structure CheckerCalls (Expression : Type) where
  span : Expression → Span
  /-- The type of an expression in a function with a return type. -/
  inferExpression : Expression → TypeId → Checker → TypeId × Checker
  unifyOrError : TypeId → TypeId → Span → Checker → TypeId × Checker
  /-- A type with generic parameters replaced. -/
  substitute : List (GenericParameterId × TypeId) → TypeId → Checker → TypeId × Checker
  extends_inferExpression : ∀ expression returnType (c : Checker),
    c.Extends (inferExpression expression returnType c).2
  extends_unifyOrError : ∀ expected actual span (c : Checker),
    c.Extends (unifyOrError expected actual span c).2
  extends_substitute : ∀ substitution ty (c : Checker), c.Extends (substitute substitution ty c).2

/-! ## Literals -/

/-- The suffixes of integer literals. -/
def integerSuffixes (core : CoreTypes) : List (String × TypeId) :=
  [("usize", core.uintSize), ("isize", core.intSize), ("u64", core.uint64), ("u32", core.uint32),
    ("u16", core.uint16), ("u8", core.uint8), ("i64", core.int64), ("i32", core.int32),
    ("i16", core.int16), ("i8", core.int8)]

def literalType (core : CoreTypes) (literal : Literal) : TypeId :=
  let text := literal.text.toList.map Char.toLower
  let endsWith (suffix : String) : Bool := suffix.toList.isSuffixOf text
  match literal.kind with
  | .bool => core.bool
  | .char => core.char
  | .string => core.string
  | .integer =>
      match (integerSuffixes core).find? fun suffix => endsWith suffix.1 with
      | some suffix => suffix.2
      | none => core.int32
  | .float =>
      if endsWith "f16" then core.float16
      else if endsWith "f32" then core.float32
      else core.float64

/-! ## Patterns -/

/-- What a pattern covers. -/
inductive PatternCoverage
  | none
  | all
  | variant (name : String)
  deriving DecidableEq

section

variable {Expression : Type} (calls : CheckerCalls Expression)

def unknownVariant (name : String) (span : Span) : Diagnostic :=
  ⟨"J0309", "unknown enum variant `" ++ name ++ "`", span,
    "variant is not declared by the matched enum", none⟩

def wrongPayloadCount (name : String) (variant : EnumVariantInfo) (count : ℕ) (span : Span) :
    Diagnostic :=
  ⟨"J0310", "variant `" ++ name ++ "` expects " ++ toString variant.fields.length ++
    " payload patterns but received " ++ toString count, span,
    "incorrect enum pattern payload count", some (variant.span, "variant is declared here")⟩

/-- A pattern that names a variant, given how its payload patterns are typed. -/
def inferVariantPattern (name : Option String) (payloads : ℕ)
    (inferArguments : List TypeId → Checker → Checker) (span : Span) (enumInfo : Option EnumInfo)
    (c : Checker) : PatternCoverage × Checker :=
  match name, enumInfo with
  | none, _ => (.none, c)
  | some _, none => (.none, inferArguments [] c)
  | some name, some info =>
      match info.variants.lookup name with
      | none => (.none, c.report (unknownVariant name span))
      | some variant =>
          let counted :=
            if variant.fields.length = payloads then c
            else c.report (wrongPayloadCount name variant payloads span)
          (.variant name, inferArguments variant.fields counted)

mutual

/-- Types the declarations of a pattern.  Only the pattern of an arm itself is given the
variants of what it matches. -/
def inferPattern (expected : TypeId) (enumInfo : Option EnumInfo) :
    Pattern → Checker → PatternCoverage × Checker
  | .wildcard _, c => (.all, c)
  | .error _, c => (.none, c)
  | .literal literal, c =>
      let actual := literalType c.context.store.core literal
      (.none, (calls.unifyOrError expected actual literal.span c).2)
  | .path path, c =>
      if isBindingPattern path then
        (.all, c.assignDeclaration ((path.segments.head?.map Name.span).getD path.span) expected)
      else inferVariantPattern path.last 0 (fun _ c => c) path.span enumInfo c
  | .constructor path arguments span, c =>
      inferVariantPattern path.last arguments.length
        (fun fields c => inferArguments fields arguments c) span enumInfo c

/-- The patterns of a payload; a field that is not declared gets a new type. -/
def inferArguments (fields : List TypeId) : List Pattern → Checker → Checker
  | [], c => c
  | argument :: rest, c =>
      match fields with
      | field :: fields => inferArguments fields rest (inferPattern field none argument c).2
      | [] =>
          let fresh := c.fresh
          inferArguments [] rest (inferPattern fresh.1 none argument fresh.2).2

end

/-! ## The variants of a type -/

/-- The fields of the variants, with the arguments of the type for its parameters. -/
def instantiateFields (substitution : List (GenericParameterId × TypeId)) :
    List TypeId → Checker → List TypeId × Checker
  | [], c => ([], c)
  | field :: fields, c =>
      let first := calls.substitute substitution field c
      let rest := instantiateFields substitution fields first.2
      (first.1 :: rest.1, rest.2)

def instantiateVariants (substitution : List (GenericParameterId × TypeId)) :
    List (String × EnumVariantInfo) → Checker → List (String × EnumVariantInfo) × Checker
  | [], c => ([], c)
  | (name, variant) :: variants, c =>
      let fields := instantiateFields calls substitution variant.fields c
      let rest := instantiateVariants substitution variants fields.2
      ((name, { variant with fields := fields.1 }) :: rest.1, rest.2)

/-- The variants of an enum, an option or a result. -/
def enumInfoForType (c : Checker) (ty : TypeId) : Option EnumInfo × Checker :=
  let span : Span := ⟨c.source, 0, 0⟩
  match c.context.store.kind ty with
  | some (.nominal constructor arguments) =>
      match c.enums.lookup constructor with
      | none => (none, c)
      | some info =>
          let variants := instantiateVariants calls (info.genericParameters.zip arguments)
            info.variants c
          (some ⟨[], variants.1⟩, variants.2)
  | some (.option inner) => (some ⟨[], [("None", ⟨[], span⟩), ("Some", ⟨[inner], span⟩)]⟩, c)
  | some (.result ok error) =>
      (some ⟨[], [("Error", ⟨[error], span⟩), ("Ok", ⟨[ok], span⟩)]⟩, c)
  | _ => (none, c)

/-! ## Arms -/

/-- What the arms seen so far cover. -/
structure Covered where
  variants : List String
  all : Bool

def Covered.add (covered : Covered) : PatternCoverage → Covered
  | .none => covered
  | .all => { covered with all := true }
  | .variant name => { covered with variants := name :: covered.variants }

/-- One arm: its pattern, its guard, its value. -/
def inferArm (valueType returnType result : TypeId) (enumInfo : Option EnumInfo)
    (arm : MatchArm Expression) (state : Covered × Checker) : Covered × Checker :=
  let pattern := inferPattern calls valueType enumInfo arm.pattern state.2
  let guarded :=
    match arm.guard with
    | some guard =>
        let type := calls.inferExpression guard returnType pattern.2
        (state.1, (calls.unifyOrError type.2.context.store.core.bool type.1 (calls.span guard)
          type.2).2)
    | none => (state.1.add pattern.1, pattern.2)
  let value := calls.inferExpression arm.value returnType guarded.2
  (guarded.1, (calls.unifyOrError result value.1 (calls.span arm.value) value.2).2)

def inferArms (valueType returnType result : TypeId) (enumInfo : Option EnumInfo) :
    List (MatchArm Expression) → Covered × Checker → Covered × Checker
  | [], state => state
  | arm :: arms, state =>
      inferArms valueType returnType result enumInfo arms
        (inferArm calls valueType returnType result enumInfo arm state)

def nonExhaustive (missing : List String) (span : Span) : Diagnostic :=
  ⟨"J0311", "non-exhaustive match; missing " ++ ", ".intercalate missing, span,
    "add the missing variants or an unguarded wildcard arm", none⟩

/-- Reports the variants that no arm without a guard covers. -/
def reportMissing (enumInfo : Option EnumInfo) (arms : List (MatchArm Expression))
    (state : Covered × Checker) : Checker :=
  match enumInfo with
  | none => state.2
  | some info =>
      let missing := (info.variants.map Prod.fst).filter fun name => name ∉ state.1.variants
      if state.1.all ∨ missing = [] then state.2
      else state.2.report
        (nonExhaustive missing ((arms.head?.map MatchArm.span).getD ⟨state.2.source, 0, 0⟩))

/-- **The arms of a match** on a value of a type; `none` is out of fuel. -/
def inferMatchArms (fuel : ℕ) (valueType : TypeId) (arms : List (MatchArm Expression))
    (returnType : TypeId) (c : Checker) : Option (TypeId × Checker) :=
  let result := c.fresh
  (result.2.context.resolveShallow fuel valueType).map fun resolved =>
    let enumInfo := enumInfoForType calls result.2 resolved
    let state := inferArms calls valueType returnType result.1 enumInfo.1 arms
      (⟨[], false⟩, enumInfo.2)
    (result.1, reportMissing enumInfo.1 arms state)

/-! ## Nothing is forgotten -/

variable {calls}

variable {enumInfo : Option EnumInfo} {c : Checker}

theorem extends_inferVariantPattern {name : Option String} {payloads : ℕ}
    {inferArguments : List TypeId → Checker → Checker} {span : Span}
    (harguments : ∀ fields (c : Checker), c.Extends (inferArguments fields c)) :
    c.Extends (inferVariantPattern name payloads inferArguments span enumInfo c).2 := by
  unfold inferVariantPattern
  split
  · exact .refl c
  · exact harguments [] c
  · split
    · exact Checker.extends_report _
    · refine Checker.Extends.trans ?_ (harguments _ _)
      split
      · exact .refl c
      · exact Checker.extends_report _

mutual

theorem extends_inferPattern (expected : TypeId) (enumInfo : Option EnumInfo) (c : Checker) :
    (pattern : Pattern) → c.Extends (inferPattern calls expected enumInfo pattern c).2
  | .wildcard _ | .error _ => by
      rw [inferPattern]
      exact .refl c
  | .literal literal => by
      rw [inferPattern]
      exact calls.extends_unifyOrError ..
  | .path path => by
      rw [inferPattern]
      split
      · exact Checker.extends_assignDeclaration ..
      · exact extends_inferVariantPattern fun _ c => .refl c
  | .constructor path arguments span => by
      rw [inferPattern]
      exact extends_inferVariantPattern fun fields c => extends_inferArguments fields c arguments

theorem extends_inferArguments (fields : List TypeId) (c : Checker) :
    (arguments : List Pattern) → c.Extends (inferArguments calls fields arguments c)
  | [] => by
      rw [inferArguments]
      exact .refl c
  | argument :: rest => by
      rw [inferArguments.eq_def]
      dsimp only
      split
      · exact (extends_inferPattern _ none c argument).trans (extends_inferArguments _ _ rest)
      · exact (Checker.extends_fresh.trans (extends_inferPattern _ none _ argument)).trans
          (extends_inferArguments _ _ rest)

end

variable {valueType returnType : TypeId} {state : Covered × Checker}

theorem extends_inferArm {result : TypeId} {arm : MatchArm Expression} :
    (inferPattern calls valueType enumInfo arm.pattern state.2).2.Extends
      (inferArm calls valueType returnType result enumInfo arm state).2 := by
  unfold inferArm
  refine Checker.Extends.trans ?_
    ((calls.extends_inferExpression ..).trans (calls.extends_unifyOrError ..))
  split
  · exact (calls.extends_inferExpression ..).trans (calls.extends_unifyOrError ..)
  · exact .refl _

variable {arms : List (MatchArm Expression)}

theorem extends_inferArms {result : TypeId} :
    state.2.Extends (inferArms calls valueType returnType result enumInfo arms state).2 := by
  induction arms generalizing state with
  | nil => exact .refl _
  | cons arm arms ih =>
      exact ((extends_inferPattern _ _ _ _).trans extends_inferArm).trans ih

variable {substitution : List (GenericParameterId × TypeId)}

theorem extends_instantiateFields {fields : List TypeId} :
    c.Extends (instantiateFields calls substitution fields c).2 := by
  induction fields generalizing c with
  | nil => exact .refl c
  | cons field fields ih => exact (calls.extends_substitute ..).trans ih

theorem extends_instantiateVariants {variants : List (String × EnumVariantInfo)} :
    c.Extends (instantiateVariants calls substitution variants c).2 := by
  induction variants generalizing c with
  | nil => exact .refl c
  | cons variant variants ih => exact extends_instantiateFields.trans ih

theorem extends_enumInfoForType {ty : TypeId} : c.Extends (enumInfoForType calls c ty).2 := by
  unfold enumInfoForType
  dsimp only
  split
  · split
    · exact .refl c
    · exact extends_instantiateVariants
  · exact .refl c
  · exact .refl c
  · exact .refl c

theorem extends_reportMissing : state.2.Extends (reportMissing enumInfo arms state) := by
  unfold reportMissing
  split
  · exact .refl _
  · dsimp only
    split
    · exact .refl _
    · exact Checker.extends_report _

end

end Jadren.Types

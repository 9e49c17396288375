import Mathlib.Algebra.Group.Int.Defs
import Jadren.Library.PatternMatrix
import Jadren.Types.Match

/-!
# Which accepted matches are exhaustive

The checker counts a variant as covered when an arm without a guard names it, whatever
the patterns for its fields are; it asks for nothing if the type of the value has no
variants or is not known yet.  The code of a match tests the fields as well, and a value
that no arm matches has no defined behaviour.

`AlwaysMatches` says that there is no such value.  That is a question about the patterns
and the type: `exhaustive_of_accepted` answers it by taking the patterns apart column by
column, and says when acceptance is enough.
-/

namespace Jadren.Types

open Unification (Term)
open PatternMatrix List InferenceContext Option

/-! ## Values -/

/-- A type, without the store it is interned in. -/
abbrev SemanticType := Term TypeKind TypeVariableId

/-- The type with types in the places of generic parameters. -/
def instantiate (substitution : List (GenericParameterId × SemanticType)) :
    SemanticType → SemanticType
  | .var v => .var v
  | .node (.genericParameter parameter) children =>
      (substitution.lookup parameter).getD (.node (.genericParameter parameter) children)
  | .node symbol children => .node symbol (children.map fun t => instantiate substitution t)

/-- What an identity stands for once bindings are followed; `none` is out of fuel. -/
def InferenceContext.denote (context : InferenceContext) : ℕ → TypeId → Option SemanticType
  | 0, _ => none
  | fuel + 1, ty => do
      let ty ← context.resolveShallow fuel ty
      match context.store.kind ty with
      | none => none
      | some (.inferenceVariable var) => some (.var var)
      | some kind => (kind.children.mapM (context.denote fuel)).map (.node kind.shape)

/-- The variants of a type, with the types of their fields. -/
def variantsOf (c : Checker) : SemanticType → Option (List (String × List SemanticType))
  | .node (.option _) [inner] => some [("None", []), ("Some", [inner])]
  | .node (.result _ _) [ok, error] => some [("Error", [error]), ("Ok", [ok])]
  | .node (.nominal constructor _) arguments =>
      (c.enums.lookup constructor).map fun info =>
        info.variants.map fun variant =>
          (variant.1, variant.2.fields.map fun field =>
            instantiate (info.genericParameters.zip arguments) (c.context.store.term field))
  | _ => none

/-- The head of a value: one of the variants, or a value of a type without variants. -/
inductive Head (Atom : Type)
  | variant (name : String)
  | atom (atom : Atom)

/-- What a pattern tests. -/
inductive Test
  | variant (name : String)
  | literal (literal : Literal)

/-- The values of types without variants, and when they equal a literal. -/
structure Atoms (Atom : Type) where
  of : SemanticType → Atom → Prop
  equal : Literal → Atom → Bool

variable {Atom : Type} (atoms : Atoms Atom) (c : Checker)

def signature : Signature SemanticType (Head Atom) Test where
  heads ty head fields :=
    match variantsOf c ty, head with
    | some variants, .variant name => variants.lookup name = some fields
    | none, .atom atom => atoms.of ty atom ∧ fields = []
    | _, _ => False
  accepts
    | .variant name, .variant name' => name == name'
    | .literal literal, .atom atom => atoms.equal literal atom
    | _, _ => false

/-! ## What patterns match -/

mutual

/-- The pattern as it is tested at run time. -/
def Pattern.lower : Pattern → PatternMatrix.Pattern Test
  | .wildcard _ | .error _ => .wild
  | .literal literal => .head (.literal literal)
  | .path path => if isBindingPattern path then .wild else .head (.variant (path.last.getD ""))
  | .constructor path arguments _ =>
      .node (.variant (path.last.getD "")) (lowerAll arguments)

def lowerAll : List Pattern → List (PatternMatrix.Pattern Test)
  | [] => []
  | pattern :: rest => pattern.lower :: lowerAll rest

end

variable {Expression : Type}

/-- The patterns of the arms without a guard, one row each. -/
def unguarded (arms : List (MatchArm Expression)) : List (List (PatternMatrix.Pattern Test)) :=
  (arms.filter fun arm => arm.guard.isNone).map fun arm => [arm.pattern.lower]

/-- Every value of the type is matched by an arm without a guard. -/
def AlwaysMatches (arms : List (MatchArm Expression)) (ty : SemanticType) : Prop :=
  ∀ value, HasType (signature atoms c) value ty →
    ∃ arm ∈ arms, arm.guard.isNone ∧ arm.pattern.lower.matchesValue (signature atoms c) value

variable {atoms c} {arms : List (MatchArm Expression)} {ty : SemanticType}

theorem anyMatches_unguarded {value : Value (Head Atom)} :
    AnyMatches (signature atoms c) (unguarded arms) [value] ↔
      ∃ arm ∈ arms, arm.guard.isNone ∧
        arm.pattern.lower.matchesValue (signature atoms c) value := by
  unfold AnyMatches unguarded
  constructor
  · intro h
    obtain ⟨row, hrow, hmatches⟩ := h
    obtain ⟨arm, harm, rfl⟩ := mem_map.mp hrow
    obtain ⟨hmem, hguard⟩ := mem_filter.mp harm
    exact ⟨arm, hmem, hguard, by simpa [matchesRow] using hmatches⟩
  · intro h
    obtain ⟨arm, hmem, hguard, hmatches⟩ := h
    exact ⟨_, mem_map_of_mem (mem_filter.mpr ⟨hmem, hguard⟩),
      by simpa [matchesRow] using hmatches⟩

/-- Exhaustive are the matches whose patterns cover the type column by column. -/
theorem alwaysMatches_iff_covers :
    AlwaysMatches atoms c arms ty ↔
      Covers (signature atoms c) (unguarded arms) [ty] := by
  rw [← exhaustive_iff_covers]
  constructor
  · intro h values hvalues
    obtain ⟨value, _, hvalue, hnil, rfl⟩ := forall₂_cons_right_iff.mp hvalues
    obtain rfl := forall₂_nil_right_iff.mp hnil
    exact anyMatches_unguarded.mpr (h value hvalue)
  · intro h value hvalue
    exact anyMatches_unguarded.mp (h [value] (.cons hvalue .nil))

/-! ## What the checker knows about a pattern -/

section

variable {calls : CheckerCalls Expression} {expected : TypeId} {pattern : Pattern}

variable {name : Option String} {inferArguments : List TypeId → Checker → Checker}
  {enumInfo : Option EnumInfo}

/-- A pattern that names a variant never covers everything. -/
theorem inferVariantPattern_ne_all {payloads : ℕ} {span : Span} {c : Checker} :
    (inferVariantPattern name payloads inferArguments span enumInfo c).1 ≠ .all := by
  unfold inferVariantPattern
  split
  · exact nofun
  · exact nofun
  · split <;> exact nofun

variable {info : EnumInfo}

/-- A variant is covered by a pattern that names it; unless something is reported, the pattern
has a payload pattern for each field. -/
theorem inferVariantPattern_eq_variant {payloads : ℕ} {span : Span} {c : Checker}
    {covered : String} (harguments : ∀ fields (c : Checker), c.Extends (inferArguments fields c))
    (h : (inferVariantPattern name payloads inferArguments span (some info) c).1 =
      .variant covered)
    (hsilent : (inferVariantPattern name payloads inferArguments span (some info) c).2.diagnostics =
      []) :
    name = some covered ∧ ∃ variant, info.variants.lookup covered = some variant ∧
      variant.fields.length = payloads := by
  unfold inferVariantPattern at h hsilent
  match name with
  | none => cases h
  | some name =>
      dsimp only at h hsilent
      cases hlookup : info.variants.lookup name with
      | none =>
          rw [hlookup] at h
          cases h
      | some variant =>
          simp only [hlookup, PatternCoverage.variant.injEq] at h hsilent
          subst h
          refine ⟨rfl, variant, hlookup, ?_⟩
          by_contra hcount
          rw [if_neg hcount] at hsilent
          have hreported := (harguments variant.fields _).diagnostics_eq_nil hsilent
          simp [Checker.report] at hreported

theorem lower_of_coverage_all {c : Checker}
    (h : (inferPattern calls expected enumInfo pattern c).1 = .all) : pattern.lower = .wild := by
  cases pattern with
  | wildcard => rfl
  | error => rfl
  | literal => cases h
  | path =>
      rw [inferPattern] at h
      split at h
      next hbinding => rw [Pattern.lower, if_pos hbinding]
      next => exact absurd h inferVariantPattern_ne_all
  | constructor =>
      rw [inferPattern] at h
      exact absurd h inferVariantPattern_ne_all

/-- Only the payload of a variant is looked at by sub-patterns that accept everything. -/
def Pattern.Plain : Pattern → Prop
  | .constructor _ arguments _ => ∀ argument ∈ arguments, argument.lower = .wild
  | _ => True

theorem lowerAll_eq_replicate {arguments : List Pattern}
    (h : ∀ argument ∈ arguments, argument.lower = .wild) :
    lowerAll arguments = replicate arguments.length .wild := by
  induction arguments with
  | nil => rfl
  | cons argument rest ih =>
      rw [lowerAll, h argument (mem_cons_self ..), length_cons, replicate_succ,
        ih fun argument hmem => h argument (mem_cons_of_mem _ hmem)]

/-- A plain pattern that covers a variant matches whatever the fields are. -/
theorem specialize_of_coverage_variant {c : Checker} {covered : String} (hplain : pattern.Plain)
    (h : (inferPattern calls expected (some info) pattern c).1 = .variant covered)
    (hsilent : (inferPattern calls expected (some info) pattern c).2.diagnostics = []) :
    ∃ variant, info.variants.lookup covered = some variant ∧
      ∀ {Atom : Type} (atoms : Atoms Atom) (c : Checker),
        specializeRow (signature atoms c) (.variant covered) variant.fields.length
          [pattern.lower] = some (replicate variant.fields.length .wild) := by
  cases pattern with
  | wildcard => cases h
  | error => cases h
  | literal => cases h
  | path =>
      rw [inferPattern] at h hsilent
      split at h
      next => cases h
      next hbinding =>
        rw [if_neg hbinding] at hsilent
        obtain ⟨hname, variant, hlookup, -⟩ :=
          inferVariantPattern_eq_variant (fun _ c => .refl c) h hsilent
        refine ⟨variant, hlookup, fun atoms c => ?_⟩
        rw [Pattern.lower, if_neg hbinding, hname]
        simp [specializeRow, signature]
  | constructor path arguments =>
      rw [inferPattern] at h hsilent
      obtain ⟨hname, variant, hlookup, hcount⟩ :=
        inferVariantPattern_eq_variant (fun fields c => extends_inferArguments fields c arguments)
          h hsilent
      refine ⟨variant, hlookup, fun atoms c => ?_⟩
      rw [Pattern.lower, hname, lowerAll_eq_replicate hplain, hcount]
      simp [specializeRow, signature]

/-! ## What the arms cover -/

variable {valueType returnType result : TypeId} {enumInfo : Option EnumInfo}
  {state : Covered × Checker} {arm : MatchArm Expression}

/-- An arm without a guard whose pattern covers a variant, and reports nothing. -/
def CoversVariant (calls : CheckerCalls Expression) (valueType : TypeId)
    (enumInfo : Option EnumInfo) (arm : MatchArm Expression) (name : String) : Prop :=
  arm.guard.isNone ∧ ∃ c, (inferPattern calls valueType enumInfo arm.pattern c).1 = .variant name ∧
    (inferPattern calls valueType enumInfo arm.pattern c).2.diagnostics = []

/-- An arm covers everything only if its pattern accepts everything. -/
theorem inferArm_all (h : (inferArm calls valueType returnType result enumInfo arm state).1.all) :
    state.1.all ∨ (arm.guard.isNone ∧ arm.pattern.lower = .wild) := by
  unfold inferArm at h
  cases hguard : arm.guard with
  | some =>
      simp only [hguard] at h
      exact .inl h
  | none =>
      simp only [hguard] at h
      cases hcoverage : (inferPattern calls valueType enumInfo arm.pattern state.2).1 with
      | all => exact .inr ⟨rfl, lower_of_coverage_all hcoverage⟩
      | none | variant =>
          rw [hcoverage] at h
          exact .inl h

theorem inferArm_variants {name : String}
    (hsilent : (inferArm calls valueType returnType result enumInfo arm state).2.diagnostics = [])
    (h : name ∈ (inferArm calls valueType returnType result enumInfo arm state).1.variants) :
    name ∈ state.1.variants ∨ CoversVariant calls valueType enumInfo arm name := by
  have hpattern := extends_inferArm.diagnostics_eq_nil hsilent
  unfold inferArm at h
  cases hguard : arm.guard with
  | some =>
      simp only [hguard] at h
      exact .inl h
  | none =>
      simp only [hguard] at h
      cases hcoverage : (inferPattern calls valueType enumInfo arm.pattern state.2).1 with
      | all | none =>
          rw [hcoverage] at h
          exact .inl h
      | variant =>
          rw [hcoverage] at h
          rcases mem_cons.mp h with rfl | hmem
          · exact .inr ⟨by rw [hguard]; rfl, state.2, hcoverage, hpattern⟩
          · exact .inl hmem

/-- Arms cover everything only if one of them does. -/
theorem inferArms_all
    (h : (inferArms calls valueType returnType result enumInfo arms state).1.all) :
    state.1.all ∨ ∃ arm ∈ arms, arm.guard.isNone ∧ arm.pattern.lower = .wild := by
  induction arms generalizing state with
  | nil => exact .inl h
  | cons arm arms ih =>
      obtain hstate | ⟨other, hmem, hother⟩ := ih h
      · obtain hbefore | harm := inferArm_all hstate
        · exact .inl hbefore
        · exact .inr ⟨arm, mem_cons_self .., harm⟩
      · exact .inr ⟨other, mem_cons_of_mem _ hmem, hother⟩

theorem inferArms_variants {name : String}
    (hsilent : (inferArms calls valueType returnType result enumInfo arms state).2.diagnostics = [])
    (h : name ∈ (inferArms calls valueType returnType result enumInfo arms state).1.variants) :
    name ∈ state.1.variants ∨ ∃ arm ∈ arms, CoversVariant calls valueType enumInfo arm name := by
  induction arms generalizing state with
  | nil => exact .inl h
  | cons arm arms ih =>
      obtain hstate | ⟨other, hmem, hother⟩ := ih hsilent h
      · obtain hbefore | harm :=
          inferArm_variants (extends_inferArms.diagnostics_eq_nil hsilent) hstate
        · exact .inl hbefore
        · exact .inr ⟨arm, mem_cons_self .., harm⟩
      · exact .inr ⟨other, mem_cons_of_mem _ hmem, hother⟩

/-- When nothing is reported, an arm covers everything or each variant is covered by an arm. -/
theorem covers_of_silent
    (hsilent : (reportMissing (some info) arms
      (inferArms calls valueType returnType result (some info) arms
        (⟨[], false⟩, c))).diagnostics = []) :
    (∃ arm ∈ arms, arm.guard.isNone ∧ arm.pattern.lower = .wild) ∨
      ∀ name variant, info.variants.lookup name = some variant →
        ∃ arm ∈ arms, CoversVariant calls valueType (some info) arm name := by
  unfold reportMissing at hsilent
  dsimp only at hsilent
  split at hsilent
  next hcovered =>
    rcases hcovered with hall | hmissing
    · obtain hfalse | hsome := inferArms_all hall
      · cases hfalse
      · exact .inl hsome
    · refine .inr fun name variant hlookup => ?_
      have hname : name ∈ (inferArms calls valueType returnType result (some info) arms
          (⟨[], false⟩, c)).1.variants := by
        by_contra hnotMem
        have hmem : name ∈ info.variants.map Prod.fst := by
          obtain ⟨before, after, heq, -⟩ := lookup_eq_some_iff.mp hlookup
          simp [heq]
        have hfilter := filter_eq_nil_iff.mp hmissing name hmem
        exact hfilter (decide_eq_true hnotMem)
      obtain hnil | hsome := inferArms_variants hsilent hname
      · cases hnil
      · exact hsome
  next => simp [Checker.report] at hsilent

end

/-! ## The variants of the resolved type -/

section

variable {context after : InferenceContext}

variable {fuel fuel' : ℕ} {last : TypeId}

/-- A type that was resolved to a kind stays resolved to it. -/
theorem InferenceContext.Grows.resolveShallow_eq (grows : context.Grows after) {ty last' : TypeId}
    {kind : TypeKind} (h : context.resolveShallow fuel ty = some last)
    (hkind : context.store.kind last = some kind)
    (hvariable : ∀ var, kind ≠ .inferenceVariable var)
    (h' : after.resolveShallow fuel' ty = some last') : last' = last := by
  -- along the chain of variables; bindings only grow, so both walks agree
  induction fuel generalizing ty fuel' with
  | zero => cases h
  | succ fuel ih =>
      cases fuel' with
      | zero => cases h'
      | succ =>
          rw [resolveShallow] at h h'
          split at h
          next var hvar =>
            rw [grows.store _ _ hvar] at h'
            dsimp only at h'
            cases hbinding : context.binding var with
            | none =>
                rw [hbinding] at h
                obtain rfl := some.inj h
                rw [hvar] at hkind
                exact absurd (some.inj hkind).symm (hvariable var)
            | some =>
                rw [hbinding] at h
                rw [grows.binding hbinding] at h'
                dsimp only at h h'
                split at h
                next =>
                  obtain rfl := some.inj h
                  rw [hvar] at hkind
                  exact absurd (some.inj hkind).symm (hvariable var)
                next hne =>
                  rw [if_neg hne] at h'
                  exact ih h h'
          next hother =>
            obtain rfl := some.inj h
            rw [grows.store _ _ hkind] at h'
            cases kind with
            | inferenceVariable var => exact absurd rfl (hvariable var)
            | _ => exact (some.inj h').symm

theorem length_of_mapM {α β : Type} {f : α → Option β} {xs : List α} {ys : List β}
    (h : xs.mapM f = some ys) : ys.length = xs.length := by
  induction xs generalizing ys with
  | nil =>
      obtain rfl : [] = ys := by simpa using h
      rfl
  | cons x xs ih =>
      rw [mapM_cons] at h
      obtain ⟨y, -, h⟩ := Option.bind_eq_some_iff.mp h
      obtain ⟨rest, hrest, h⟩ := Option.bind_eq_some_iff.mp h
      obtain rfl := some.inj h
      rw [length_cons, ih hrest, length_cons]

/-- A type resolved to a kind stands for a term of its shape. -/
theorem InferenceContext.Grows.denote_eq (grows : context.Grows after) {ty : TypeId}
    {kind : TypeKind} {t : SemanticType} (h : context.resolveShallow fuel ty = some last)
    (hkind : context.store.kind last = some kind)
    (hvariable : ∀ var, kind ≠ .inferenceVariable var) (ht : after.denote fuel' ty = some t) :
    ∃ children, children.length = kind.children.length ∧ t = .node kind.shape children := by
  cases fuel' with
  | zero => cases ht
  | succ fuel' =>
      rw [denote] at ht
      obtain ⟨last', hlast', ht⟩ := Option.bind_eq_some_iff.mp ht
      obtain rfl := grows.resolveShallow_eq h hkind hvariable hlast'
      rw [grows.store _ _ hkind] at ht
      have hdenote : (kind.children.mapM (after.denote fuel')).map (.node kind.shape) = some t := by
        cases kind with
        | inferenceVariable var => exact absurd rfl (hvariable var)
        | _ => exact ht
      obtain ⟨children, hchildren, rfl⟩ := Option.map_eq_some_iff.mp hdenote
      exact ⟨children, length_of_mapM hchildren, rfl⟩

/-! ### Names and numbers of fields -/

/-- The variants by name, with how many fields they have. -/
def arities {α : Type} (fields : α → ℕ) (variants : List (String × α)) : List (String × ℕ) :=
  variants.map fun variant => (variant.1, fields variant.2)

theorem lookup_arities {α : Type} (fields : α → ℕ) (variants : List (String × α)) (name : String) :
    (arities fields variants).lookup name = (variants.lookup name).map fields := by
  induction variants with
  | nil => rfl
  | cons variant variants ih =>
      rw [arities, map_cons, lookup_cons, lookup_cons]
      cases name == variant.1 with
      | false => exact ih
      | true => rfl

variable {calls : CheckerCalls Expression} {substitution : List (GenericParameterId × TypeId)}

theorem length_instantiateFields {fields : List TypeId} {c : Checker} :
    (instantiateFields calls substitution fields c).1.length = fields.length := by
  induction fields generalizing c with
  | nil => rfl
  | cons field fields ih => exact congrArg Nat.succ ih

theorem arities_instantiateVariants {variants : List (String × EnumVariantInfo)} {c : Checker} :
    arities (fun variant => variant.fields.length)
        (instantiateVariants calls substitution variants c).1 =
      arities (fun variant => variant.fields.length) variants := by
  induction variants generalizing c with
  | nil => rfl
  | cons variant variants ih =>
      rw [instantiateVariants, arities, arities, map_cons, map_cons,
        length_instantiateFields]
      exact congrArg _ ih

/-- The checker knows the names and the numbers of fields of the variants of the type. -/
theorem arities_variantsOf {c final : Checker} {ty : TypeId} {info : EnumInfo} {t : SemanticType}
    (hextends : c.Extends final) (hresolve : c.context.resolveShallow fuel ty = some last)
    (hinfo : (enumInfoForType calls c last).1 = some info)
    (ht : final.context.denote fuel' ty = some t) :
    ∃ variants, variantsOf final t = some variants ∧
      arities length variants = arities (fun variant => variant.fields.length) info.variants := by
  unfold enumInfoForType at hinfo
  dsimp only at hinfo
  split at hinfo
  next constructor arguments hkind =>
    obtain ⟨children, hlength, rfl⟩ :=
      hextends.grows.denote_eq hresolve hkind (fun _ => nofun) ht
    split at hinfo
    next => cases hinfo
    next declared hdeclared =>
      obtain rfl := some.inj hinfo
      refine ⟨_, show (final.enums.lookup constructor).map _ = some _ by
        rw [hextends.enums, hdeclared, Option.map_some], ?_⟩
      rw [arities_instantiateVariants]
      simp [arities, Function.comp_def]
  next inner hkind =>
    obtain ⟨children, hlength, rfl⟩ :=
      hextends.grows.denote_eq hresolve hkind (fun _ => nofun) ht
    obtain rfl := some.inj hinfo
    obtain ⟨child, rfl⟩ := length_eq_one_iff.mp hlength
    exact ⟨_, rfl, rfl⟩
  next ok error hkind =>
    obtain ⟨children, hlength, rfl⟩ :=
      hextends.grows.denote_eq hresolve hkind (fun _ => nofun) ht
    obtain rfl := some.inj hinfo
    obtain ⟨success, failure, rfl⟩ := length_eq_two.mp hlength
    exact ⟨_, rfl, rfl⟩
  next => cases hinfo

end

/-! ## Accepted matches -/

variable {calls : CheckerCalls Expression} {fuel : ℕ} {valueType returnType resultType : TypeId}
  {checked final : Checker}

/-- The variants of the matched value are known when the match is checked. -/
def KnownVariants (calls : CheckerCalls Expression) (fuel : ℕ) (valueType : TypeId)
    (c : Checker) : Prop :=
  ∃ resolved info, c.fresh.2.context.resolveShallow fuel valueType = some resolved ∧
    (enumInfoForType calls c.fresh.2 resolved).1 = some info

/-- If the variants are known and no arm without a guard looks into a payload, what the checker
accepts covers the type. -/
theorem covers_of_accepted {fuel' : ℕ}
    (hchecked : inferMatchArms calls fuel valueType arms returnType c = some (resultType, checked))
    (hextends : checked.Extends final) (haccepted : final.diagnostics = [])
    (htype : final.context.denote fuel' valueType = some ty)
    (hknown : KnownVariants calls fuel valueType c)
    (hplain : ∀ arm ∈ arms, arm.guard.isNone → arm.pattern.Plain) :
    Covers (signature atoms final) (unguarded arms) [ty] := by
  obtain ⟨resolved, info, hresolved, hinfo⟩ := hknown
  unfold inferMatchArms at hchecked
  dsimp only at hchecked
  rw [hresolved, Option.map_some, Option.some.injEq, Prod.mk.injEq, hinfo] at hchecked
  obtain ⟨-, rfl⟩ := hchecked
  have hsilent := hextends.diagnostics_eq_nil haccepted
  obtain ⟨arm, hmem, hguard, hwild⟩ | hvariants := covers_of_silent hsilent
  · refine covers_of_replicate_wild (mem_map.mpr ⟨arm, ?_, ?_⟩)
    · exact mem_filter.mpr ⟨hmem, hguard⟩
    · rw [hwild]
      rfl
  · have hgrows : c.fresh.2.Extends final := by
      refine Checker.Extends.trans ?_ hextends
      refine Checker.Extends.trans ?_ extends_reportMissing
      refine Checker.Extends.trans ?_ extends_inferArms
      exact extends_enumInfoForType
    obtain ⟨variants, hvariantsOf, harities⟩ := arities_variantsOf hgrows hresolved hinfo htype
    refine .split fun head fields hhead => ?_
    -- the head is a variant of the type, which an arm covers
    obtain ⟨name, rfl, hlookup⟩ : ∃ name, head = .variant name ∧
        variants.lookup name = some fields := by
      simp only [signature, hvariantsOf] at hhead
      cases head with
      | variant name => exact ⟨name, rfl, hhead⟩
      | atom => exact hhead.elim
    obtain ⟨variant, hvariant, hlength⟩ : ∃ variant, info.variants.lookup name = some variant ∧
        variant.fields.length = fields.length := by
      have harity := congrArg (lookup name) harities
      rw [lookup_arities, lookup_arities, hlookup] at harity
      exact Option.map_eq_some_iff.mp harity.symm
    obtain ⟨arm, hmem, hguard, before, hcoverage, hquiet⟩ := hvariants name variant hvariant
    obtain ⟨variant', hvariant', hspecialize⟩ :=
      specialize_of_coverage_variant (hplain arm hmem hguard) hcoverage hquiet
    obtain rfl : variant = variant' := some.inj (hvariant.symm.trans hvariant')
    refine covers_of_replicate_wild (mem_filterMap.mpr ⟨[arm.pattern.lower], ?_, ?_⟩)
    · exact mem_map_of_mem (mem_filter.mpr ⟨hmem, hguard⟩)
    · rw [append_nil, ← hlength]
      exact hspecialize atoms final

/-- **What acceptance says about exhaustiveness.**  An accepted match is exhaustive iff the
patterns of its arms without a guard cover the type of the value column by column; they do
if the variants of the type were known and no such arm looks into a payload. -/
theorem exhaustive_of_accepted {fuel' : ℕ}
    (hchecked : inferMatchArms calls fuel valueType arms returnType c = some (resultType, checked))
    (hextends : checked.Extends final) (haccepted : final.diagnostics = [])
    (htype : final.context.denote fuel' valueType = some ty) :
    (AlwaysMatches atoms final arms ty ↔
      Covers (signature atoms final) (unguarded arms) [ty]) ∧
    (KnownVariants calls fuel valueType c →
      (∀ arm ∈ arms, arm.guard.isNone → arm.pattern.Plain) → AlwaysMatches atoms final arms ty) :=
  ⟨alwaysMatches_iff_covers, fun hknown hplain => alwaysMatches_iff_covers.mpr
    (covers_of_accepted hchecked hextends haccepted htype hknown hplain)⟩

/-! ## A literal in a payload -/

namespace Sample

def span : Span := ⟨0, 0, 0⟩

/-- Binds an unbound variable; other types are taken to agree. -/
def unifyOrError (expected actual : TypeId) (c : Checker) : TypeId × Checker :=
  match c.context.store.kind expected with
  | some (.inferenceVariable var) =>
      if c.context.binding var = none then
        (actual, { c with
          context := { c.context with
            table := ⟨c.context.table.bindings.set var.index (some actual)⟩ } })
      else (expected, c)
  | _ => (expected, c)

theorem extends_unifyOrError (expected actual : TypeId) (c : Checker) :
    c.Extends (unifyOrError expected actual c).2 := by
  unfold unifyOrError
  split
  next var hvar =>
    split
    next hunbound =>
      refine ⟨rfl, prefix_rfl, ⟨TypeStore.Extends.refl _, fun {other ty} hother => ?_⟩⟩
      have hne : var.index ≠ other.index := by
        intro heq
        rw [binding, heq] at hunbound
        rw [binding, hunbound] at hother
        cases hother
      show ((c.context.table.bindings.set var.index (some actual))[other.index]?).join = some ty
      rw [getElem?_set_ne hne]
      exact hother
    next => exact .refl c
  next => exact .refl c

/-- Guards and arms are `Int32`. -/
def int32Calls : CheckerCalls Unit where
  span _ := span
  inferExpression _ _ c := (c.context.store.core.int32, c)
  unifyOrError expected actual _ c := unifyOrError expected actual c
  substitute _ ty c := (ty, c)
  extends_inferExpression _ _ c := .refl c
  extends_unifyOrError expected actual _ c := extends_unifyOrError expected actual c
  extends_substitute _ _ c := .refl c

/-- `Option<Int32>`, with its identity. -/
def optional : TypeId × InferenceContext :=
  new.intern (.option new.store.core.int32)

def start : Checker := ⟨0, optional.2, [], [], []⟩

def path (text : String) : Path := ⟨[⟨text, span⟩], span⟩

def arm (pattern : Pattern) : MatchArm Unit := ⟨pattern, none, (), span⟩

/-- `None => .., Some(argument) => ..` -/
def optionArms (argument : Pattern) : List (MatchArm Unit) :=
  [arm (.path (path "None")), arm (.constructor (path "Some") [argument] span)]

def checkedMatch (valueType : TypeId) (arms : List (MatchArm Unit)) : Option (TypeId × Checker) :=
  inferMatchArms int32Calls 3 valueType arms start.context.store.core.unit start

/-- The numbers of `Int32`, and decimal literals. -/
def numbers : Atoms ℤ where
  of ty number := ty = .node (.integer .signed .bits32) [] ∧ -2 ^ 31 ≤ number ∧ number < 2 ^ 31
  equal literal number :=
    (literal.text.toList.foldl (fun n digit => 10 * n + (digit.toNat - 48)) 0 : ℕ) == number

def one : Pattern := .literal ⟨.integer, "1", span⟩

def any : Pattern := .wildcard span

/-- `Int32` and `Option<Int32>`, without the store. -/
def int32 : SemanticType := .node (.integer .signed .bits32) []

def optionalInt32 : SemanticType := .node (.option ⟨0⟩) [int32]

/-- `2` and `Some(2)`. -/
def two : Value (Head ℤ) := .node (.atom 2) []

def someTwo : Value (Head ℤ) := .node (.variant "Some") [two]

theorem hasType_two (c : Checker) : HasType (signature numbers c) two int32 :=
  .node (show numbers.of int32 2 ∧ [] = [] from ⟨⟨rfl, by decide, by decide⟩, rfl⟩) .nil

theorem hasType_someTwo (c : Checker) :
    HasType (signature numbers c) someTwo optionalInt32 :=
  .node (show _ = some [int32] from rfl) (.cons (hasType_two c) .nil)

end Sample

open Sample in
/-- `Some(2)` is matched by no arm of `None => .., Some(1) => ..`, and `2` by no arm of
`1 => ..`; both matches are accepted. -/
theorem not_alwaysMatches_literals :
    (∃ resultType checked,
      checkedMatch optional.1 (optionArms one) = some (resultType, checked) ∧
      checked.diagnostics = [] ∧ checked.context.denote 3 optional.1 = some optionalInt32 ∧
      ¬ AlwaysMatches numbers checked (optionArms one) optionalInt32) ∧
    ∃ resultType checked,
      checkedMatch start.context.store.core.int32 [arm one] = some (resultType, checked) ∧
      checked.diagnostics = [] ∧
      checked.context.denote 3 start.context.store.core.int32 = some int32 ∧
      ¬ AlwaysMatches numbers checked [arm one] int32 := by
  refine ⟨⟨_, _, rfl, rfl, rfl, fun h => ?_⟩, _, _, rfl, rfl, rfl, fun h => ?_⟩
  · obtain ⟨arm, hmem, -, hmatches⟩ := h someTwo (hasType_someTwo _)
    rcases mem_pair.mp hmem with rfl | rfl
    · exact absurd hmatches (by decide)
    · exact absurd hmatches (by decide)
  · obtain ⟨arm, hmem, -, hmatches⟩ := h two (hasType_two _)
    obtain rfl := mem_singleton.mp hmem
    exact absurd hmatches (by decide)

open Sample in
/-- `None => .., Some(_) => ..` matches every optional number. -/
theorem exhaustive_of_accepted_optional :
    ∃ checked, AlwaysMatches numbers checked (optionArms any) optionalInt32 := by
  obtain ⟨resultType, checked, hchecked, haccepted, htype⟩ : ∃ resultType checked,
      checkedMatch optional.1 (optionArms any) = some (resultType, checked) ∧
      checked.diagnostics = [] ∧ checked.context.denote 3 optional.1 = some optionalInt32 :=
    ⟨_, _, rfl, rfl, rfl⟩
  refine ⟨checked, (exhaustive_of_accepted hchecked (.refl checked) haccepted htype).2
    ⟨_, _, rfl, rfl⟩ fun arm hmem _ => ?_⟩
  rcases mem_pair.mp hmem with rfl | rfl
  · trivial
  · intro argument hargument
    obtain rfl := mem_singleton.mp hargument
    rfl

end Jadren.Types

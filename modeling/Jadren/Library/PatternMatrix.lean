import Mathlib.Algebra.GroupWithZero.Nat
import Mathlib.Data.List.Forall2
import Mathlib.Order.Basic

/-!
# Pattern matrices

A value is a head with fields, a type says which heads its values have and the types of
their fields, and a pattern tests a head and the fields below it.  A matrix is a list of
rows of patterns, one pattern for each of several values; it is exhaustive at some types
if every choice of values of these types is matched by a row.

`Covers` takes a matrix apart column by column: either by the heads of the type in the
first column, which replaces its patterns by patterns for the fields, or by leaving the
column out, which keeps the rows that do not look at it.  `exhaustive_iff_covers`: this
finds every exhaustive matrix.
-/

namespace Jadren.PatternMatrix

open List Option

variable {Ty Head Test : Type}

inductive Value (Head : Type)
  | node (head : Head) (fields : List (Value Head))

inductive Pattern (Test : Type)
  | wild
  /-- Tests the head, whatever the fields are. -/
  | head (test : Test)
  | node (test : Test) (arguments : List (Pattern Test))

/-- What types and tests mean. -/
structure Signature (Ty Head Test : Type) where
  /-- The values of a type with this head have fields of these types. -/
  heads : Ty → Head → List Ty → Prop
  accepts : Test → Head → Bool

variable (S : Signature Ty Head Test)

inductive HasType : Value Head → Ty → Prop
  | node {ty : Ty} {head : Head} {fields : List (Value Head)} {types : List Ty}
      (hhead : S.heads ty head types) (hfields : Forall₂ HasType fields types) :
      HasType (.node head fields) ty

mutual

def Pattern.matchesValue : Pattern Test → Value Head → Bool
  | .wild, _ => true
  | .head test, .node head _ => S.accepts test head
  | .node test arguments, .node head fields => S.accepts test head && matchesRow arguments fields

def matchesRow : List (Pattern Test) → List (Value Head) → Bool
  | [], [] => true
  | pattern :: patterns, value :: values => pattern.matchesValue value && matchesRow patterns values
  | _, _ => false

end

/-- Some row matches the values. -/
def AnyMatches (rows : List (List (Pattern Test))) (values : List (Value Head)) : Prop :=
  ∃ row ∈ rows, matchesRow S row values = true

/-- Whatever the values of these types are, some row matches them. -/
def Exhaustive (rows : List (List (Pattern Test))) (types : List Ty) : Prop :=
  ∀ values, Forall₂ (HasType S) values types → AnyMatches S rows values

/-! ## Taking a matrix apart -/

/-- What is left of a row once the first value has a head with a number of fields. -/
def specializeRow (head : Head) (arity : ℕ) : List (Pattern Test) → Option (List (Pattern Test))
  | [] => none
  | .wild :: rest => some (replicate arity .wild ++ rest)
  | .head test :: rest =>
      if S.accepts test head then some (replicate arity .wild ++ rest) else none
  | .node test arguments :: rest =>
      if S.accepts test head ∧ arguments.length = arity then some (arguments ++ rest) else none

def specialize (head : Head) (arity : ℕ) (rows : List (List (Pattern Test))) :
    List (List (Pattern Test)) :=
  rows.filterMap (specializeRow S head arity)

/-- A row that does not look at the first value, without it. -/
def defaultRow : List (Pattern Test) → Option (List (Pattern Test))
  | .wild :: rest => some rest
  | _ => none

def defaults (rows : List (List (Pattern Test))) : List (List (Pattern Test)) :=
  rows.filterMap defaultRow

/-- A matrix that is seen to be exhaustive column by column. -/
inductive Covers : List (List (Pattern Test)) → List Ty → Prop
  | done {rows : List (List (Pattern Test))} (hrow : [] ∈ rows) : Covers rows []
  | uninhabited {rows : List (List (Pattern Test))} {ty : Ty} {types : List Ty}
      (hty : ∀ value, ¬ HasType S value ty) : Covers rows (ty :: types)
  | skip {rows : List (List (Pattern Test))} {ty : Ty} {types : List Ty}
      (hrest : Covers (defaults rows) types) : Covers rows (ty :: types)
  | split {rows : List (List (Pattern Test))} {ty : Ty} {types : List Ty}
      (hheads : ∀ head fields, S.heads ty head fields →
        Covers (specialize S head fields.length rows) (fields ++ types)) :
      Covers rows (ty :: types)

/-! ## What rows match -/

section

variable {S}

variable {row : List (Pattern Test)} {values : List (Value Head)}

theorem matchesRow_length (h : matchesRow S row values = true) : row.length = values.length := by
  induction row generalizing values with
  | nil =>
      cases values with
      | nil => rfl
      | cons => simp [matchesRow] at h
  | cons pattern rest ih =>
      cases values with
      | nil => simp [matchesRow] at h
      | cons =>
          simp only [matchesRow, Bool.and_eq_true] at h
          simp [ih h.2]

variable {fields : List (Value Head)}

theorem matchesRow_append {rest : List (Pattern Test)} (hlength : row.length = fields.length) :
    matchesRow S (row ++ rest) (fields ++ values) =
      (matchesRow S row fields && matchesRow S rest values) := by
  induction row generalizing fields with
  | nil =>
      obtain rfl := length_eq_zero_iff.mp hlength.symm
      simp [matchesRow]
  | cons pattern row ih =>
      cases fields with
      | nil => simp at hlength
      | cons =>
          simp only [cons_append, matchesRow, ih (Nat.succ.inj hlength), Bool.and_assoc]

@[simp] theorem matchesRow_replicate_wild (fields : List (Value Head)) :
    matchesRow S (replicate fields.length .wild) fields = true := by
  induction fields with
  | nil => rfl
  | cons field fields ih => simpa [replicate_succ, matchesRow, Pattern.matchesValue] using ih

/-- A row matches a head and the rest iff what is left of it matches the fields and the rest. -/
theorem matchesRow_node {head : Head} :
    matchesRow S row (.node head fields :: values) = true ↔
      ∃ left, specializeRow S head fields.length row = some left ∧
        matchesRow S left (fields ++ values) = true := by
  match row with
  | [] => simp [matchesRow, specializeRow]
  | .wild :: rest =>
      simp [matchesRow, specializeRow, Pattern.matchesValue, matchesRow_append]
  | .head test :: rest =>
      by_cases htest : S.accepts test head = true <;>
        simp [matchesRow, specializeRow, Pattern.matchesValue, matchesRow_append, htest]
  | .node test arguments :: rest =>
      by_cases hlength : arguments.length = fields.length
      · by_cases htest : S.accepts test head = true <;>
          simp [matchesRow, specializeRow, Pattern.matchesValue, matchesRow_append, htest, hlength]
      · have hfails : matchesRow S arguments fields = false :=
          Bool.eq_false_iff.mpr fun h => hlength (matchesRow_length h)
        simp [matchesRow, specializeRow, Pattern.matchesValue, hlength, hfails]

variable {rows : List (List (Pattern Test))}

theorem anyMatches_node {head : Head} :
    AnyMatches S rows (.node head fields :: values) ↔
      AnyMatches S (specialize S head fields.length rows) (fields ++ values) := by
  unfold AnyMatches specialize
  simp only [mem_filterMap, matchesRow_node]
  constructor
  · intro ⟨row, hrow, left, hleft, hmatches⟩
    exact ⟨left, ⟨row, hrow, hleft⟩, hmatches⟩
  · intro ⟨left, ⟨row, hrow, hleft⟩, hmatches⟩
    exact ⟨row, hrow, left, hleft, hmatches⟩

variable {value : Value Head}

theorem anyMatches_of_defaults (h : AnyMatches S (defaults rows) values) :
    AnyMatches S rows (value :: values) := by
  obtain ⟨left, hleft, hmatches⟩ := h
  obtain ⟨row, hrow, hdefault⟩ := mem_filterMap.mp hleft
  match row, hdefault with
  | .wild :: rest, hdefault =>
      obtain rfl := some.inj hdefault
      exact ⟨_, hrow, by simpa [matchesRow, Pattern.matchesValue] using hmatches⟩

/-- A row that looks at the first value. -/
def LooksFirst (row : List (Pattern Test)) : Prop :=
  ∃ pattern rest, row = pattern :: rest ∧ pattern ≠ .wild

theorem anyMatches_defaults (hwild : ∀ row ∈ rows, ¬ LooksFirst row)
    (h : AnyMatches S rows (value :: values)) : AnyMatches S (defaults rows) values := by
  obtain ⟨row, hrow, hmatches⟩ := h
  match row with
  | [] => simp [matchesRow] at hmatches
  | pattern :: rest =>
      obtain rfl : pattern = .wild := by
        by_contra hne
        exact hwild _ hrow ⟨pattern, rest, rfl, hne⟩
      refine ⟨rest, mem_filterMap.mpr ⟨_, hrow, rfl⟩, ?_⟩
      simpa [matchesRow, Pattern.matchesValue] using hmatches

end

/-! ## Covered matrices are exhaustive -/

variable {S}

variable {rows : List (List (Pattern Test))} {types : List Ty}

theorem Covers.exhaustive (h : Covers S rows types) : Exhaustive S rows types := by
  induction h with
  | done hrow =>
      intro values hvalues
      obtain rfl := forall₂_nil_right_iff.mp hvalues
      exact ⟨[], hrow, rfl⟩
  | uninhabited hty =>
      intro values hvalues
      obtain ⟨value, _, hvalue, _, rfl⟩ := forall₂_cons_right_iff.mp hvalues
      exact absurd hvalue (hty value)
  | skip _ ih =>
      intro values hvalues
      obtain ⟨value, rest, _, hrest, rfl⟩ := forall₂_cons_right_iff.mp hvalues
      exact anyMatches_of_defaults (ih rest hrest)
  | split _ ih =>
      intro values hvalues
      obtain ⟨value, rest, hvalue, hrest, rfl⟩ := forall₂_cons_right_iff.mp hvalues
      obtain ⟨hhead, hfields⟩ := hvalue
      rw [anyMatches_node, hfields.length_eq]
      exact ih _ _ hhead _ (rel_append hfields hrest)

/-- A row that looks at nothing is enough. -/
theorem covers_of_replicate_wild (h : replicate types.length .wild ∈ rows) :
    Covers S rows types := by
  induction types generalizing rows with
  | nil => exact .done h
  | cons ty types ih => exact .skip (ih (mem_filterMap.mpr ⟨_, h, rfl⟩))

/-! ## Exhaustive matrices are covered

Taking a column apart by heads makes the matrix smaller: a row that looks at the first
value loses a test or is dropped. -/

mutual

/-- The number of tests of a pattern. -/
def Pattern.size : Pattern Test → ℕ
  | .wild => 0
  | .head _ => 1
  | .node _ arguments => 1 + rowSize arguments

def rowSize : List (Pattern Test) → ℕ
  | [] => 0
  | pattern :: rest => pattern.size + rowSize rest

end

def matrixSize (rows : List (List (Pattern Test))) : ℕ := (rows.map rowSize).sum

theorem rowSize_append (row rest : List (Pattern Test)) :
    rowSize (row ++ rest) = rowSize row + rowSize rest := by
  induction row with
  | nil => simp [rowSize]
  | cons pattern row ih => simp [rowSize, ih, Nat.add_assoc]

@[simp] theorem rowSize_replicate_wild (n : ℕ) :
    rowSize (replicate n (.wild : Pattern Test)) = 0 := by
  induction n with
  | zero => rfl
  | succ n ih => simpa [replicate_succ, rowSize, Pattern.size] using ih

theorem Pattern.size_pos {pattern : Pattern Test} (h : pattern ≠ .wild) : 0 < pattern.size := by
  cases pattern with
  | wild => exact absurd rfl h
  | head => exact Nat.one_pos
  | node => exact Nat.lt_of_lt_of_le Nat.one_pos (Nat.le_add_right _ _)

theorem rowSize_specializeRow {head : Head} {arity : ℕ} {row left : List (Pattern Test)}
    (h : specializeRow S head arity row = some left) :
    rowSize left ≤ rowSize row ∧ (LooksFirst row → rowSize left < rowSize row) := by
  match row with
  | [] => cases h
  | .wild :: rest =>
      obtain rfl := some.inj h
      refine ⟨by simp [rowSize_append, rowSize, Pattern.size], ?_⟩
      intro ⟨_, _, hrow, hne⟩
      exact absurd (cons.inj hrow).1.symm hne
  | .head test :: rest =>
      obtain ⟨-, rfl⟩ : S.accepts test head = true ∧ _ = left := by
        simpa [specializeRow] using h
      simp [rowSize_append, rowSize, Pattern.size]
  | .node test arguments :: rest =>
      obtain ⟨-, rfl⟩ : (S.accepts test head = true ∧ arguments.length = arity) ∧ _ = left := by
        simpa [specializeRow] using h
      have hsize : rowSize (arguments ++ rest) < rowSize (.node test arguments :: rest) := by
        rw [rowSize_append, rowSize, Pattern.size]
        omega
      exact ⟨Nat.le_of_lt hsize, fun _ => hsize⟩

theorem matrixSize_specialize_le (head : Head) (arity : ℕ) (rows : List (List (Pattern Test))) :
    matrixSize (specialize S head arity rows) ≤ matrixSize rows := by
  induction rows with
  | nil => exact Nat.le_refl _
  | cons row rows ih =>
      unfold matrixSize specialize at ih ⊢
      rw [filterMap_cons]
      split
      next => exact Nat.le_trans ih (by simp)
      next left hleft =>
        simp only [map_cons, sum_cons]
        exact Nat.add_le_add (rowSize_specializeRow hleft).1 ih

theorem matrixSize_specialize_lt (head : Head) (arity : ℕ) (h : ∃ row ∈ rows, LooksFirst row) :
    matrixSize (specialize S head arity rows) < matrixSize rows := by
  induction rows with
  | nil =>
      obtain ⟨row, hrow, -⟩ := h
      cases hrow
  | cons row rows ih =>
      have hrest := matrixSize_specialize_le (S := S) head arity rows
      unfold matrixSize specialize at ih hrest ⊢
      rw [filterMap_cons, map_cons, sum_cons]
      by_cases hfirst : LooksFirst row
      · split
        next =>
          obtain ⟨pattern, rest, rfl, hne⟩ := hfirst
          have hpos := Pattern.size_pos hne
          rw [rowSize]
          omega
        next left hleft =>
          rw [map_cons, sum_cons]
          exact Nat.add_lt_add_of_lt_of_le ((rowSize_specializeRow hleft).2 hfirst) hrest
      · obtain ⟨row', hrow', hlooks⟩ := h
        have hmem : row' ∈ rows := by
          rcases mem_cons.mp hrow' with rfl | hmem
          · exact absurd hlooks hfirst
          · exact hmem
        have hlt := ih ⟨row', hmem, hlooks⟩
        split
        next => omega
        next left hleft =>
          rw [map_cons, sum_cons]
          exact Nat.add_lt_add_of_le_of_lt (rowSize_specializeRow hleft).1 hlt

theorem matrixSize_defaults_le (rows : List (List (Pattern Test))) :
    matrixSize (defaults rows) ≤ matrixSize rows := by
  induction rows with
  | nil => exact Nat.le_refl _
  | cons row rows ih =>
      unfold matrixSize defaults at ih ⊢
      rw [filterMap_cons, map_cons, sum_cons]
      split
      next => omega
      next left hleft =>
        match row, hleft with
        | .wild :: rest, hleft =>
            obtain rfl := some.inj hleft
            simp only [map_cons, sum_cons, rowSize, Pattern.size]
            omega

theorem Exhaustive.specialize {ty : Ty} {fields : List Ty} {head : Head}
    (h : Exhaustive S rows (ty :: types)) (hhead : S.heads ty head fields) :
    Exhaustive S (PatternMatrix.specialize S head fields.length rows) (fields ++ types) := by
  intro values hvalues
  have hfirst := forall₂_take_append _ _ _ hvalues
  have hrest := forall₂_drop_append _ _ _ hvalues
  have hmatches := h _ (.cons (.node hhead hfirst) hrest)
  rw [anyMatches_node, hfirst.length_eq, take_append_drop] at hmatches
  exact hmatches

theorem Exhaustive.covers {rows : List (List (Pattern Test))} {types : List Ty}
    (h : Exhaustive S rows types) : Covers S rows types := by
  match types with
  | [] =>
      obtain ⟨row, hrow, hmatches⟩ := h [] .nil
      obtain rfl := length_eq_zero_iff.mp (matchesRow_length hmatches)
      exact .done hrow
  | ty :: types =>
      by_cases hlooks : ∃ row ∈ rows, LooksFirst row
      · exact .split fun head fields hhead =>
          have hsize := matrixSize_specialize_lt (S := S) head fields.length hlooks
          (h.specialize hhead).covers
      · by_cases hinhabited : ∃ value, HasType S value ty
        · obtain ⟨value, hvalue⟩ := hinhabited
          have hsize := matrixSize_defaults_le rows
          refine .skip (Exhaustive.covers fun values hvalues => ?_)
          have hmatches := h (value :: values) (.cons hvalue hvalues)
          exact anyMatches_defaults (fun row hrow hfirst => hlooks ⟨row, hrow, hfirst⟩) hmatches
        · exact .uninhabited (not_exists.mp hinhabited)
termination_by (matrixSize rows, types.length)
decreasing_by
  · exact Prod.Lex.left _ _ hsize
  · exact Prod.Lex.right' _ hsize (Nat.lt_succ_self _)

/-- Taking a matrix apart column by column finds every exhaustive one. -/
theorem exhaustive_iff_covers :
    Exhaustive S rows types ↔ Covers S rows types := ⟨Exhaustive.covers, Covers.exhaustive⟩

end Jadren.PatternMatrix

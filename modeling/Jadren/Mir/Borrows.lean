import Jadren.Mir.Paths
import Jadren.Library.Worklist

/-!
# Borrow conflicts

`analyzeFunctionBorrows` is the borrow analysis: a forward may-analysis whose
state is a set of loans (`Loan`: who holds the borrow, the place borrowed, the
kind).  An access through a holder is first resolved to the place the holder
borrowed (`resolveLoanPlace`), then compared with every loan in the set, and with
the borrows taken earlier in the same list of accesses.

A path keeps what each local borrows (`Loans`).  There a reborrow is traced: the
place borrowed is a place of the original owner.  The analysis departs from the
path in four ways:

* it never looks at the destination of an assignment;
* it records a reborrow under the holder's own place, untraced;
* an assignment that copies a borrow does not carry the loan over;
* `resolveLoanPlace` takes the first loan the holder may have, of whichever path.

`Tracked` and `HoldersAgree` exclude exactly these steps.  On the runs that
remain, an accepted function respects every live loan (`RespectsLoans`).  The
relation that carries the proof is again inclusion: each loan of the path is in
the analysis's set.  For the last of the four it is used in the other direction:
every loan in a computed set is held on some path (`explained_of_solve`).
-/

namespace Jadren.Mir

open OrderedSet

/-! ## The analysis -/

/-- A borrow held by a local. -/
structure Loan where
  holder : LocalId
  source : Place
  kind : BorrowKind
  deriving DecidableEq, Ord, Repr

/-- Whether an access is incompatible with a loan of the same memory. -/
def accessConflictsWithLoan (access : AccessKind) (loan : BorrowKind) : Bool :=
  match access, loan with
  | .read, .read | .borrowRead, .read => false
  | _, _ => true

/-- A place inside what another place refers to. -/
def Place.extend (source : Place) (projection : List Projection) : Place :=
  ⟨source.root, source.projection ++ projection⟩

/-- The place an access through a holder reaches. -/
def resolveLoanPlace (place : Place) (active : OrderedSet Loan) : Place :=
  match active.find? fun loan => loan.holder == place.root with
  | none => place
  | some loan => loan.source.extend place.projection

/-- The borrow an access takes for the rest of its list. -/
def AccessKind.ephemeral : AccessKind → Option BorrowKind
  | .borrowRead => some .read
  | .borrowWrite => some .write
  | _ => none

/-- Compares an access, resolved to `place`, with borrows of the given places. -/
def checkAgainst (access : PlaceAccess) (place : Place) (message : String)
    (borrowed : List (Place × BorrowKind)) (diagnostics : Diagnostics) : Diagnostics :=
  borrowed.foldl (fun current other =>
    if place.overlaps other.1 && accessConflictsWithLoan access.kind other.2 then
      current.report "J0503" access.span access.place.root message
    else current) diagnostics

/-- Checks the accesses in order; `ephemeral` are the borrows taken by earlier ones. -/
def checkBorrowAccessesFrom (active : OrderedSet Loan) :
    List PlaceAccess → List (Place × BorrowKind) → Diagnostics → Diagnostics
  | [], _, diagnostics => diagnostics
  | access :: rest, ephemeral, diagnostics =>
      let place := resolveLoanPlace access.place active
      let afterLoans := checkAgainst access place
        "overlapping access conflicts with an active borrow"
        (active.elems.map fun loan => (loan.source, loan.kind)) diagnostics
      let afterEphemeral := checkAgainst access place
        "overlapping call arguments require incompatible borrows" ephemeral afterLoans
      match access.kind.ephemeral with
      | none => checkBorrowAccessesFrom active rest ephemeral afterEphemeral
      | some kind => checkBorrowAccessesFrom active rest (ephemeral ++ [(place, kind)])
          afterEphemeral

def checkBorrowAccesses (accesses : List PlaceAccess) (active : OrderedSet Loan)
    (diagnostics : Diagnostics) : Diagnostics :=
  checkBorrowAccessesFrom active accesses [] diagnostics

/-- Writing to a part of a read capability is an error; rebinding the local is not. -/
def checkReadOnlyWrite (destination : Place) (span : Span) (function : MirFunction)
    (diagnostics : Diagnostics) : Diagnostics :=
  if destination.projection = [] then diagnostics
  else
    match function.locals[destination.root]? with
    | none => diagnostics
    | some slot =>
        match slot.ty with
        | .capability .read _ =>
            diagnostics.report "J0504" span destination.root
              "cannot write through a read-only capability"
        | _ => diagnostics

/-- One statement or terminator of the borrow analysis. -/
def visitBorrows (function : MirFunction) (action : Action)
    (current : OrderedSet Loan × Diagnostics) : OrderedSet Loan × Diagnostics :=
  match action with
  | .statement (.storageLive slot _) | .statement (.storageDead slot _) =>
      (current.1.retain fun loan => loan.holder ≠ slot, current.2)
  | .statement (.regionEnter _ _) | .statement (.regionExit _ _) => current
  | .statement (.assign destination _ _ accesses span) =>
      let diagnostics := checkBorrowAccesses accesses current.1
        (checkReadOnlyWrite destination span function current.2)
      if destination.projection = [] then
        (current.1.retain fun loan => loan.holder ≠ destination.root, diagnostics)
      else (current.1, diagnostics)
  | .statement (.borrow destination source kind _ span) =>
      let loans := current.1.retain fun loan => loan.holder ≠ destination
      (loans.insert ⟨destination, source, kind⟩,
        checkBorrowAccesses [⟨source, kind.access, span⟩] loans current.2)
  | .statement (.drop place span) =>
      (current.1, checkBorrowAccesses [⟨place, .move, span⟩] current.1 current.2)
  | .statement (.evaluate _ accesses _) =>
      (current.1, checkBorrowAccesses accesses current.1 current.2)
  | .terminator last =>
      (current.1, checkBorrowAccesses (terminatorAccesses last) current.1 current.2)

def borrowSolver (function : MirFunction) : Flow.Solver Action (OrderedSet Loan) Diagnostics :=
  ⟨visitBorrows function, union⟩

/-- The borrow analysis of one function, run for at most `fuel` blocks taken from
the queue. -/
def analyzeFunctionBorrows (fuel : ℕ) (function : MirFunction) : Option (List MirError) :=
  if function.blocks = [] then some []
  else
    ((borrowSolver function).solve function.graph fuel
      (Flow.Solver.initial function.graph ∅ .empty)).map fun work => work.report.errors

/-! ## Loans along a path -/

/-- What a local borrows. -/
structure Borrowed where
  source : Place
  kind : BorrowKind
  deriving DecidableEq, Repr

/-- What each local borrows on a path. -/
abbrev Loans := LocalId → Option Borrowed

namespace Loans

/-- Nothing is borrowed. -/
def empty : Loans := fun _ => none

def set (loans : Loans) (holder : LocalId) (borrowed : Option Borrowed) : Loans :=
  fun other => if other = holder then borrowed else loans other

/-- The place of the original owner that an access through a holder reaches. -/
def traced (loans : Loans) (place : Place) : Place :=
  match loans place.root with
  | none => place
  | some borrowed => borrowed.source.extend place.projection

/-- The borrow that an assignment of a plain place copies into a local of the given type. -/
def copied (loans : Loans) (ty : Option TypeKind) (value : Option MirOperand) : Option Borrowed :=
  match ty, value with
  | some (.capability .read _), some ⟨_, .place place, _⟩
  | some (.capability .write _), some ⟨_, .place place, _⟩ =>
      (loans place.root).map fun borrowed =>
        ⟨borrowed.source.extend place.projection, borrowed.kind⟩
  | _, _ => none

/-- The place an assignment writes: a part of a holder is memory of the owner. -/
def written (loans : Loans) (destination : Place) : Place :=
  if destination.projection = [] then destination else loans.traced destination

end Loans

/-- What each local borrows after an action. -/
def loansAfter (function : MirFunction) (action : Action) (loans : Loans) : Loans :=
  match action with
  | .statement (.storageLive slot _) | .statement (.storageDead slot _) => loans.set slot none
  | .statement (.assign destination _ value _ _) =>
      if destination.projection = [] then
        loans.set destination.root
          (loans.copied (function.locals[destination.root]?.map MirLocal.ty) value)
      else loans
  | .statement (.borrow destination source kind _ _) =>
      loans.set destination (some ⟨loans.traced source, kind⟩)
  | _ => loans

/-- The path semantics of borrows. -/
abbrev borrowPaths (function : MirFunction) : Flow.PathSemantics Action where
  State := Loans
  Label := Action
  action := id
  step action loans loans' := loans' = loansAfter function action loans

/-- The borrow each local has stored, with the source as it was written. -/
def storedAfter (action : Action) (stored : Loans) : Loans :=
  match action with
  | .statement (.storageLive slot _) | .statement (.storageDead slot _) => stored.set slot none
  | .statement (.assign destination _ _ _ _) =>
      if destination.projection = [] then stored.set destination.root none else stored
  | .statement (.borrow destination source kind _ _) => stored.set destination (some ⟨source, kind⟩)
  | _ => stored

/-- The path semantics of stored borrows. -/
abbrev storedPaths : Flow.PathSemantics Action where
  State := Loans
  Label := Action
  action := id
  step action stored stored' := stored' = storedAfter action stored

/-- The accesses of an action; a drop moves its place. -/
def Action.checkedAccesses : Action → List PlaceAccess
  | .statement (.drop place span) => [⟨place, .move, span⟩]
  | action => action.operandAccesses

/-- The local whose borrow ends when the action starts. -/
def Action.releases : Action → Option LocalId
  | .statement (.borrow destination _ _ _ _) => some destination
  | _ => none

/-- An action respects the live loans: its accesses are compatible with them and
with one another, and it does not write to borrowed memory, unless through the
write borrow itself. -/
structure RespectsLoans (action : Action) (loans : Loans) : Prop where
  accesses : ∀ access ∈ action.checkedAccesses, ∀ holder borrowed, loans holder = some borrowed →
    action.releases ≠ some holder →
    (loans.traced access.place).overlaps borrowed.source = true →
    accessConflictsWithLoan access.kind borrowed.kind = false
  arguments : action.checkedAccesses.Pairwise fun earlier later => ∀ kind,
    earlier.kind.ephemeral = some kind →
    (loans.traced later.place).overlaps (loans.traced earlier.place) = true →
    accessConflictsWithLoan later.kind kind = false
  write : ∀ destination ∈ action.destination?, ∀ holder borrowed, loans holder = some borrowed →
    (holder = destination.root → destination.projection ≠ [] ∧ borrowed.kind = .read) →
    (loans.written destination).overlaps borrowed.source = false

/-- Where the analysis keeps track of the loans: an assignment writes to no memory
that another local borrows and copies no borrow, and a borrow is not taken through
another one.  A local that stores a read borrow is declared to. -/
def Tracked (function : MirFunction) (action : Action) (loans : Loans) : Prop :=
  match action with
  | .statement (.assign destination _ value _ _) =>
      (∀ holder borrowed, loans holder = some borrowed → holder ≠ destination.root →
        (loans.written destination).overlaps borrowed.source = false) ∧
      loans.copied (function.locals[destination.root]?.map MirLocal.ty) value = none
  | .statement (.borrow destination source kind _ _) =>
      loans source.root = none ∧
      (kind = .read → ∃ inner,
        function.locals[destination]?.map MirLocal.ty = some (.capability .read inner))
  | _ => True

/-- What a local accessed at a position has stored, on whichever path, it borrows on
this one. -/
def HoldersAgree (function : MirFunction) (b i : ℕ) (action : Action) (loans : Loans) : Prop :=
  ∀ access ∈ action.checkedAccesses, ∀ trace stored,
    Flow.Run function.graph storedPaths Loans.empty trace b i stored →
    ∀ borrowed, stored access.place.root = some borrowed →
      loans access.place.root = some borrowed

/-! ## The analysis as a dataflow problem -/

/-- The transfer functions of the analysis; an action is quiet if it reports nothing. -/
def borrowAnalysis (function : MirFunction) : Flow.Analysis Action (OrderedSet Loan) where
  transfer action loans := (visitBorrows function action (loans, .empty)).1
  le loans loans' := ∀ loan ∈ loans, loan ∈ loans'
  quiet action loans := (visitBorrows function action (loans, .empty)).2.Clean

/-- The loans do not depend on what was reported. -/
theorem visitBorrows_fst (function : MirFunction) (action : Action) (loans : OrderedSet Loan)
    (diagnostics diagnostics' : Diagnostics) :
    (visitBorrows function action (loans, diagnostics)).1 =
      (visitBorrows function action (loans, diagnostics')).1 := by
  cases action with
  | terminator => rfl
  | statement statement =>
      cases statement with
      | assign =>
          simp only [visitBorrows]
          split <;> rfl
      | _ => rfl

variable {diagnostics : Diagnostics}

theorem clean_of_checkAgainst {access : PlaceAccess} {place : Place} {message : String}
    {borrowed : List (Place × BorrowKind)}
    (h : (checkAgainst access place message borrowed diagnostics).Clean) :
    diagnostics.Clean ∧ ∀ other ∈ borrowed, place.overlaps other.1 = true →
      accessConflictsWithLoan access.kind other.2 = false := by
  unfold checkAgainst at h
  induction borrowed generalizing diagnostics with
  | nil => exact ⟨h, by simp⟩
  | cons first rest ih =>
      obtain ⟨hfirst, hrest⟩ := ih h
      beta_reduce at hfirst
      split at hfirst
      · exact absurd hfirst (Diagnostics.not_clean_report _ _ _ _ _)
      · rename_i hnone
        refine ⟨hfirst, fun other hother hoverlaps => ?_⟩
        rcases List.mem_cons.mp hother with rfl | hmem
        · simpa [hoverlaps] using hnone
        · exact hrest other hmem hoverlaps

/-- What a list of accesses without an error satisfies. -/
structure AccessesPass (active : OrderedSet Loan) (accesses : List PlaceAccess)
    (ephemeral : List (Place × BorrowKind)) : Prop where
  loans : ∀ access ∈ accesses, ∀ loan ∈ active,
    (resolveLoanPlace access.place active).overlaps loan.source = true →
    accessConflictsWithLoan access.kind loan.kind = false
  ephemeral : ∀ access ∈ accesses, ∀ other ∈ ephemeral,
    (resolveLoanPlace access.place active).overlaps other.1 = true →
    accessConflictsWithLoan access.kind other.2 = false
  arguments : accesses.Pairwise fun earlier later => ∀ kind, earlier.kind.ephemeral = some kind →
    (resolveLoanPlace later.place active).overlaps (resolveLoanPlace earlier.place active) = true →
    accessConflictsWithLoan later.kind kind = false

variable {active : OrderedSet Loan} {accesses : List PlaceAccess}

theorem clean_of_checkBorrowAccessesFrom {ephemeral : List (Place × BorrowKind)}
    (h : (checkBorrowAccessesFrom active accesses ephemeral diagnostics).Clean) :
    diagnostics.Clean ∧ AccessesPass active accesses ephemeral := by
  induction accesses generalizing ephemeral diagnostics with
  | nil => exact ⟨h, by simp, by simp, List.Pairwise.nil⟩
  | cons access rest ih =>
      -- what the rest of the list satisfies, whether or not this access is a borrow
      have hrest : (checkAgainst access (resolveLoanPlace access.place active)
            "overlapping call arguments require incompatible borrows" ephemeral
            (checkAgainst access (resolveLoanPlace access.place active)
              "overlapping access conflicts with an active borrow"
              (active.elems.map fun loan => (loan.source, loan.kind)) diagnostics)).Clean ∧
          AccessesPass active rest ephemeral ∧
          ∀ later ∈ rest, ∀ kind, access.kind.ephemeral = some kind →
            (resolveLoanPlace later.place active).overlaps
              (resolveLoanPlace access.place active) = true →
            accessConflictsWithLoan later.kind kind = false := by
        simp only [checkBorrowAccessesFrom] at h
        cases hkind : access.kind.ephemeral with
        | none =>
            rw [hkind] at h
            exact ⟨(ih h).1, (ih h).2, by simp⟩
        | some =>
            rw [hkind] at h
            obtain ⟨hclean, pass⟩ := ih h
            refine ⟨hclean, ⟨pass.loans, fun later hlater other hother =>
              pass.ephemeral later hlater other (List.mem_append_left _ hother), pass.arguments⟩,
                ?_⟩
            rintro later hlater _ ⟨⟩ hoverlaps
            exact pass.ephemeral later hlater _
              (List.mem_append_right _ (List.mem_singleton_self _))
              hoverlaps
      obtain ⟨hclean, pass, harguments⟩ := hrest
      obtain ⟨hclean, hephemeral⟩ := clean_of_checkAgainst hclean
      obtain ⟨hclean, hloans⟩ := clean_of_checkAgainst hclean
      refine ⟨hclean, ?_, ?_, List.Pairwise.cons harguments pass.arguments⟩
      · intro other hother loan hloan
        rcases List.mem_cons.mp hother with rfl | hmem
        · exact hloans (loan.source, loan.kind) (List.mem_map_of_mem hloan)
        · exact pass.loans other hmem loan hloan
      · intro other hother
        rcases List.mem_cons.mp hother with rfl | hmem
        · exact hephemeral
        · exact pass.ephemeral other hmem

theorem clean_of_checkBorrowAccesses (h : (checkBorrowAccesses accesses active diagnostics).Clean) :
    diagnostics.Clean ∧ AccessesPass active accesses [] :=
  clean_of_checkBorrowAccessesFrom h

variable {function : MirFunction}

/-- A part of a local declared as a read capability is not written. -/
theorem clean_of_checkReadOnlyWrite {destination : Place} {span : Span}
    (h : (checkReadOnlyWrite destination span function diagnostics).Clean) :
    diagnostics.Clean ∧ ∀ inner,
      function.locals[destination.root]?.map MirLocal.ty = some (.capability .read inner) →
        destination.projection = [] := by
  unfold checkReadOnlyWrite at h
  split at h
  · rename_i hwhole
    exact ⟨h, fun _ _ => hwhole⟩
  · split at h
    · rename_i hslot
      exact ⟨h, by simp [hslot]⟩
    · rename_i slot hslot
      split at h
      · exact absurd h (Diagnostics.not_clean_report _ _ _ _ _)
      · rename_i hother
        refine ⟨h, fun inner hinner => ?_⟩
        rw [hslot] at hinner
        exact absurd (Option.some.inj hinner) (hother inner)

/-- The loans against which an action's accesses are checked. -/
def checkedLoans (action : Action) (loans : OrderedSet Loan) : OrderedSet Loan :=
  match action.releases with
  | none => loans
  | some slot => loans.retain fun loan => loan.holder ≠ slot

variable {action : Action}

/-- What an action without an error satisfies. -/
theorem clean_of_visitBorrows {current : OrderedSet Loan × Diagnostics}
    (h : (visitBorrows function action current).2.Clean) :
    current.2.Clean ∧ AccessesPass (checkedLoans action current.1) action.checkedAccesses [] := by
  cases action with
  | terminator => exact clean_of_checkBorrowAccesses h
  | statement statement =>
      cases statement with
      | storageLive | storageDead | regionEnter | regionExit =>
          exact ⟨h, by simp [Action.checkedAccesses, Action.operandAccesses],
            by simp [Action.checkedAccesses, Action.operandAccesses], List.Pairwise.nil⟩
      | assign destination indices value accesses span =>
          have hclean : (checkBorrowAccesses accesses current.1
              (checkReadOnlyWrite destination span function current.2)).Clean := by
            simp only [visitBorrows] at h
            split at h <;> exact h
          obtain ⟨hwrite, pass⟩ := clean_of_checkBorrowAccesses hclean
          exact ⟨(clean_of_checkReadOnlyWrite hwrite).1, pass⟩
      | borrow | drop | evaluate => exact clean_of_checkBorrowAccesses h

theorem borrowSolver_computes (function : MirFunction) :
    (borrowSolver function).Computes (borrowAnalysis function) Diagnostics.Clean where
  transfer action loans report := visitBorrows_fst function action loans report .empty
  report action loans report h := by
    have hclean : report.Clean := (clean_of_visitBorrows h).1
    refine ⟨hclean, ?_⟩
    rw [hclean.eq_empty] at h
    exact h
  le_refl _ _ h := h
  le_trans h₁ h₂ loan h := h₂ loan (h₁ loan h)
  le_join_left _ _ _ h := mem_union.mpr (.inl h)
  le_join_right _ _ _ h := mem_union.mpr (.inr h)

/-- Each loan in a set is kept, dropped or added by itself. -/
theorem borrowSolver_distributive (function : MirFunction) :
    (borrowSolver function).Distributive (borrowAnalysis function)
      (fun (loan : Loan) (loans : OrderedSet Loan) => loan ∈ loans) where
  join h := mem_union.mp h
  transfer {action loans loan} h := by
    have keep : loan ∈ loans → (∀ loans', loan ∈ loans' →
        loan ∈ (borrowAnalysis function).transfer action loans') →
        ∃ other ∈ loans, ∀ loans', other ∈ loans' →
          loan ∈ (borrowAnalysis function).transfer action loans' :=
      fun hloan hkept => ⟨loan, hloan, hkept⟩
    simp only [borrowAnalysis] at h keep ⊢
    cases action with
    | terminator => exact .inr (keep h fun _ h' => h')
    | statement statement =>
        cases statement with
        | storageLive slot span | storageDead slot span =>
            obtain ⟨hloan, hslot⟩ := mem_retain.mp h
            exact .inr (keep hloan fun _ h' => mem_retain.mpr ⟨h', hslot⟩)
        | assign =>
            simp only [visitBorrows] at h keep ⊢
            split at h
            · rename_i hwhole
              simp only [hwhole, if_true] at keep ⊢
              obtain ⟨hloan, hslot⟩ := mem_retain.mp h
              exact .inr (keep hloan fun _ h' => mem_retain.mpr ⟨h', hslot⟩)
            · rename_i hpart
              simp only [hpart, if_false] at keep ⊢
              exact .inr (keep h fun _ h' => h')
        | borrow =>
            simp only [visitBorrows, mem_insert, mem_retain] at h keep ⊢
            rcases h with rfl | ⟨hloan, hslot⟩
            · exact .inl fun _ => .inl rfl
            · exact .inr (keep hloan fun _ h' => .inr ⟨h', hslot⟩)
        | regionEnter | regionExit | drop | evaluate => exact .inr (keep h fun _ h' => h')

/-- Along one path the set of loans is what the locals have stored. -/
def StoresLoans (held : OrderedSet Loan) (stored : Loans) : Prop :=
  ∀ loan ∈ held, stored loan.holder = some ⟨loan.source, loan.kind⟩

theorem storesLoans_empty : StoresLoans ∅ Loans.empty :=
  fun loan h => absurd h (not_mem_empty loan)

variable {held : OrderedSet Loan} {stored : Loans}

theorem StoresLoans.release (stores : StoresLoans held stored) (slot : LocalId)
    (value : Option Borrowed) :
    StoresLoans (held.retain fun loan => loan.holder ≠ slot) (stored.set slot value) := by
  intro loan hmem
  obtain ⟨hloan, hslot⟩ := mem_retain.mp hmem
  rw [Loans.set, if_neg (of_decide_eq_true hslot)]
  exact stores loan hloan

theorem storesLoans_step (stores : StoresLoans held stored) :
    StoresLoans ((borrowAnalysis function).transfer action held) (storedAfter action stored) := by
  cases action with
  | terminator => exact stores
  | statement statement =>
      cases statement with
      | storageLive slot span | storageDead slot span => exact stores.release slot none
      | assign destination =>
          simp only [borrowAnalysis, visitBorrows, storedAfter]
          split
          · exact stores.release destination.root none
          · exact stores
      | borrow destination =>
          intro loan hmem
          rcases mem_insert.mp hmem with rfl | hold
          · simp [storedAfter, Loans.set]
          · exact stores.release destination _ loan hold
      | regionEnter | regionExit | drop | evaluate => exact stores

/-! ## Soundness -/

/-- The analysis knows the loans of the path, and read borrows are stored in locals
declared as read capabilities. -/
structure KnowsLoans (function : MirFunction) (active : OrderedSet Loan) (loans : Loans) :
    Prop where
  known : ∀ {holder borrowed}, loans holder = some borrowed →
    (⟨holder, borrowed.source, borrowed.kind⟩ : Loan) ∈ active
  declared : ∀ {holder borrowed}, loans holder = some borrowed → borrowed.kind = .read →
    ∃ inner, function.locals[holder]?.map MirLocal.ty = some (.capability .read inner)

theorem knowsLoans_empty (function : MirFunction) : KnowsLoans function ∅ Loans.empty where
  known h := by cases h
  declared h := by cases h

variable {loans : Loans} {borrowed : Borrowed}

theorem Loans.set_eq_some {slot holder : LocalId} {value : Option Borrowed}
    (h : loans.set slot value holder = some borrowed) :
    (holder = slot ∧ value = some borrowed) ∨ (holder ≠ slot ∧ loans holder = some borrowed) := by
  unfold Loans.set at h
  split at h
  · exact .inl ⟨‹_›, h⟩
  · exact .inr ⟨‹_›, h⟩

variable (knows : KnowsLoans function active loans)
include knows

/-- Ending one local's borrow, on both sides. -/
theorem KnowsLoans.release (slot : LocalId) :
    KnowsLoans function (active.retain fun loan => loan.holder ≠ slot) (loans.set slot none) where
  known {holder borrowed} h := by
    rcases Loans.set_eq_some h with ⟨-, hnone⟩ | ⟨hslot, hloan⟩
    · cases hnone
    · exact mem_retain.mpr ⟨knows.known hloan, decide_eq_true hslot⟩
  declared h := by
    rcases Loans.set_eq_some h with ⟨-, hnone⟩ | ⟨-, hloan⟩
    · cases hnone
    · exact knows.declared hloan

theorem knowsLoans_step
    (tracked : Tracked function action loans) :
    KnowsLoans function ((borrowAnalysis function).transfer action active)
      (loansAfter function action loans) := by
  cases action with
  | terminator => exact knows
  | statement statement =>
      cases statement with
      | storageLive slot span | storageDead slot span => exact knows.release slot
      | assign destination =>
          simp only [borrowAnalysis, visitBorrows, loansAfter]
          split
          · rw [tracked.2]
            exact knows.release destination.root
          · exact knows
      | borrow destination source =>
          obtain ⟨hsource, hdeclared⟩ := tracked
          have htraced : loans.traced source = source := by simp [Loans.traced, hsource]
          simp only [borrowAnalysis, visitBorrows, loansAfter, htraced]
          refine ⟨fun h => ?_, fun h hkind => ?_⟩
          · rcases Loans.set_eq_some h with ⟨rfl, ⟨⟩⟩ | ⟨hslot, hloan⟩
            · exact mem_insert.mpr (.inl rfl)
            · exact mem_insert.mpr (.inr
                (mem_retain.mpr ⟨knows.known hloan, decide_eq_true hslot⟩))
          · rcases Loans.set_eq_some h with ⟨rfl, ⟨⟩⟩ | ⟨-, hloan⟩
            · exact hdeclared hkind
            · exact knows.declared hloan hkind
      | regionEnter | regionExit | drop | evaluate => exact knows

/-- Where the loans of the accessed local are those of the path, an access is
resolved to the place the path traces it to. -/
theorem resolveLoanPlace_eq_traced {place : Place}
    (hagree : ∀ loan ∈ active, loan.holder = place.root →
      loans loan.holder = some ⟨loan.source, loan.kind⟩) :
    resolveLoanPlace place active = loans.traced place := by
  unfold resolveLoanPlace Loans.traced
  cases hfind : active.find? fun loan => loan.holder == place.root with
  | none =>
      cases hloan : loans place.root with
      | none => rfl
      | some =>
          have habsent := find?_none hfind _ (knows.known hloan)
          simp at habsent
  | some loan =>
      obtain ⟨hmem, hholder⟩ := find?_some hfind
      have hroot : loan.holder = place.root := by simpa using hholder
      rw [← hroot, hagree loan hmem hroot]

/-- The same in the loans an action's accesses are checked against. -/
theorem resolveLoanPlace_checkedLoans
    (tracked : Tracked function action loans)
    (hagree : ∀ access ∈ action.checkedAccesses, ∀ loan ∈ active,
      loan.holder = access.place.root → loans loan.holder = some ⟨loan.source, loan.kind⟩)
    (access : PlaceAccess) (haccess : access ∈ action.checkedAccesses) :
    resolveLoanPlace access.place (checkedLoans action active) = loans.traced access.place := by
  have hsame : resolveLoanPlace access.place active = loans.traced access.place :=
    resolveLoanPlace_eq_traced knows (hagree access haccess)
  cases action with
  | terminator => exact hsame
  | statement statement =>
      cases statement with
      | borrow destination source kind preserveValue span =>
          obtain rfl : access = ⟨source, kind.access, span⟩ := by
            simpa [Action.checkedAccesses, Action.operandAccesses] using haccess
          have hsource : loans source.root = none := tracked.1
          -- no path holds a loan in the root of the source, so neither does the set
          have habsent : ∀ loan ∈ active, loan.holder ≠ source.root := by
            intro loan hmem hroot
            have hloan := hagree _ haccess loan hmem hroot
            rw [hroot, hsource] at hloan
            cases hloan
          have htraced : (loans.set destination none).traced source = loans.traced source := by
            simp [Loans.traced, Loans.set, hsource]
          rw [← htraced]
          refine resolveLoanPlace_eq_traced (knows.release destination) fun loan hmem hroot => ?_
          exact absurd hroot (habsent loan (mem_retain.mp hmem).1)
      | _ => exact hsame

/-- What an action without an error respects. -/
theorem respectsLoans_of_quiet
    (tracked : Tracked function action loans)
    (hagree : ∀ access ∈ action.checkedAccesses, ∀ loan ∈ active,
      loan.holder = access.place.root → loans loan.holder = some ⟨loan.source, loan.kind⟩)
    (hquiet : (borrowAnalysis function).quiet action active) : RespectsLoans action loans := by
  have hresolve := fun access haccess =>
    resolveLoanPlace_checkedLoans knows tracked hagree access haccess
  have pass := (clean_of_visitBorrows hquiet).2
  refine ⟨fun access haccess holder borrowed hloan hreleases hoverlaps => ?_, ?_, ?_⟩
  · -- a loan that the action does not release is among those checked
    have hchecked : (⟨holder, borrowed.source, borrowed.kind⟩ : Loan) ∈
        checkedLoans action active := by
      unfold checkedLoans
      split
      · exact knows.known hloan
      · rename_i slot hslot
        exact mem_retain.mpr ⟨knows.known hloan,
          decide_eq_true fun heq => hreleases (hslot.trans (congrArg some heq.symm))⟩
    refine pass.loans access haccess _ hchecked ?_
    rw [hresolve access haccess]
    exact hoverlaps
  · refine pass.arguments.imp_of_mem fun hearlier hlater hpass kind hkind hoverlaps => ?_
    refine hpass kind hkind ?_
    rw [hresolve _ hearlier, hresolve _ hlater]
    exact hoverlaps
  · intro destination hdestination holder borrowed hloan hown
    obtain ⟨indices, value, accesses, span, rfl⟩ : ∃ indices value accesses span,
        action = .statement (.assign destination indices value accesses span) := by
      unfold Action.destination? at hdestination
      split at hdestination
      · cases hdestination
        exact ⟨_, _, _, _, rfl⟩
      · cases hdestination
    by_cases hholder : holder = destination.root
    · -- a part of a read capability is not written
      obtain ⟨hpart, hkind⟩ := hown hholder
      obtain ⟨inner, hinner⟩ := knows.declared hloan hkind
      rw [hholder] at hinner
      have hclean : (checkBorrowAccesses accesses active
          (checkReadOnlyWrite destination span function .empty)).Clean := by
        simpa [borrowAnalysis, visitBorrows, hpart] using hquiet
      exact absurd ((clean_of_checkReadOnlyWrite (clean_of_checkBorrowAccesses hclean).1).2 _
        hinner)
        hpart
    · exact tracked.1 holder borrowed hloan hholder

omit knows

/-- Every action of every path respects the loans live there. -/
def BorrowSafe (function : MirFunction) : Prop :=
  ∀ {trace b i loans}, Flow.Run function.graph (borrowPaths function) Loans.empty trace b i loans →
    ∀ action, function.graph.At b i action → RespectsLoans action loans

/-- Along a path of borrows there is nothing to choose. -/
def borrowStrategy (function : MirFunction) : Flow.Strategy (borrowPaths function) where
  label := id
  next := loansAfter function
  action_label _ := rfl
  step _ _ := rfl

/-- `fn f(data, other) { let view: read Buffer = data; data = other; print(view) }`. -/
def assignBorrowed : MirFunction where
  locals := [⟨"data", .buffer .integer, true, true, false, none, none, .point 0⟩,
    ⟨"other", .buffer .integer, false, true, false, none, none, .point 1⟩,
    ⟨"view", .capability .read (.buffer .integer), false, false, false, none, none, .point 2⟩]
  blocks := [
    { statements := [
        .storageLive 2 (.point 2),
        .borrow 2 (.ofLocal 0) .read false (.point 2),
        .assign (.ofLocal 0) [] none [⟨.ofLocal 1, .move, .point 4⟩] (.point 3),
        .evaluate none [⟨.ofLocal 2, .read, .point 5⟩] (.point 5)]
      terminator := .return none [] (.point 6) }]

/-- `fn g(data) { let view: read Buffer = data; let again: read Buffer = view; consume(data);
print(again) }`, where `view` ends after its last use. -/
def moveReborrowed : MirFunction where
  locals := [⟨"data", .buffer .integer, false, true, false, none, none, .point 0⟩,
    ⟨"view", .capability .read (.buffer .integer), false, false, false, none, none, .point 1⟩,
    ⟨"again", .capability .read (.buffer .integer), false, false, false, none, none, .point 2⟩]
  blocks := [
    { statements := [
        .storageLive 1 (.point 1),
        .borrow 1 (.ofLocal 0) .read false (.point 1),
        .storageLive 2 (.point 2),
        .borrow 2 (.ofLocal 1) .read false (.point 2),
        .storageDead 1 (.point 2),
        .evaluate none [⟨.ofLocal 0, .move, .point 3⟩] (.point 3),
        .evaluate none [⟨.ofLocal 2, .read, .point 4⟩] (.point 4)]
      terminator := .return none [] (.point 5) }]

/-- The analysis accepts an assignment to borrowed memory, and a move of a value
whose reborrow outlives the first borrow. -/
theorem not_borrowSafe_of_accepted :
    (analyzeFunctionBorrows 1 assignBorrowed = some [] ∧ ¬ BorrowSafe assignBorrowed) ∧
      analyzeFunctionBorrows 1 moveReborrowed = some [] ∧ ¬ BorrowSafe moveReborrowed := by
  refine ⟨⟨by decide +kernel, fun hsafe => ?_⟩, by decide +kernel, fun hsafe => ?_⟩
  · have run := (borrowStrategy assignBorrowed).follow (G := assignBorrowed.graph) (b := 0)
      (s := Loans.empty) rfl .start (List.take_prefix 2 _)
    have respects := hsafe run _ ⟨_, rfl, rfl⟩
    have hwrite := respects.write (.ofLocal 0) rfl 2 ⟨.ofLocal 0, .read⟩ rfl (by decide)
    exact absurd hwrite (by decide)
  · have run := (borrowStrategy moveReborrowed).follow (G := moveReborrowed.graph) (b := 0)
      (s := Loans.empty) rfl .start (List.take_prefix 5 _)
    have respects := hsafe run _ ⟨_, rfl, rfl⟩
    have hmove := respects.accesses ⟨.ofLocal 0, .move, .point 3⟩ (by decide) 2
      ⟨.ofLocal 0, .read⟩ rfl (by decide) (by decide)
    exact absurd hmove (by decide)

/-- The locals a borrow is stored in. -/
def MirFunction.borrowers (function : MirFunction) : List LocalId :=
  function.blocks.flatMap fun block => block.statements.filterMap fun
    | .borrow destination _ _ _ _ => some destination
    | _ => none

/-- A borrow stored after an action was stored before, or by the action. -/
theorem stored_of_storedAfter {slot : LocalId}
    (h : storedAfter action stored slot = some borrowed) :
    stored slot = some borrowed ∨ ∃ source kind preserveValue span,
      action = .statement (.borrow slot source kind preserveValue span) := by
  have kept : ∀ {other : LocalId}, stored.set other none slot = some borrowed →
      stored slot = some borrowed := by
    intro other h
    rcases Loans.set_eq_some h with ⟨-, hnone⟩ | ⟨-, hold⟩
    · cases hnone
    · exact hold
  cases action with
  | terminator => exact .inl h
  | statement statement =>
      cases statement with
      | storageLive | storageDead => exact .inl (kept h)
      | assign =>
          simp only [storedAfter] at h
          split at h
          · exact .inl (kept h)
          · exact .inl h
      | borrow destination source kind preserveValue span =>
          rcases Loans.set_eq_some h with ⟨rfl, -⟩ | ⟨-, hold⟩
          · exact .inr ⟨source, kind, preserveValue, span, rfl⟩
          · exact .inl hold
      | regionEnter | regionExit | drop | evaluate => exact .inl h

/-- On every path only these locals store a borrow. -/
theorem mem_borrowers_of_stored {trace : List (Flow.Event storedPaths)} {b i : ℕ}
    (run : Flow.Run function.graph storedPaths Loans.empty trace b i stored) :
    ∀ slot borrowed, stored slot = some borrowed → slot ∈ function.borrowers := by
  refine Flow.Run.invariant
    (I := fun _ _ _ (stored : Loans) =>
      ∀ slot borrowed, stored slot = some borrowed → slot ∈ function.borrowers)
    (fun _ _ h => by cases h) ?_ (fun _ ih _ _ => ih) run
  rintro trace b i stored _ block action - ih hblock haction rfl slot borrowed h
  rcases stored_of_storedAfter h with hold | ⟨source, kind, preserveValue, span, rfl⟩
  · exact ih slot borrowed hold
  · obtain ⟨block, hblock, hstatement⟩ :=
      MirFunction.mem_statements_of_at ⟨block, hblock, haction⟩
    exact List.mem_flatMap.mpr ⟨block, hblock, List.mem_filterMap.mpr ⟨_, hstatement, rfl⟩⟩

/-- Paths agree on locals that never store a borrow. -/
theorem holdersAgree_of_owners {b i : ℕ}
    (howners : ∀ access ∈ action.checkedAccesses, access.place.root ∉ function.borrowers) :
    HoldersAgree function b i action loans := by
  intro access haccess trace stored run borrowed h
  exact absurd (mem_borrowers_of_stored run _ _ h) (howners access haccess)

/-- **Accepted functions respect every live loan, on runs that keep loans tracked**,
at positions where the paths agree on what the accessed locals borrow. -/
theorem respectsLoans_of_accepted {fuel : ℕ} {function : MirFunction}
    (haccept : analyzeFunctionBorrows fuel function = some [])
    {trace : List (Flow.Event (borrowPaths function))} {b i : ℕ} {loans : Loans}
    (run : Flow.Run function.graph (borrowPaths function) Loans.empty trace b i loans)
    (htracked : ∀ event ∈ trace, Tracked function event.label event.before)
    {action : Action} (hat : function.graph.At b i action) (hnext : Tracked function action loans)
    (hagree : HoldersAgree function b i action loans) :
    RespectsLoans action loans := by
  have hblocks := MirFunction.blocks_ne_nil_of_at hat
  rw [analyzeFunctionBorrows, if_neg hblocks] at haccept
  obtain ⟨work, hsolve, hclean⟩ := Option.map_eq_some_iff.mp haccept
  have hentry := MirFunction.graph_blocks_pos hblocks
  have solution := Flow.Solver.isSolution_of_solve (borrowSolver_computes function) hentry hsolve
    hclean
  obtain ⟨block, active, hblock, hinput, knows, hquiet⟩ :=
    solution.covers_next (KnowsLoans function)
      (fun event => Tracked function event.label event.before)
      (fun knows hle => ⟨fun h => hle _ (knows.known h), knows.declared⟩)
      (knowsLoans_empty function)
      (fun event active _ knows hstep tracked _ => hstep ▸ knowsLoans_step knows tracked)
      run htracked hat
  have hindex : i ≤ block.body.length := run.index_le hblock
  have explained := (Flow.Solver.explained_of_solve (borrowSolver_computes function)
    (borrowSolver_distributive function) hsolve hinput).through
      (borrowSolver_distributive function) hblock i hindex
  refine respectsLoans_of_quiet knows hnext (fun access haccess loan hmem hroot => ?_) hquiet
  obtain ⟨trace', held, run', hheld⟩ := explained.2 loan hmem
  obtain ⟨trace'', stored, run'', hstored⟩ :=
    Flow.Run.simulate (P := (borrowAnalysis function).path) (Q := storedPaths) (R := StoresLoans)
      storesLoans_empty (fun _ hrel hstep => ⟨_, _, rfl, rfl, hstep.symm ▸ storesLoans_step hrel⟩)
        run'
  have hborrowed := hstored loan hheld
  rw [hroot] at hborrowed ⊢
  exact hagree access haccess trace'' stored run'' _ hborrowed

/-- `fn h(data, other) { let view: read Buffer = data; consume(other); print(view) }`. -/
def moveUnborrowed : MirFunction where
  locals := [⟨"data", .buffer .integer, false, true, false, none, none, .point 0⟩,
    ⟨"other", .buffer .integer, false, true, false, none, none, .point 1⟩,
    ⟨"view", .capability .read (.buffer .integer), false, false, false, none, none, .point 2⟩]
  blocks := [
    { statements := [
        .storageLive 2 (.point 2),
        .borrow 2 (.ofLocal 0) .read false (.point 2),
        .evaluate none [⟨.ofLocal 1, .move, .point 4⟩] (.point 3),
        .evaluate none [⟨.ofLocal 2, .read, .point 5⟩] (.point 5)]
      terminator := .return none [] (.point 6) }]

/-- While `data` is borrowed, `other` may be moved. -/
theorem respectsLoans_moveUnborrowed :
    RespectsLoans (.statement (.evaluate none [⟨.ofLocal 1, .move, .point 4⟩] (.point 3)))
      (Loans.empty.set 2 none |>.set 2 (some ⟨.ofLocal 0, .read⟩)) :=
  have run := (borrowStrategy moveUnborrowed).follow (G := moveUnborrowed.graph) (b := 0)
    (s := Loans.empty) rfl .start (List.take_prefix 2 _)
  respectsLoans_of_accepted
    (show analyzeFunctionBorrows 1 moveUnborrowed = some [] by decide +kernel) run
    (List.forall_mem_cons.mpr ⟨trivial, List.forall_mem_singleton.mpr ⟨rfl, fun _ => ⟨_, rfl⟩⟩⟩)
    ⟨_, rfl, rfl⟩ trivial (holdersAgree_of_owners (by decide))

end Jadren.Mir

import Jadren.Mir.Borrows
import Jadren.Mir.Lifetimes

/-!
# Loans and the storage they are of

`analyzeFunctionLifetimes` is the lifetime analysis: with the loans of the borrow analysis as its
state, it objects where the storage of a loan's source ends, and where a loan is returned whose
source is not a parameter that lends the caller's own borrow.

A path keeps the loans that each local carries (`Carried`): those it took, those of the local it
borrowed through, and those that came with a value copied, moved or wrapped into it.  The analysis
departs from the path in three ways:

* an assignment records no loan, also where the value carries some;
* a borrow through a holder is recorded with the holder as its source, so when the holder is given
  something else, the loans behind it are lost;
* a return looks at the first loan of a returned local, whatever the others are.

`RecordsLoans` and `ReturnsAgree` exclude exactly these.  On the runs that remain, each carried loan
is reached by a chain of recorded ones (`Recorded`): storage that ends in an accepted function ends
no link of a chain.
-/

namespace Jadren.Mir

open OrderedSet

/-! ## The analysis -/

/-- A parameter whose borrow was taken by the caller. -/
def externallyBorrowed (function : MirFunction) (slot : LocalId) : Bool :=
  match function.locals[slot]? with
  | none => false
  | some source =>
      source.isParameter &&
        match source.ty with
        | .capability .read _ | .capability .write _ => true
        | _ => false

/-- A returned access is judged by the first loan of its local. -/
def checkReturned (function : MirFunction) (span : Span) (loans : OrderedSet Loan)
    (diagnostics : Diagnostics) (access : PlaceAccess) : Diagnostics :=
  match loans.find? fun loan => loan.holder == access.place.root with
  | none => diagnostics
  | some loan =>
      if externallyBorrowed function loan.source.root then diagnostics
      else diagnostics.report "J0505" span access.place.root
        "returned borrow would outlive its source owner"

/-- One statement or terminator of the lifetime analysis. -/
def visitLifetimes (function : MirFunction) (action : Action)
    (current : OrderedSet Loan × Diagnostics) : OrderedSet Loan × Diagnostics :=
  match action with
  | .statement (.borrow destination source kind _ _) =>
      ((current.1.retain fun loan => loan.holder ≠ destination).insert ⟨destination, source, kind⟩,
        current.2)
  | .statement (.storageDead slot span) =>
      (current.1.retain fun loan => loan.holder ≠ slot,
        if current.1.elems.any fun loan => loan.source.root == slot then
          current.2.report "J0506" span slot "borrowed value does not live long enough"
        else current.2)
  | .statement (.assign destination _ _ _ _) =>
      if destination.projection = [] then
        (current.1.retain fun loan => loan.holder ≠ destination.root, current.2)
      else current
  | .statement (.storageLive slot _) =>
      (current.1.retain fun loan => loan.holder ≠ slot, current.2)
  | .statement (.regionEnter _ _) | .statement (.regionExit _ _) | .statement (.evaluate _ _ _)
  | .statement (.drop _ _) => current
  | .terminator (.return _ accesses span) =>
      (current.1, accesses.foldl (checkReturned function span current.1) current.2)
  | .terminator _ => current

def lifetimeSolver (function : MirFunction) : Flow.Solver Action (OrderedSet Loan) Diagnostics :=
  ⟨visitLifetimes function, union⟩

/-- The lifetime analysis of one function, run for at most `fuel` blocks taken from the queue. -/
def analyzeFunctionLifetimes (fuel : ℕ) (function : MirFunction) : Option (List MirError) :=
  if function.blocks = [] then some []
  else
    ((lifetimeSolver function).solve function.graph fuel
      (Flow.Solver.initial function.graph ∅ .empty)).map fun work => work.report.errors

/-! ## The loans that locals carry along a path -/

/-- A carried loan: the local whose storage it is of, and whether that storage has ended since. -/
structure CarriedLoan where
  owner : LocalId
  ended : Bool
  deriving DecidableEq, Repr

/-- The loans each local carries on a path. -/
abbrev Carried := LocalId → List CarriedLoan

/-- Whether values of a type can hold a borrow. -/
def TypeKind.holdsBorrow : TypeKind → Bool
  | .bool | .char | .string | .ownedString | .unit | .never | .integer | .float | .vector _ => false
  | .array element _ | .buffer element => element.holdsBorrow
  | .option payload => payload.holdsBorrow
  | .result ok failure => ok.holdsBorrow || failure.holdsBorrow
  | .capability .owned inner => inner.holdsBorrow
  | _ => true

namespace Carried

def empty : Carried := fun _ => []

def set (carried : Carried) (slot : LocalId) (loans : List CarriedLoan) : Carried :=
  fun other => if other = slot then loans else carried other

/-- A borrow of a local's place is a loan of the local, and of what the local borrows. -/
def through (carried : Carried) (source : LocalId) : List CarriedLoan :=
  ⟨source, false⟩ :: carried source

/-- The storage of a local has ended. -/
def endStorage (carried : Carried) (slot : LocalId) : Carried :=
  fun other => (carried other).map fun loan =>
    if loan.owner = slot then { loan with ended := true } else loan

/-- The loans a computed value keeps of those its operands carry. -/
def kept (carried : Carried) (accesses : List PlaceAccess) (keeps : CarriedLoan → Bool) :
    List CarriedLoan :=
  (accesses.flatMap fun access => carried access.place.root).filter keeps

/-- The loans that come with an assigned value: with a copied place all that its local carries, with
a computed value some of those its operands carry. -/
def handed (carried : Carried) (value : Option MirOperand) (accesses : List PlaceAccess)
    (keeps : CarriedLoan → Bool) : List CarriedLoan :=
  match value with
  | none => carried.kept accesses keeps
  | some operand =>
      if operand.ty.holdsBorrow then
        match operand.kind with
        | .place place => carried place.root
        | .other => carried.kept accesses keeps
      else []

end Carried

/-- The loans carried after an action. -/
def carriedAfter (action : Action) (keeps : CarriedLoan → Bool) (carried : Carried) : Carried :=
  match action with
  | .statement (.storageLive slot _) => carried.set slot []
  | .statement (.storageDead slot _) => (carried.endStorage slot).set slot []
  | .statement (.assign destination _ value accesses _) =>
      let handed := carried.handed value accesses keeps
      if destination.projection = [] then carried.set destination.root handed
      else carried.set destination.root (handed ++ carried destination.root)
  | .statement (.borrow destination source _ preserveValue _) =>
      if preserveValue then
        carried.set destination (carried.through source.root ++ carried destination)
      else carried.set destination (carried.through source.root)
  | _ => carried

/-- An action, and the loans a value it computes keeps. -/
structure CarryingStep where
  action : Action
  keeps : CarriedLoan → Bool

/-- The path semantics of carried loans. -/
abbrev carriedPaths : Flow.PathSemantics Action where
  State := Carried
  Label := CarryingStep
  action := CarryingStep.action
  step label carried carried' := carried' = carriedAfter label.action label.keeps carried

/-- No loan carried by a local that the action uses is of storage that has ended. -/
def UsesLive (action : Action) (carried : Carried) : Prop :=
  ∀ slot ∈ livenessEffects.uses action, ∀ loan ∈ carried slot, loan.ended = false

/-- The locals that a return hands out. -/
def Action.returned : Action → List LocalId
  | .terminator (.return _ accesses _) => accesses.map fun access => access.place.root
  | _ => []

/-- A return hands out no loan of a local that dies with the frame. -/
def ReturnsExternal (function : MirFunction) (action : Action) (carried : Carried) : Prop :=
  ∀ slot ∈ action.returned, ∀ loan ∈ carried slot, externallyBorrowed function loan.owner = true

/-- On every path loans are used only while the storage they are of lasts. -/
def LoansOutlived (function : MirFunction) : Prop :=
  ∀ {trace b i carried}, Flow.Run function.graph carriedPaths Carried.empty trace b i carried →
    ∀ action, function.graph.At b i action →
      UsesLive action carried ∧ ReturnsExternal function action carried

/-- No other local has borrowed through this one, or there is nothing behind it. -/
def Released (carried : Carried) (slot : LocalId) : Prop :=
  carried slot = [] ∨ ∀ other, other ≠ slot → ∀ loan ∈ carried other, loan.owner ≠ slot

/-- Where the analysis keeps track of the loans: no loan comes with an assigned value, and a local
is given another value or loan only when no other has borrowed through it. -/
def RecordsLoans (label : CarryingStep) (carried : Carried) : Prop :=
  match label.action with
  | .statement (.storageLive slot _) => Released carried slot
  | .statement (.assign destination _ value accesses _) =>
      carried.handed value accesses label.keeps = [] ∧
        (destination.projection = [] → Released carried destination.root)
  | .statement (.borrow destination source _ preserveValue _) =>
      carried destination = [] ∨
        (preserveValue = false ∧ source.root ≠ destination ∧ Released carried destination)
  | _ => True

/-- If some path gives a returned local a loan of an external borrow, this one gives it no other. -/
def ReturnsAgree (function : MirFunction) (b i : ℕ) (action : Action) (carried : Carried) : Prop :=
  ∀ slot ∈ action.returned, ∀ trace carried',
    Flow.Run function.graph carriedPaths Carried.empty trace b i carried' →
    (∃ loan ∈ carried' slot, externallyBorrowed function loan.owner = true) →
    ∀ loan ∈ carried slot, externallyBorrowed function loan.owner = true

/-! ## The analysis as a dataflow problem -/

/-- The transfer functions of the analysis; an action is quiet if it reports nothing. -/
def lifetimeAnalysis (function : MirFunction) : Flow.Analysis Action (OrderedSet Loan) where
  transfer action loans := (visitLifetimes function action (loans, .empty)).1
  le loans loans' := ∀ loan ∈ loans, loan ∈ loans'
  quiet action loans := (visitLifetimes function action (loans, .empty)).2.Clean

/-- The loans are those of the borrow analysis, whatever was reported. -/
theorem visitLifetimes_fst (function : MirFunction) (action : Action)
    (current : OrderedSet Loan × Diagnostics) :
    (visitLifetimes function action current).1 =
      (borrowAnalysis function).transfer action current.1 := by
  cases action with
  | terminator last => cases last <;> rfl
  | statement statement =>
      cases statement with
      | assign =>
          simp only [visitLifetimes, borrowAnalysis, visitBorrows]
          split <;> rfl
      | _ => rfl

/-- A returned local of which some loan is recorded, and the one by which it is judged. -/
def FirstExternal (function : MirFunction) (loans : OrderedSet Loan) (slot : LocalId) : Prop :=
  ∀ loan, loans.find? (fun loan => loan.holder == slot) = some loan →
    externallyBorrowed function loan.source.root = true

variable {function : MirFunction} {loans : OrderedSet Loan} {diagnostics : Diagnostics}

theorem clean_of_checkReturned {span : Span} {access : PlaceAccess}
    (h : (checkReturned function span loans diagnostics access).Clean) :
    diagnostics.Clean ∧ FirstExternal function loans access.place.root := by
  unfold checkReturned at h
  unfold FirstExternal
  split at h
  · rename_i hnone
    exact ⟨h, fun loan hloan => by rw [hnone] at hloan; cases hloan⟩
  · rename_i first hfirst
    split at h
    · rename_i hexternal
      refine ⟨h, fun loan hloan => ?_⟩
      obtain rfl : first = loan := Option.some.inj (hfirst.symm.trans hloan)
      exact hexternal
    · exact absurd h (Diagnostics.not_clean_report _ _ _ _ _)

theorem clean_of_foldl_checkReturned {span : Span} {accesses : List PlaceAccess}
    (h : (accesses.foldl (checkReturned function span loans) diagnostics).Clean) :
    diagnostics.Clean ∧ ∀ access ∈ accesses, FirstExternal function loans access.place.root := by
  induction accesses generalizing diagnostics with
  | nil => exact ⟨h, by simp⟩
  | cons access rest ih =>
      obtain ⟨hfirst, hrest⟩ := ih h
      obtain ⟨hclean, hexternal⟩ := clean_of_checkReturned hfirst
      exact ⟨hclean, List.forall_mem_cons.mpr ⟨hexternal, hrest⟩⟩

/-- What an action without an error satisfies: it ends no storage that some loan is of, and the
first loan of what it returns is external. -/
structure LifetimesPass (function : MirFunction) (action : Action) (loans : OrderedSet Loan) :
    Prop where
  ends : ∀ slot span, action = .statement (.storageDead slot span) →
    ∀ loan ∈ loans, loan.source.root ≠ slot
  returns : ∀ slot ∈ action.returned, FirstExternal function loans slot

theorem clean_of_visitLifetimes {action : Action} {current : OrderedSet Loan × Diagnostics}
    (h : (visitLifetimes function action current).2.Clean) :
    current.2.Clean ∧ LifetimesPass function action current.1 := by
  cases action with
  | terminator last =>
      cases last with
      | «return» value accesses span =>
          obtain ⟨hclean, hexternal⟩ := clean_of_foldl_checkReturned h
          refine ⟨hclean, nofun, fun slot hslot => ?_⟩
          obtain ⟨access, haccess, rfl⟩ := List.mem_map.mp hslot
          exact hexternal access haccess
      | _ => exact ⟨h, nofun, fun slot hslot => nomatch hslot⟩
  | statement statement =>
      cases statement with
      | storageDead slot =>
          simp only [visitLifetimes] at h
          split at h
          · exact absurd h (Diagnostics.not_clean_report _ _ _ _ _)
          · rename_i hnone
            refine ⟨h, fun other _ heq => ?_, fun slot hslot => nomatch hslot⟩
            cases heq
            intro loan hloan hroot
            exact hnone (List.any_eq_true.mpr ⟨loan, hloan, by simpa using hroot⟩)
      | assign =>
          simp only [visitLifetimes] at h
          split at h <;> exact ⟨h, nofun, fun slot hslot => nomatch hslot⟩
      | _ => exact ⟨h, nofun, fun slot hslot => nomatch hslot⟩

theorem lifetimeSolver_computes (function : MirFunction) :
    (lifetimeSolver function).Computes (lifetimeAnalysis function) Diagnostics.Clean where
  transfer action loans report := by
    calc (visitLifetimes function action (loans, report)).1
        = (borrowAnalysis function).transfer action loans := visitLifetimes_fst function action _
      _ = (visitLifetimes function action (loans, .empty)).1 :=
          (visitLifetimes_fst function action (loans, .empty)).symm
  report action loans report h := by
    have hclean : report.Clean := (clean_of_visitLifetimes h).1
    refine ⟨hclean, ?_⟩
    rw [hclean.eq_empty] at h
    exact h
  le_refl _ _ h := h
  le_trans h₁ h₂ loan h := h₂ loan (h₁ loan h)
  le_join_left _ _ _ h := mem_union.mpr (.inl h)
  le_join_right _ _ _ h := mem_union.mpr (.inr h)

theorem lifetimeAnalysis_transfer (function : MirFunction) :
    (lifetimeAnalysis function).transfer = (borrowAnalysis function).transfer :=
  funext fun action => funext fun loans => visitLifetimes_fst function action (loans, .empty)

/-- Each loan in a set is kept, dropped or added by itself, as in the borrow analysis. -/
theorem lifetimeSolver_distributive (function : MirFunction) :
    (lifetimeSolver function).Distributive (lifetimeAnalysis function)
      (fun (loan : Loan) (loans : OrderedSet Loan) => loan ∈ loans) where
  join h := mem_union.mp h
  transfer h := by
    rw [lifetimeAnalysis_transfer] at h ⊢
    exact (borrowSolver_distributive function).transfer h

/-! ## Soundness -/

/-- A recorded loan that the holder carries on the path. -/
def Link (active : OrderedSet Loan) (carried : Carried) (holder owner : LocalId) : Prop :=
  (∃ loan ∈ active, loan.holder = holder ∧ loan.source.root = owner) ∧
    ⟨owner, false⟩ ∈ carried holder

/-- Each carried loan is of storage that has not ended, and is reached through recorded loans. -/
def Recorded (active : OrderedSet Loan) (carried : Carried) : Prop :=
  ∀ slot, ∀ loan ∈ carried slot,
    loan.ended = false ∧ Relation.TransGen (Link active carried) slot loan.owner

section

variable {active active' : OrderedSet Loan} {carried carried' : Carried} {slot : LocalId}

theorem Link.mono (hactive : ∀ loan ∈ active, loan ∈ active')
    (hcarried : ∀ slot, carried slot ⊆ carried' slot) {holder owner : LocalId}
    (h : Link active carried holder owner) : Link active' carried' holder owner := by
  obtain ⟨⟨loan, hloan, hends⟩, hmem⟩ := h
  exact ⟨⟨loan, hactive loan hloan, hends⟩, hcarried holder hmem⟩

theorem recorded_empty : Recorded ∅ Carried.empty :=
  fun _ _ h => nomatch h

theorem Recorded.mono (h : Recorded active carried) (hactive : ∀ loan ∈ active, loan ∈ active') :
    Recorded active' carried := by
  intro slot loan hloan
  obtain ⟨hended, hchain⟩ := h slot loan hloan
  refine ⟨hended, Relation.TransGen.mono (fun _ _ hlink => ?_) _ _ hchain⟩
  exact hlink.mono hactive fun _ => List.Subset.refl _

/-- A chain from elsewhere does not lead through a local that is released. -/
theorem chain_release (released : Released carried slot) {holder owner : LocalId}
    (h : Relation.TransGen (Link active carried) holder owner) (hne : holder ≠ slot) :
    Relation.TransGen
      (Link (active.retain fun loan => loan.holder ≠ slot) (carried.set slot [])) holder owner := by
  have keep {a c : LocalId} (ha : a ≠ slot) (hlink : Link active carried a c) :
      Link (active.retain fun loan => loan.holder ≠ slot) (carried.set slot []) a c := by
    obtain ⟨⟨loan, hloan, rfl, hroot⟩, hmem⟩ := hlink
    refine ⟨⟨loan, mem_retain.mpr ⟨hloan, decide_eq_true ha⟩, rfl, hroot⟩, ?_⟩
    rw [Carried.set, if_neg ha]
    exact hmem
  induction h using Relation.TransGen.head_induction_on with
  | single hlink => exact .single (keep hne hlink)
  | head hlink hrest ih =>
      refine .head (keep hne hlink) (ih fun heq => ?_)
      subst heq
      rcases released with hnone | hothers
      · obtain ⟨_, hfirst, _⟩ := Relation.TransGen.head'_iff.mp hrest
        have hmem := hfirst.2
        rw [hnone] at hmem
        cases hmem
      · exact hothers _ hne _ hlink.2 rfl

/-- A released local loses its loans, on both sides. -/
theorem Recorded.release (h : Recorded active carried) (released : Released carried slot) :
    Recorded (active.retain fun loan => loan.holder ≠ slot) (carried.set slot []) := by
  intro other loan hloan
  by_cases hslot : other = slot
  · rw [Carried.set, if_pos hslot] at hloan
    cases hloan
  · rw [Carried.set, if_neg hslot] at hloan
    obtain ⟨hended, hchain⟩ := h other loan hloan
    exact ⟨hended, chain_release released hchain hslot⟩

/-- A released local takes a loan, and with it what its source borrows. -/
theorem Recorded.borrow (h : Recorded active carried) {source : Place} {kind : BorrowKind}
    (released : Released carried slot) (hsource : source.root = slot → carried slot = []) :
    Recorded ((active.retain fun loan => loan.holder ≠ slot).insert ⟨slot, source, kind⟩)
      (carried.set slot (carried.through source.root)) := by
  have hmono : ∀ {a c : LocalId}, Relation.TransGen
      (Link (active.retain fun loan => loan.holder ≠ slot) (carried.set slot [])) a c →
      Relation.TransGen
        (Link ((active.retain fun loan => loan.holder ≠ slot).insert ⟨slot, source, kind⟩)
          (carried.set slot (carried.through source.root))) a c := by
    refine fun hchain => Relation.TransGen.mono (fun a c hlink => ?_) _ _ hchain
    refine hlink.mono (fun loan hloan => mem_insert.mpr (.inr hloan)) fun other => ?_
    unfold Carried.set
    split
    · exact List.nil_subset _
    · exact List.Subset.refl _
  have hlink : Link ((active.retain fun loan => loan.holder ≠ slot).insert ⟨slot, source, kind⟩)
      (carried.set slot (carried.through source.root)) slot source.root := by
    refine ⟨⟨⟨slot, source, kind⟩, mem_insert.mpr (.inl rfl), rfl, rfl⟩, ?_⟩
    rw [Carried.set, if_pos rfl]
    exact List.mem_cons_self ..
  intro other loan hloan
  by_cases hslot : other = slot
  · subst hslot
    rw [Carried.set, if_pos rfl] at hloan
    rcases List.mem_cons.mp hloan with rfl | hbehind
    · exact ⟨rfl, .single hlink⟩
    · obtain ⟨hended, hchain⟩ := h _ _ hbehind
      -- what is behind the source is reached from the source, which keeps its loans
      have hne : source.root ≠ other := by
        intro heq
        rw [heq, hsource heq] at hbehind
        cases hbehind
      exact ⟨hended, .head hlink (hmono (chain_release released hchain hne))⟩
  · rw [Carried.set, if_neg hslot] at hloan
    obtain ⟨hended, hchain⟩ := h other loan hloan
    exact ⟨hended, hmono (chain_release released hchain hslot)⟩

/-- Storage that no recorded loan is of is storage that no local carries a loan of. -/
theorem Recorded.owner_ne (h : Recorded active carried)
    (hends : ∀ loan ∈ active, loan.source.root ≠ slot) (holder : LocalId) :
    ∀ loan ∈ carried holder, loan.owner ≠ slot := by
  intro loan hloan heq
  obtain ⟨_, _, ⟨recorded, hrecorded, _, hroot⟩, _⟩ :=
    Relation.TransGen.tail'_iff.mp (h holder loan hloan).2
  exact hends recorded hrecorded (hroot.trans heq)

theorem Carried.endStorage_eq (h : ∀ holder, ∀ loan ∈ carried holder, loan.owner ≠ slot) :
    carried.endStorage slot = carried := by
  funext holder
  calc carried.endStorage slot holder
      = (carried holder).map id :=
        List.map_congr_left fun loan hloan => if_neg (h holder loan hloan)
    _ = carried holder := List.map_id _

variable {function : MirFunction}

/-- What one step that keeps track of the loans does. -/
theorem recorded_step {label : CarryingStep} (h : Recorded active carried)
    (hrecords : RecordsLoans label carried)
    (hquiet : (lifetimeAnalysis function).quiet label.action active) :
    Recorded ((lifetimeAnalysis function).transfer label.action active)
      (carriedAfter label.action label.keeps carried) := by
  obtain ⟨action, keeps⟩ := label
  have pass := (clean_of_visitLifetimes hquiet).2
  -- only assignments, borrows and ends of storage change what is carried
  cases action with
  | terminator last => cases last <;> exact h
  | statement statement =>
      cases statement with
      | storageLive => exact h.release hrecords
      | storageDead slot span =>
          have howner := h.owner_ne (pass.ends slot span rfl)
          simp only [lifetimeAnalysis, visitLifetimes, carriedAfter, Carried.endStorage_eq howner]
          exact h.release (.inr fun other _ => howner other)
      | assign destination =>
          obtain ⟨hnone, hreleased⟩ := hrecords
          simp only [lifetimeAnalysis, visitLifetimes, carriedAfter, hnone, List.nil_append]
          split
          · exact h.release (hreleased ‹_›)
          · have hsame : carried.set destination.root (carried destination.root) = carried := by
              funext other
              unfold Carried.set
              split
              · rename_i heq
                rw [heq]
              · rfl
            rw [hsame]
            exact h
      | borrow =>
          simp only [lifetimeAnalysis, visitLifetimes, carriedAfter]
          rcases hrecords with hnone | ⟨rfl, hsource, hreleased⟩
          · rw [hnone, List.append_nil, ite_self]
            exact h.borrow (.inl hnone) fun _ => hnone
          · exact h.borrow hreleased fun heq => absurd heq hsource
      | regionEnter | regionExit | drop | evaluate => exact h

/-! ## What is recorded is carried on some path -/

/-- The recorded loans of one path are carried on it. -/
def Carries (held : OrderedSet Loan) (carried : Carried) : Prop :=
  ∀ loan ∈ held, ∃ other ∈ carried loan.holder, other.owner = loan.source.root

theorem carries_empty : Carries ∅ Carried.empty :=
  fun loan h => absurd h (not_mem_empty loan)

variable {held : OrderedSet Loan}

theorem Carries.release (h : Carries held carried) (slot : LocalId) (loans : List CarriedLoan) :
    Carries (held.retain fun loan => loan.holder ≠ slot) (carried.set slot loans) := by
  intro loan hmem
  obtain ⟨hloan, hslot⟩ := mem_retain.mp hmem
  rw [Carried.set, if_neg (of_decide_eq_true hslot)]
  exact h loan hloan

theorem Carries.endStorage (h : Carries held carried) (slot : LocalId) :
    Carries held (carried.endStorage slot) := by
  intro loan hloan
  obtain ⟨other, hother, howner⟩ := h loan hloan
  refine ⟨_, List.mem_map_of_mem hother, ?_⟩
  split <;> exact howner

theorem carries_step {action : Action} (h : Carries held carried) (keeps : CarriedLoan → Bool) :
    Carries ((lifetimeAnalysis function).transfer action held)
      (carriedAfter action keeps carried) := by
  cases action with
  | terminator last => cases last <;> exact h
  | statement statement =>
      cases statement with
      | storageLive slot => exact h.release slot []
      | storageDead slot => exact (h.endStorage slot).release slot []
      | assign destination =>
          simp only [lifetimeAnalysis, visitLifetimes, carriedAfter]
          split
          · exact h.release destination.root _
          · intro loan hloan
            obtain ⟨other, hother, howner⟩ := h loan hloan
            refine ⟨other, ?_, howner⟩
            unfold Carried.set
            split
            · rename_i heq
              exact List.mem_append_right _ (heq ▸ hother)
            · exact hother
      | borrow destination source kind preserveValue =>
          intro loan hmem
          rcases mem_insert.mp hmem with rfl | hold
          · refine ⟨⟨source.root, false⟩, ?_, rfl⟩
            cases preserveValue <;> simp [carriedAfter, Carried.set, Carried.through]
          · cases preserveValue <;> exact h.release destination _ loan hold
      | regionEnter | regionExit | drop | evaluate => exact h

end

/-- What a return without an error hands out, where the paths that reach it agree. -/
theorem returnsExternal_of_pass {b i : ℕ} {action : Action} {active : OrderedSet Loan}
    {carried : Carried} (h : Recorded active carried)
    (pass : LifetimesPass function action active)
    (hexplained : ∀ loan ∈ active, ∃ trace held,
      Flow.Run function.graph (lifetimeAnalysis function).path ∅ trace b i held ∧ loan ∈ held)
    (hagree : ReturnsAgree function b i action carried) :
    ReturnsExternal function action carried := by
  intro slot hslot loan hloan
  obtain ⟨_, ⟨⟨recorded, hrecorded, hholder, _⟩, _⟩, _⟩ :=
    Relation.TransGen.head'_iff.mp (h slot loan hloan).2
  cases hfind : active.find? fun loan => loan.holder == slot with
  | none =>
      have habsent := find?_none hfind recorded hrecorded
      simp [hholder] at habsent
  | some first =>
      obtain ⟨hfirst, hslot'⟩ := find?_some hfind
      obtain rfl : first.holder = slot := by simpa using hslot'
      have hexternal := pass.returns _ hslot first hfind
      -- the loan by which the local was judged is carried on some path to this return
      obtain ⟨trace, held, run, hheld⟩ := hexplained first hfirst
      obtain ⟨trace', carried', run', hcarries⟩ :=
        Flow.Run.simulate (Q := carriedPaths) (R := Carries) carries_empty
          (fun {_ _ action _ _ _} _ hrel hstep =>
            ⟨⟨action, fun _ => true⟩, _, rfl, rfl, hstep.symm ▸ carries_step hrel _⟩) run
      obtain ⟨other, hother, howner⟩ := hcarries first hheld
      exact hagree _ hslot trace' carried' run' ⟨other, hother, howner ▸ hexternal⟩ loan hloan

/-- `fn f(rows) { let kept: read Buffer; let row = rows[0]; let view: read Buffer = row;
kept = view; print(kept) }`, where `view` and `row` end before the last use of `kept`. -/
def keepBorrowed : MirFunction where
  locals := [⟨"kept", .capability .read (.buffer .integer), true, false, false, none,
    none, .point 0⟩,
    ⟨"row", .buffer .integer, false, false, false, none, none, .point 1⟩,
    ⟨"view", .capability .read (.buffer .integer), false, false, false, none, none, .point 2⟩]
  blocks := [
    { statements := [
        .storageLive 0 (.point 0),
        .storageLive 1 (.point 1),
        .assign (.ofLocal 1) [] (some ⟨.buffer .integer, .other, .point 1⟩) [] (.point 1),
        .storageLive 2 (.point 2),
        .borrow 2 (.ofLocal 1) .read false (.point 2),
        .assign (.ofLocal 0) []
          (some ⟨.capability .read (.buffer .integer), .place (.ofLocal 2), .point 3⟩)
          [⟨.ofLocal 2, .read, .point 3⟩] (.point 3),
        .storageDead 2 (.point 3),
        .storageDead 1 (.point 4),
        .evaluate none [⟨.ofLocal 0, .read, .point 5⟩] (.point 5)]
      terminator := .return none [] (.point 6) }]

/-- `fn g(lent: read Buffer, own: Buffer) -> read Buffer`, which returns a borrow of `lent` from one
branch, and of `own` from the other. -/
def returnEither : MirFunction where
  locals := [⟨"lent", .capability .read (.buffer .integer), false, true, false, none,
    none, .point 0⟩,
    ⟨"own", .buffer .integer, false, true, false, none, none, .point 1⟩,
    ⟨"view", .capability .read (.buffer .integer), true, false, false, none, none, .point 2⟩]
  blocks := [
    { statements := [.storageLive 2 (.point 2)]
      terminator := .switch none [] [1] 2 (.point 3) },
    { statements := [.borrow 2 (.ofLocal 0) .read false (.point 4)]
      terminator := .goto 3 (.point 4) },
    { statements := [.borrow 2 (.ofLocal 1) .read false (.point 5)]
      terminator := .goto 3 (.point 5) },
    { statements := []
      terminator := .return
        (some ⟨.capability .read (.buffer .integer), .place (.ofLocal 2), .point 6⟩)
        [⟨.ofLocal 2, .read, .point 6⟩] (.point 6) }]

/-- `fn h(own: Buffer) -> read Buffer { let view: read Buffer = own; return identity(view) }`, with
its return materialized. -/
def returnIdentity : MirFunction where
  locals := [⟨"own", .buffer .integer, false, true, false, none, none, .point 0⟩,
    ⟨"view", .capability .read (.buffer .integer), false, false, false, none, none, .point 1⟩,
    ⟨"$return2", .capability .read (.buffer .integer), false, false, true, none, none, .point 2⟩]
  blocks := [
    { statements := [
        .storageLive 1 (.point 1),
        .borrow 1 (.ofLocal 0) .read false (.point 1),
        .storageLive 2 (.point 2),
        .assign (.ofLocal 2) [] (some ⟨.capability .read (.buffer .integer), .other, .point 2⟩)
          [⟨.ofLocal 1, .read, .point 2⟩] (.point 2)]
      terminator := .return
        (some ⟨.capability .read (.buffer .integer), .place (.ofLocal 2), .point 2⟩)
        [⟨.ofLocal 2, .read, .point 2⟩] (.point 2) }]

/-- A path on which computed values keep all the loans of their operands. -/
def carriedStrategy : Flow.Strategy carriedPaths where
  label action := ⟨action, fun _ => true⟩
  next action := carriedAfter action fun _ => true
  action_label _ := rfl
  step _ _ := rfl

/-- The analysis accepts a use of a copied borrow after its owner's storage has ended, and a return
of a borrow of the frame's own storage that stands behind an external one, or that a call has handed
on. -/
theorem not_loansOutlived_of_accepted :
    (analyzeFunctionLifetimes 1 keepBorrowed = some [] ∧ ¬ LoansOutlived keepBorrowed) ∧
      (analyzeFunctionLifetimes 5 returnEither = some [] ∧ ¬ LoansOutlived returnEither) ∧
        analyzeFunctionLifetimes 1 returnIdentity = some [] ∧ ¬ LoansOutlived returnIdentity := by
  refine ⟨⟨by decide +kernel, fun hsafe => ?_⟩, ⟨by decide +kernel, fun hsafe => ?_⟩,
    by decide +kernel, fun hsafe => ?_⟩
  · have run := carriedStrategy.follow (G := keepBorrowed.graph) (b := 0) (s := Carried.empty) rfl
      .start (List.take_prefix 8 _)
    have huse : (0 : LocalId) ∈ livenessEffects.uses
        (.statement (.evaluate none [⟨.ofLocal 0, .read, .point 5⟩] (.point 5))) := by
      simp [livenessEffects, statementUses, accessRoots, Place.ofLocal]
    have hlive := (hsafe run _ ⟨_, rfl, rfl⟩).1 0 huse ⟨1, true⟩ (by decide)
    cases hlive
  · have entry := carriedStrategy.cross (G := returnEither.graph) (b := 0) (t := 2)
      (s := Carried.empty) .start rfl (by decide)
    have run := carriedStrategy.cross entry rfl (show 3 ∈ _ by decide)
    have hreturned := (hsafe run _ ⟨_, rfl, rfl⟩).2 2 (by decide) ⟨1, false⟩ (by decide)
    exact absurd hreturned (by decide)
  · have run := carriedStrategy.follow (G := returnIdentity.graph) (b := 0) (s := Carried.empty)
      rfl .start (List.take_prefix 4 _)
    have hreturned := (hsafe run _ ⟨_, rfl, rfl⟩).2 2 (by decide) ⟨0, false⟩ (by decide)
    exact absurd hreturned (by decide)

/-- **Accepted functions use loans only while the storage they are of lasts, on runs that record
the loans**, and return external ones where the paths agree on what the returned locals carry. -/
theorem usesLive_of_accepted {fuel : ℕ} {function : MirFunction}
    (haccept : analyzeFunctionLifetimes fuel function = some [])
    {trace : List (Flow.Event carriedPaths)} {b i : ℕ} {carried : Carried}
    (run : Flow.Run function.graph carriedPaths Carried.empty trace b i carried)
    (hrecords : ∀ event ∈ trace, RecordsLoans event.label event.before)
    {action : Action} (hat : function.graph.At b i action) :
    UsesLive action carried ∧
      (ReturnsAgree function b i action carried → ReturnsExternal function action carried) := by
  have hblocks := MirFunction.blocks_ne_nil_of_at hat
  rw [analyzeFunctionLifetimes, if_neg hblocks] at haccept
  obtain ⟨work, hsolve, hclean⟩ := Option.map_eq_some_iff.mp haccept
  have hentry := MirFunction.graph_blocks_pos hblocks
  have solution := Flow.Solver.isSolution_of_solve (lifetimeSolver_computes function) hentry hsolve
    hclean
  obtain ⟨block, active, hblock, hinput, recorded, hquiet⟩ :=
    solution.covers_next Recorded (fun event => RecordsLoans event.label event.before)
      (fun recorded hle => recorded.mono hle) recorded_empty
      (fun event active _ recorded hstep hcondition hquiet =>
        hstep ▸ recorded_step recorded hcondition hquiet)
      run hrecords hat
  constructor
  · intro slot _ loan hloan
    exact (recorded slot loan hloan).1
  · intro hagree
    have hindex : i ≤ block.body.length := run.index_le hblock
    have explained := (Flow.Solver.explained_of_solve (lifetimeSolver_computes function)
      (lifetimeSolver_distributive function) hsolve hinput).through
        (lifetimeSolver_distributive function) hblock i hindex
    exact returnsExternal_of_pass recorded (clean_of_visitLifetimes hquiet).2 explained.2 hagree

/-- `fn h(lent: read Buffer) -> read Buffer { return lent }`, with its return materialized. -/
def returnLent : MirFunction where
  locals := [⟨"lent", .capability .read (.buffer .integer), false, true, false, none,
    none, .point 0⟩,
    ⟨"$return1", .capability .read (.buffer .integer), false, false, true, none, none, .point 1⟩]
  blocks := [
    { statements := [
        .storageLive 1 (.point 1),
        .borrow 1 (.ofLocal 0) .read false (.point 1)]
      terminator := .return
        (some ⟨.capability .read (.buffer .integer), .place (.ofLocal 1), .point 1⟩)
        [⟨.ofLocal 1, .read, .point 1⟩] (.point 1) }]

/-- What `returnLent` hands out is the borrow it was lent. -/
theorem usesLive_returnLent :
    ∃ (action : Action) (carried : Carried), returnLent.graph.At 0 2 action ∧
      carried 1 = [⟨0, false⟩] ∧ UsesLive action carried ∧
      ReturnsExternal returnLent action carried := by
  have run := carriedStrategy.follow (G := returnLent.graph) (b := 0) (s := Carried.empty) rfl
    .start (List.take_prefix 2 _)
  have haccepted := usesLive_of_accepted
    (show analyzeFunctionLifetimes 1 returnLent = some [] by decide +kernel) run
    (List.forall_mem_cons.mpr ⟨.inl rfl, List.forall_mem_singleton.mpr (.inl rfl)⟩)
    ⟨_, rfl, rfl⟩
  refine ⟨_, _, ⟨_, rfl, rfl⟩, rfl, haccepted.1, haccepted.2 ?_⟩
  intro slot hslot _ _ _ _ loan hloan
  obtain rfl : slot = 1 := by simpa [Action.returned, Place.ofLocal] using hslot
  obtain rfl : loan = ⟨0, false⟩ := List.mem_singleton.mp hloan
  rfl

end Jadren.Mir

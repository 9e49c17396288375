import Mathlib.Data.List.Nodup
import Jadren.Mir.DropSafety

/-!
# Which values are dropped

The elaboration has no drop flags: it decides from what holds on all paths.  A
local that only some paths initialize, or move out, is not dropped where they
meet; an assignment replaces a value without dropping it; and a local of a loop
body is begun again by the next iteration.

What it promises is about the end of a local, a `StorageDead` or a `Return`: a
local that is whole there on every path is dropped right before, and only once
since it was last stored into (`droppedOnce_of_everyPath`).

The direction of the argument is the opposite of the safety proof.  A fact that
keeps the elaboration from dropping a local comes from some path of the analysis
(`explained_of_solve`), and every path of the analysis is a path of the function
with that local uninitialized or moved out (`Overstates`).
-/

namespace Jadren.Mir

open OrderedSet MirFunction Jadren.Flow BasicBlock

/-! ## Facts come from paths -/

/-- What keeps a local from being dropped. -/
inductive DropObstacle
  | uninitialized (slot : LocalId)
  | moved (place : Place)

def DropObstacle.Holds (obstacle : DropObstacle) (facts : DropState) : Prop :=
  match obstacle with
  | .uninitialized slot => slot ∉ facts.initialized
  | .moved place => place ∈ facts.moved

variable {facts : DropState} {slot : LocalId}

theorem available_of_no_obstacle (hinitialized : ¬ (DropObstacle.uninitialized slot).Holds facts)
    (hmoved : ∀ place, place.root = slot → ¬ (DropObstacle.moved place).Holds facts) :
    facts.available slot = true := by
  have hslot : slot ∈ facts.initialized := not_not.mp hinitialized
  have hnone : facts.moved.any (fun moved => moved.overlaps (.ofLocal slot)) = false := by
    refine any_eq_false.mpr fun place hmem => ?_
    rw [Place.overlaps_ofLocal, beq_eq_false_iff_ne]
    exact fun hroot => hmoved place hroot hmem
  rw [DropState.available, hnone, decide_eq_true hslot]
  rfl

/-- An action moves a place out, restores it, or leaves it as it was. -/
theorem moved_transfer_cases (action : Action) (place : Place) :
    (∀ facts, place ∈ (dropAnalysis.transfer action facts).moved) ∨
      (∀ facts, place ∉ (dropAnalysis.transfer action facts).moved) ∨
      ∀ facts, place ∈ (dropAnalysis.transfer action facts).moved ↔ place ∈ facts.moved := by
  have hretain : ∀ keep : Place → Bool, (∀ facts : DropState, place ∉ facts.moved.retain keep) ∨
      ∀ facts : DropState, place ∈ facts.moved.retain keep ↔ place ∈ facts.moved := by
    intro keep
    cases hkeep : keep place
    · exact Or.inl fun facts hmem => by simp [hkeep] at hmem
    · exact Or.inr fun facts => by simp [hkeep]
  have haccesses : ∀ accesses, (∀ facts, place ∈ (applyDropAccesses accesses facts).moved) ∨
      ∀ facts, place ∈ (applyDropAccesses accesses facts).moved ↔ place ∈ facts.moved := by
    intro accesses
    by_cases hmoved : ∃ access ∈ accesses, access.kind.consumes = true ∧ access.place = place
    · exact Or.inl fun facts => mem_applyDropAccesses.mpr (Or.inr hmoved)
    · exact Or.inr fun facts => by simp [mem_applyDropAccesses, hmoved]
  -- what is consumed is moved out, what overlaps a destination is restored
  cases action with
  | terminator last => exact (haccesses (terminatorAccesses last)).imp id Or.inr
  | statement statement =>
      cases statement with
      | storageLive ended | storageDead ended | regionEnter ended | regionExit ended =>
          exact Or.inr (hretain _)
      | assign destination indices value accesses =>
          simp only [dropAnalysis, transferDropStatement, mem_retain]
          cases hkeep : !place.overlaps destination
          · exact Or.inr (Or.inl fun facts hmem => by simp at hmem)
          · rcases haccesses accesses with hall | hsame
            · exact Or.inl fun facts => ⟨hall facts, rfl⟩
            · exact Or.inr (Or.inr fun facts => by simp [hsame facts])
      | borrow destination source kind preserveValue span =>
          have hfacts : ∀ facts, applyDropAccesses [⟨source, .borrowRead, span⟩] facts = facts :=
            fun facts => by simp [applyDropAccesses, AccessKind.consumes, extend]
          simp only [dropAnalysis, transferDropStatement, hfacts]
          exact Or.inr (hretain _)
      | drop dropped =>
          by_cases hdropped : place = dropped
          · exact Or.inl fun facts => mem_insert.mpr (Or.inl hdropped)
          · exact Or.inr (Or.inr fun facts =>
              by simp [dropAnalysis, transferDropStatement, hdropped])
      | evaluate value accesses => exact (haccesses accesses).imp id Or.inr

/-- Obstacles are treated one by one. -/
theorem dropSolver_distributive :
    dropSolver.Distributive dropAnalysis DropObstacle.Holds where
  join {facts facts' obstacle} h := by
    cases obstacle with
    | uninitialized =>
        by_contra hnot
        rw [not_or] at hnot
        exact h (mem_inter.mpr ⟨not_not.mp hnot.1, not_not.mp hnot.2⟩)
    | moved => exact mem_union.mp h
  transfer {action facts obstacle} h := by
    cases obstacle with
    | uninitialized slot =>
        have hnext : ¬ InitializedNext action slot (slot ∈ facts.initialized) :=
          mt mem_transfer_initialized.mpr h
        rw [initializedNext_iff, not_or, not_and_or] at hnext
        rcases hnext.2 with hbefore | hended
        · refine Or.inr ⟨.uninitialized slot, hbefore, fun facts' h' hmem => ?_⟩
          rcases initializedNext_iff.mp (mem_transfer_initialized.mp hmem) with hstored | ⟨hold, -⟩
          · exact hnext.1 hstored
          · exact h' hold
        · exact Or.inl fun facts' hmem =>
            hended ((mem_transfer_initialized.mp hmem).mono fun _ => trivial)
    | moved place =>
        rcases moved_transfer_cases action place with hall | hnone | hsame
        · exact Or.inl hall
        · exact absurd h (hnone facts)
        · exact Or.inr ⟨.moved place, (hsame facts).mp h, fun facts' h' => (hsame facts').mpr h'⟩

/-- On a path of the analysis no more is initialized, and no more restored, than the
facts say. -/
structure Overstates (facts : DropState) (state : OwnState) : Prop where
  initialized : ∀ slot ∈ state.initialized, slot ∈ facts.initialized
  moved : ∀ place ∈ facts.moved, ∃ other ∈ state.moved, other.place = place

variable {state : OwnState}

theorem exists_takeOut (action : Action) (overstates : Overstates facts state) :
    ∀ place ∈ (applyDropAccesses action.operandAccesses facts).moved,
      ∃ other ∈ takeOut AccessKind.consumes action.atZero.accesses state.moved,
        other.place = place := by
  intro place hmem
  rcases mem_applyDropAccesses.mp hmem with hold | ⟨access, haccess, hkind, rfl⟩
  · obtain ⟨other, hother, hplace⟩ := overstates.moved place hold
    exact ⟨other, mem_takeOut.mpr (Or.inl hother), hplace⟩
  · refine ⟨access.place.atZero, mem_takeOut.mpr (Or.inr ⟨(access, access.place.atZero), ?_, hkind,
      rfl⟩), Place.place_atZero _⟩
    rw [Action.atZero_accesses]
    exact List.mem_map_of_mem haccess

/-- The path that executes each action with its indices zero keeps up with the facts. -/
theorem overstates_step {action : Action} (overstates : Overstates facts state)
    (hdrop : ∀ place span, action ≠ .statement (.drop place span)) :
    Overstates (dropAnalysis.transfer action facts) (ownAfter action.atZero state) where
  initialized slot hmem := mem_transfer_initialized.mpr
    ((mem_initializedAfter.mp hmem).mono (overstates.initialized slot))
  moved := by
    have hoperands := exists_takeOut action overstates
    have hended : ∀ ended, ∀ place ∈ facts.moved.retain fun place => place.root ≠ ended,
        ∃ other ∈ state.moved.filter fun place => place.root ≠ ended, other.place = place := by
      intro ended place hmem
      obtain ⟨hmem, hroot⟩ := mem_retain.mp hmem
      obtain ⟨other, hother, rfl⟩ := overstates.moved place hmem
      exact ⟨other, List.mem_filter.mpr ⟨hother, hroot⟩, rfl⟩
    cases action with
    | terminator => exact hoperands
    | statement statement =>
        cases statement with
        | storageLive ended | storageDead ended | regionEnter ended | regionExit ended =>
            exact hended ended
        | assign destination indices value accesses span =>
            intro place hmem
            obtain ⟨hmem, hapart⟩ := mem_retain.mp hmem
            obtain ⟨other, hother, rfl⟩ := hoperands place hmem
            refine ⟨other, List.mem_filter.mpr ⟨hother, decide_eq_true fun hcovers => ?_⟩, rfl⟩
            -- a covered place overlaps the destination
            have hoverlaps := ConcretePlace.overlaps_place
                (ConcretePlace.overlaps_of_covers hcovers)
            have hwritten : (Action.atZero (.statement (.assign destination indices value accesses
                span))).written.place = destination := Place.place_atZero destination
            rw [Place.overlaps_comm, hwritten] at hoverlaps
            rw [hoverlaps] at hapart
            cases hapart
        | borrow destination source kind preserveValue =>
            intro place hmem
            have hmem' : place ∈ facts.moved.retain fun place => place.root ≠ destination := by
              simpa only [dropAnalysis, transferDropStatement, applyDropAccesses_borrow] using hmem
            obtain ⟨other, hother, hplace⟩ := hended destination place hmem'
            refine ⟨other, ?_, hplace⟩
            change other ∈ if preserveValue then takeOut _ _ state.moved
              else (takeOut _ _ state.moved).filter _
            rw [takeOut_borrow (Action.atZero_resolves _) rfl]
            split
            · exact (List.mem_filter.mp hother).1
            · exact hother
        | drop place span => exact absurd rfl (hdrop place span)
        | evaluate => exact hoperands

theorem overstates_entry (function : MirFunction) :
    Overstates (entryDropState function) (entryOwnState function) where
  initialized _ h := mem_ofList.mpr h
  moved place h := absurd h (not_mem_empty place)

variable {function : MirFunction} {fuel b i : ℕ}

/-- **A local that is whole on every path is available for the facts.** -/
theorem available_of_everyPath (hfree : function.DropFree) {work : Work DropState Unit}
    (hsolve : dropSolver.solve function.graph fuel
      (Flow.Solver.initial function.graph (entryDropState function) ()) = some work)
    {block : Block Action} (hblock : function.graph.blocks[b]? = some block)
    (hinput : work.input b = some facts) (hi : i ≤ block.body.length)
    (hwhole : ∀ trace state,
      Run function.graph ownPaths (entryOwnState function) trace b i state → state.Whole slot) :
    (dropAnalysis.through (block.body.take i) facts).available slot = true := by
  have explained := (Flow.Solver.explained_of_solve dropSolver_computes dropSolver_distributive
    hsolve hinput).through dropSolver_distributive hblock i hi
  -- an obstacle holds on a path of the analysis, which the function has too
  have hpath : ∀ obstacle : DropObstacle,
      obstacle.Holds (dropAnalysis.through (block.body.take i) facts) →
      ∃ reached state, obstacle.Holds reached ∧ Overstates reached state ∧ state.Whole slot := by
    intro obstacle hholds
    obtain ⟨trace, reached, run, hreached⟩ := explained.2 obstacle hholds
    obtain ⟨trace', state, run', overstates⟩ :=
      Flow.Run.simulate (P := dropAnalysis.path) (Q := ownPaths) (R := Overstates)
        (overstates_entry function)
        (fun {b i action facts facts' state} hat overstates hstep => by
          refine ⟨_, _, rfl, ⟨Action.atZero_resolves action, rfl⟩, ?_⟩
          rw [show facts' = _ from hstep]
          refine overstates_step overstates fun place span haction => ?_
          obtain ⟨block, hblock, hmem⟩ := mem_statements_of_at
            (show function.graph.At b i (.statement (.drop place span)) from haction ▸ hat)
          exact Bool.false_ne_true ((hfree block hblock _ hmem).symm.trans rfl))
        run
    exact ⟨reached, state, hreached, overstates, hwhole trace' state run'⟩
  refine available_of_no_obstacle (fun hholds => ?_) fun place hroot hholds => ?_
  · obtain ⟨reached, state, hnot, overstates, hwhole⟩ := hpath _ hholds
    exact hnot (overstates.initialized slot hwhole.1)
  · obtain ⟨reached, state, hmem, overstates, hwhole⟩ := hpath _ hholds
    obtain ⟨other, hother, rfl⟩ := overstates.moved place hmem
    exact hwhole.2 other hother hroot

/-! ## Where the drops are -/

/-- The number of original statements among the first `i` of an elaborated list. -/
def originalCount (statements : List MirStatement) (i : ℕ) : ℕ :=
  ((statements.take i).filter fun statement => !statement.isDrop).length

theorem elaborateStatement_cases (function : MirFunction) (statement : MirStatement)
    (facts : DropState) :
    (elaborateStatement function statement facts = [statement] ∧
      ∀ slot span, statement = .storageDead slot span →
        (function.drops slot && facts.available slot) = false) ∨
      ∃ slot span, statement = .storageDead slot span ∧
        elaborateStatement function statement facts = [.drop (.ofLocal slot) span, statement] := by
  unfold elaborateStatement
  split
  · rename_i ended span
    split
    · exact Or.inr ⟨ended, span, rfl, rfl⟩
    · rename_i hskip
      refine Or.inl ⟨rfl, ?_⟩
      rintro _ _ ⟨⟩
      exact Bool.eq_false_iff.mpr hskip
  · rename_i hother
    exact Or.inl ⟨rfl, fun slot span heq => absurd heq (hother slot span)⟩

variable {statements : List MirStatement}

/-- The elaboration only adds drops. -/
theorem filter_elaborateStatements (hfree : ∀ statement ∈ statements, statement.isDrop = false) :
    (elaborateStatements function statements facts).1.filter (fun statement => !statement.isDrop) =
      statements := by
  induction statements generalizing facts with
  | nil => rfl
  | cons statement rest ih =>
      have hstatement := hfree statement (List.mem_cons_self ..)
      have hrest : ∀ facts, (elaborateStatements function rest facts).1.filter
          (fun statement => !statement.isDrop) = rest := fun facts =>
        ih fun other hother => hfree other (List.mem_cons_of_mem _ hother)
      rw [elaborateStatements, List.filter_append, hrest]
      rcases elaborateStatement_cases function statement facts with ⟨heq, -⟩ |
        ⟨slot, span, -, heq⟩ <;>
        simp [heq, hstatement]

variable {span : Span}

/-- An end of storage where the local is available has its drop right before it. -/
theorem drop_before_storageDead (hfree : ∀ statement ∈ statements, statement.isDrop = false)
    (h : (elaborateStatements function statements facts).1[i]? = some (.storageDead slot span))
    (hdrops : function.drops slot = true)
    (havailable : (dropAnalysis.through ((statements.take (originalCount
      (elaborateStatements function statements facts).1 i)).map .statement) facts).available slot =
        true) :
    ∃ j, i = j + 1 ∧ (elaborateStatements function statements facts).1[j]? =
      some (.drop (.ofLocal slot) span) := by
  induction statements generalizing facts i with
  | nil => simp [elaborateStatements] at h
  | cons statement rest ih =>
      have hstatement := hfree statement (List.mem_cons_self ..)
      have hrest := fun other hother => hfree other (List.mem_cons_of_mem statement hother)
      have htransfer := transfer_elaborateStatement function statement facts
      rw [elaborateStatements] at h havailable ⊢
      simp only [htransfer] at h havailable ⊢
      -- a statement is kept as it is, or it gets a drop in front
      rcases elaborateStatement_cases function statement facts with
        ⟨heq, hkept⟩ | ⟨ended, span', rfl, heq⟩
      · rw [heq] at h havailable ⊢
        cases i with
        | zero =>
            obtain rfl : statement = .storageDead slot span := by simpa using h
            have hskip := hkept slot span rfl
            rw [hdrops, Bool.true_and] at hskip
            rw [show facts.available slot = true by
              simpa [originalCount] using havailable] at hskip
            cases hskip
        | succ =>
            obtain ⟨j, rfl, hj⟩ := ih hrest (by simpa using h) (by
              simpa [originalCount, hstatement, dropAnalysis] using havailable)
            exact ⟨j + 1, rfl, by simpa using hj⟩
      · rw [heq] at h havailable ⊢
        rcases i with _ | _ | i
        · simp at h
        · obtain ⟨rfl, rfl⟩ : ended = slot ∧ span' = span := by simpa using h
          exact ⟨0, rfl, rfl⟩
        · obtain ⟨j, rfl, hj⟩ := ih hrest (by simpa using h) (by
            simpa [originalCount, dropAnalysis] using havailable)
          exact ⟨j + 2, rfl, by simpa using hj⟩

variable {slots : List LocalId}

/-- The drops before a return are drops of listed locals. -/
theorem mem_returnDrops :
    ∀ statement ∈ returnDrops function span slots facts,
      ∃ slot ∈ slots, statement = .drop (.ofLocal slot) span := by
  induction slots generalizing facts with
  | nil => simp [returnDrops]
  | cons slot rest ih =>
      intro statement hmem
      unfold returnDrops at hmem
      split at hmem
      · rcases List.mem_cons.mp hmem with rfl | hrest
        · exact ⟨slot, List.mem_cons_self .., rfl⟩
        · obtain ⟨other, hother, heq⟩ := ih statement hrest
          exact ⟨other, List.mem_cons_of_mem _ hother, heq⟩
      · obtain ⟨other, hother, heq⟩ := ih statement hmem
        exact ⟨other, List.mem_cons_of_mem _ hother, heq⟩

/-- Dropping one local leaves another available. -/
theorem available_drop {other : LocalId} (hne : slot ≠ other) (h : facts.available slot = true) :
    (transferDropStatement (.drop (.ofLocal other) span) facts).available slot = true := by
  rw [DropState.available, Bool.and_eq_true, decide_eq_true_eq, Bool.not_eq_true',
    any_eq_false] at h ⊢
  refine ⟨mem_erase.mpr ⟨h.1, hne⟩, fun place hmem => ?_⟩
  rcases mem_insert.mp hmem with rfl | hold
  · rw [Place.overlaps_ofLocal, beq_eq_false_iff_ne]
    exact hne.symm
  · exact h.2 place hold

/-- An available local is dropped before a return, and only others after it. -/
theorem returnDrops_split (hnodup : slots.Nodup) (hslot : slot ∈ slots)
    (hdrops : function.drops slot = true) (havailable : facts.available slot = true) :
    ∃ front back, returnDrops function span slots facts =
        front ++ .drop (.ofLocal slot) span :: back ∧
      ∀ statement ∈ back, ∃ other, other ≠ slot ∧ statement = .drop (.ofLocal other) span := by
  induction slots generalizing facts with
  | nil => simp at hslot
  | cons first rest ih =>
      obtain ⟨hfirst, hrest⟩ := List.nodup_cons.mp hnodup
      unfold returnDrops
      rcases List.mem_cons.mp hslot with rfl | hmem
      · rw [havailable, hdrops]
        refine ⟨[], _, rfl, fun statement hstatement => ?_⟩
        obtain ⟨other, hother, heq⟩ := mem_returnDrops statement hstatement
        exact ⟨other, fun hsame => hfirst (hsame ▸ hother), heq⟩
      · have hne : slot ≠ first := fun hsame => hfirst (hsame ▸ hmem)
        split
        · obtain ⟨front, back, hsplit, hback⟩ := ih hrest hmem (available_drop hne havailable)
          exact ⟨_ :: front, back, congrArg _ hsplit, hback⟩
        · exact ih hrest hmem havailable

/-- The drops appended to a block: those before its return, if it has one. -/
def appendedDrops (function : MirFunction) (block : BasicBlock) (facts : DropState) :
    List MirStatement :=
  match block.terminator with
  | .return _ _ span =>
      returnDrops function span (List.range function.locals.length).reverse facts
  | _ => []

theorem elaborateBlock_statements (function : MirFunction) (block : BasicBlock)
    (facts : DropState) :
    (elaborateBlock function (some facts) block).statements =
      (elaborateStatements function block.statements facts).1 ++
        appendedDrops function block (elaborateStatements function block.statements facts).2 := by
  unfold elaborateBlock appendedDrops
  cases block.terminator <;> simp

variable {block : BasicBlock}

theorem isDrop_of_mem_appendedDrops : ∀ statement ∈ appendedDrops function block facts,
      statement.isDrop = true := by
  intro statement hmem
  unfold appendedDrops at hmem
  split at hmem
  · obtain ⟨slot, -, rfl⟩ := mem_returnDrops statement hmem
    rfl
  · simp at hmem

/-- Without the inserted drops an elaborated block is the original one. -/
theorem filter_elaborateBlock (function : MirFunction) (facts : DropState)
    (hfree : ∀ statement ∈ block.statements, statement.isDrop = false) :
    (elaborateBlock function (some facts) block).statements.filter
      (fun statement => !statement.isDrop) = block.statements := by
  have hnone : (appendedDrops function block
      (elaborateStatements function block.statements facts).2).filter
        (fun statement => !statement.isDrop) = [] := by
    refine List.filter_eq_nil_iff.mpr fun statement hmem => ?_
    simp [isDrop_of_mem_appendedDrops statement hmem]
  rw [elaborateBlock_statements, List.filter_append, filter_elaborateStatements hfree, hnone,
    List.append_nil]

theorem originalCount_le (function : MirFunction) (facts : DropState)
    (hfree : ∀ statement ∈ block.statements, statement.isDrop = false) (i : ℕ) :
    originalCount (elaborateBlock function (some facts) block).statements i ≤
      block.statements.length := by
  conv_rhs => rw [← filter_elaborateBlock function facts hfree]
  exact ((List.take_sublist i _).filter _).length_le

theorem originalCount_length (function : MirFunction) (facts : DropState)
    (hfree : ∀ statement ∈ block.statements, statement.isDrop = false) :
    originalCount (elaborateBlock function (some facts) block).statements
        (elaborateBlock function (some facts) block).statements.length =
      block.statements.length := by
  rw [originalCount, List.take_length, filter_elaborateBlock function facts hfree]

/-! ## The last drop of a local -/

/-- The action ends a local: its storage ends, or the function returns. -/
def EndsLocal (action : Action) (slot : LocalId) : Prop :=
  match action with
  | .statement (.storageDead ended _) => ended = slot
  | .terminator (.return _ _ _) => True
  | _ => False

/-- Among the steps taken there is a drop of the local; it held a value then, it was
stored into since every earlier drop, and afterwards it is neither dropped nor stored
into. -/
def DroppedOnce (slot : LocalId) (trace : List (Event ownPaths)) : Prop :=
  ∃ earlier event later, trace = earlier ++ event :: later ∧ Drops event.label.action slot ∧
    slot ∈ event.before.initialized ∧
    (∀ front other middle, earlier = front ++ other :: middle → Drops other.label.action slot →
      ∃ store ∈ middle, Stores store.label.action slot) ∧
    ∀ other ∈ later, ¬ Drops other.label.action slot ∧ ¬ Stores other.label.action slot

/-- The position in the original block that a position of an elaborated block stands for. -/
def originalIndex (function : MirFunction) (b i : ℕ) : ℕ :=
  match function.blocks[b]? with
  | none => i
  | some block => originalCount block.statements i

/-- A position whose local is available before the elaboration has a drop of it before,
and only drops of other locals in between. -/
def DroppedBefore (block : BasicBlock) (i : ℕ) (slot : LocalId) : Prop :=
  ∃ j span, j < i ∧ block.statements[j]? = some (.drop (.ofLocal slot) span) ∧
    ∀ k statement, j < k → k < i → block.statements[k]? = some statement →
      ∃ other span, other ≠ slot ∧ statement = .drop (.ofLocal other) span

/-- At the end of a local's storage. -/
theorem droppedBefore_storageDead
    (hfree : ∀ statement ∈ block.statements, statement.isDrop = false)
    (h : (elaborateBlock function (some facts) block).statements[i]? =
      some (.storageDead slot span)) (hdrops : function.drops slot = true)
    (havailable : (dropAnalysis.through ((block.statements.take (originalCount
      (elaborateBlock function (some facts) block).statements i)).map .statement) facts).available
        slot = true) : DroppedBefore (elaborateBlock function (some facts) block) i slot := by
  rw [elaborateBlock_statements] at h havailable
  rcases Nat.lt_or_ge i (elaborateStatements function block.statements facts).1.length with
    hbody | happended
  · rw [List.getElem?_append_left hbody] at h
    rw [originalCount, List.take_append_of_le_length (Nat.le_of_lt hbody)] at havailable
    obtain ⟨j, rfl, hj⟩ := drop_before_storageDead hfree h hdrops havailable
    refine ⟨j, span, Nat.lt_succ_self j, ?_, fun k _ hjk hk => by omega⟩
    rw [elaborateBlock_statements, List.getElem?_append_left (by omega)]
    exact hj
  · rw [List.getElem?_append_right happended] at h
    exact absurd (isDrop_of_mem_appendedDrops _ (List.mem_of_getElem? h)) (by simp)

theorem droppedBefore_return {value : Option MirOperand} {accesses : List PlaceAccess}
    (hreturn : block.terminator = .return value accesses span)
    (hdrops : function.drops slot = true)
    (havailable : (dropAnalysis.through (block.statements.map .statement) facts).available slot =
      true) :
    DroppedBefore (elaborateBlock function (some facts) block)
      (elaborateBlock function (some facts) block).statements.length slot := by
  have hslot : slot ∈ (List.range function.locals.length).reverse := by
    rw [List.mem_reverse, List.mem_range]
    by_contra hout
    simp [drops, List.getElem?_eq_none (Nat.le_of_not_lt hout)] at hdrops
  rw [← elaborateStatements_snd function] at havailable
  have hnodup : (List.range function.locals.length).reverse.Nodup := by
    rw [List.nodup_reverse]
    exact List.nodup_range
  obtain ⟨front, back, hsplit, hback⟩ := returnDrops_split hnodup hslot hdrops havailable
  have hstatements : (elaborateBlock function (some facts) block).statements =
      ((elaborateStatements function block.statements facts).1 ++ front) ++
        .drop (.ofLocal slot) span :: back := by
    rw [elaborateBlock_statements, appendedDrops, hreturn, List.append_assoc]
    exact congrArg _ hsplit
  unfold DroppedBefore
  rw [hstatements]
  generalize (elaborateStatements function block.statements facts).1 ++ front = before
  refine ⟨before.length, span, by simp, by simp, fun k statement hjk _ hstatement => ?_⟩
  obtain ⟨m, rfl⟩ : ∃ m, k = before.length + (m + 1) := ⟨k - before.length - 1, by omega⟩
  rw [List.getElem?_append_right (Nat.le_add_right ..), Nat.add_sub_cancel_left,
    List.getElem?_cons_succ] at hstatement
  obtain ⟨other, hne, heq⟩ := hback statement (List.mem_of_getElem? hstatement)
  exact ⟨other, span, hne, heq⟩

variable {elaborated : MirFunction}

/-- An elaborated function drops, before each end of a local that was whole there on
every path, that local. -/
theorem exists_drop_before (hfree : function.DropFree)
    (h : elaborateFunctionDrops fuel function = some elaborated) {action : Action}
    (hat : elaborated.graph.At b i action) (hends : EndsLocal action slot)
    (hdrops : elaborated.drops slot = true)
    (hreached : ∃ trace state,
      Run elaborated.graph ownPaths (entryOwnState elaborated) trace b i state)
    (hwhole : ∀ trace state, Run function.graph ownPaths (entryOwnState function) trace b
      (originalIndex elaborated b i) state → state.Whole slot) :
    ∃ block, elaborated.blocks[b]? = some block ∧ DroppedBefore block i slot := by
  rcases elaborateFunctionDrops_cases hfree h with ⟨hnil, rfl⟩ | ⟨work, hsolve, rfl, solution⟩
  · exact absurd hnil (blocks_ne_nil_of_at hat)
  obtain ⟨trace, state, run⟩ := hreached
  obtain ⟨facts, hinput, -⟩ :=
    (isSolution_elaborateBlocks hfree solution).covers_end (P := ownPaths) (fun _ _ => True)
      (fun _ => True) (fun h _ => h) trivial (fun _ _ _ h _ _ _ => h) run (fun _ _ => trivial)
  obtain ⟨flow, hflow, haction⟩ := hat
  obtain ⟨block, hblock, rfl⟩ := elaborateBlocks_block hflow
  rw [hinput] at haction
  have hget : (elaborateBlocks function work.input).blocks[b]? =
      some (elaborateBlock function (some facts) block) := by
    simp [elaborateBlocks, hblock, hinput]
  have hblockFree := hfree block (List.mem_of_getElem? hblock)
  have hcount := originalCount_le function facts hblockFree i
  have havailable : (dropAnalysis.through ((block.statements.take (originalCount
      (elaborateBlock function (some facts) block).statements i)).map .statement) facts).available
        slot = true := by
    -- before it, what every path leaves whole is available by the facts
    have hgraph : function.graph.blocks[b]? = some block.flow := by
      simp [graph, hblock]
    have hindex : originalIndex (elaborateBlocks function work.input) b i =
        originalCount (elaborateBlock function (some facts) block).statements i := by
      simp [originalIndex, hget]
    rw [hindex] at hwhole
    have hall := available_of_everyPath hfree hsolve hgraph hinput
      (by simpa [BasicBlock.flow, actions] using Nat.le_succ_of_le hcount) hwhole
    rwa [BasicBlock.flow, actions, List.take_append_of_le_length (by simpa using hcount),
      ← List.map_take] at hall
  refine ⟨_, hget, ?_⟩
  cases action with
  | statement statement =>
      cases statement with
      | storageDead ended =>
          obtain rfl : ended = slot := hends
          exact droppedBefore_storageDead hblockFree (actions_statement.mp haction) hdrops
            havailable
      | _ => exact hends.elim
  | terminator =>
      obtain ⟨rfl, hlast⟩ := actions_terminator.mp haction
      rw [elaborateBlock_terminator] at hlast
      subst hlast
      rw [originalCount_length function facts hblockFree, List.take_length] at havailable
      cases hreturn : block.terminator with
      | «return» value accesses span => exact droppedBefore_return hreturn hdrops havailable
      | _ =>
          rw [hreturn] at hends
          exact hends.elim

/-- A drop passed in the current block is the last one of its local. -/
theorem droppedOnce_of_droppedBefore (hfree : function.DropFree)
    (h : elaborateFunctionDrops fuel function = some elaborated)
    (hblock : elaborated.blocks[b]? = some block) (hdropped : DroppedBefore block i slot)
    {trace : List (Event ownPaths)}
    (run : Run elaborated.graph ownPaths (entryOwnState elaborated) trace b i state) :
    DroppedOnce slot trace := by
  obtain ⟨j, span, hj, hdrop, hbetween⟩ := hdropped
  obtain ⟨earlier, event, later, htrace, -, -, hrun, hat, hlater⟩ := run.executed hj
  have hevent : event.label.action = .statement (.drop (.ofLocal slot) span) := by
    have haction := (at_iff hblock).mp hat
    rw [actions_statement.mpr hdrop] at haction
    exact (Option.some.inj haction).symm
  -- a drop is only inserted where the facts say that the local is initialized
  have hinitialized : slot ∈ event.before.initialized := by
    obtain ⟨inputs, solution⟩ := exists_justifyingSolution hfree h
      (blocks_ne_nil_of_at hat)
    have hlocals := locals_elaborateFunctionDrops hfree h
    obtain ⟨_, facts, -, -, hknown, justified⟩ :=
      solution.covers_next
        (fun facts (state : OwnState) => ∀ slot ∈ facts.initialized, slot ∈ state.initialized)
        (fun _ => True) (fun hrel hle slot h => hrel slot (hle.1 slot h))
        (fun slot h => by
          simpa [entryDropState, entryOwnState, parameters, hlocals] using h)
        (fun event facts _ hrel hstep _ _ slot h => by
          obtain ⟨-, rfl⟩ := hstep
          exact mem_initializedAfter.mpr ((mem_transfer_initialized.mp h).mono (hrel slot)))
        hrun (fun _ _ => trivial) hat
    rw [show ownPaths.action event.label = _ from hevent] at justified
    obtain ⟨other, hsame, -, havailable⟩ := justified
    obtain rfl : slot = other := congrArg Place.root hsame
    rw [DropState.available, Bool.and_eq_true, decide_eq_true_eq] at havailable
    exact hknown slot havailable.1
  refine ⟨earlier, event, later, htrace, ⟨_, span, hevent, rfl⟩, hinitialized,
    fun front other middle hsplit hdrops => stored_between_drops hrun hinitialized hsplit hdrops,
    fun other hother => ?_⟩
  obtain ⟨k, hjk, hki, hk⟩ := hlater other hother
  have haction := (at_iff hblock).mp hk
  cases hkind : other.label.action with
  | terminator =>
      refine ⟨?_, id⟩
      rintro ⟨place, span', heq, -⟩
      cases heq
  | statement statement =>
      rw [show ownPaths.action other.label = _ from hkind] at haction
      obtain ⟨slot', span', hne, rfl⟩ :=
        hbetween k statement hjk hki (actions_statement.mp haction)
      refine ⟨?_, id⟩
      rintro ⟨place, _, heq, hroot⟩
      cases heq
      exact hne hroot

/-- No path returns with a whole value in a local that is to be dropped: what was
stored is moved out of, or dropped. -/
def LeakFree (function : MirFunction) : Prop :=
  ∀ {trace b i state}, Run function.graph ownPaths (entryOwnState function) trace b i state →
    ∀ {value accesses span}, function.graph.At b i (.terminator (.return value accesses span)) →
      ∀ slot, function.drops slot = true → ¬ state.Whole slot

/-- `fn f(flag, data) { if flag { consume(data) } }`. -/
def moveOnOneBranch : MirFunction where
  locals := [⟨"flag", .bool, false, true, false, none, none, .point 0⟩,
    ⟨"data", .buffer .integer, false, true, false, none, none, .point 1⟩]
  blocks := [
    { statements := []
      terminator := .switch none [⟨.ofLocal 0, .read, .point 2⟩] [1] 2 (.point 2) },
    { statements := [.evaluate none [⟨.ofLocal 1, .move, .point 3⟩] (.point 3)]
      terminator := .goto 2 (.point 4) },
    { statements := []
      terminator := .return none [] (.point 5) }]

/-- Nothing is dropped, also not on the path that keeps `data`. -/
theorem not_leakFree_moveOnOneBranch :
    elaborateDrops 4 moveOnOneBranch = some moveOnOneBranch ∧ ¬ LeakFree moveOnOneBranch := by
  refine ⟨by decide +kernel, fun hleak => ?_⟩
  have run := ownStrategy.follow (G := moveOnOneBranch.graph) (b := 0)
    (s := entryOwnState moveOnOneBranch) rfl .start (List.take_prefix 1 _)
  have hblock : moveOnOneBranch.graph.blocks[0]? =
      some (moveOnOneBranch.blocks.get ⟨0, by decide⟩).flow := rfl
  exact hleak (.edge (t := 2) (by exact run) hblock (by decide)) ⟨_, rfl, rfl⟩ 1 (by decide)
    (by decide)

/-- **A local whole at its end on every path is dropped there, once**: at a `Return`
or at the end of its storage, a local that is to be dropped and that every path of
the function has whole there has been dropped once since it was last stored into. -/
theorem droppedOnce_of_everyPath {fuel : ℕ} {function elaborated : MirFunction}
    (hfree : function.DropFree) (helaborated : elaborateDrops fuel function = some elaborated)
    {b i : ℕ} {action : Action} {slot : LocalId} (hat : elaborated.graph.At b i action)
    (hends : EndsLocal action slot) (hdrops : elaborated.drops slot = true)
    (hwhole : ∀ trace state, Run (materializeFunctionReturns function).graph ownPaths
      (entryOwnState (materializeFunctionReturns function)) trace b (originalIndex elaborated b i)
      state → state.Whole slot)
    {trace : List (Event ownPaths)} {state : OwnState}
    (run : Run elaborated.graph ownPaths (entryOwnState elaborated) trace b i state) :
    DroppedOnce slot trace := by
  have hfree' := dropFree_materializeFunctionReturns hfree
  obtain ⟨block, hblock, hdropped⟩ :=
    exists_drop_before hfree' helaborated hat hends hdrops ⟨trace, state, run⟩ hwhole
  exact droppedOnce_of_droppedBefore hfree' helaborated hblock hdropped run

/-- Moves `data` out on one branch, and ends without it on the other. -/
def moveOrDrop : MirFunction where
  locals := moveOnOneBranch.locals
  blocks := [
    { statements := []
      terminator := .switch none [⟨.ofLocal 0, .read, .point 2⟩] [1] 2 (.point 2) },
    { statements := [.evaluate none [⟨.ofLocal 1, .move, .point 3⟩] (.point 3)]
      terminator := .return none [] (.point 4) },
    { statements := [], terminator := .return none [] (.point 5) }]

def moveOrDropElaborated : MirFunction :=
  { moveOrDrop with
    blocks := moveOrDrop.blocks.set 2
      { statements := [.drop (.ofLocal 1) (.point 5)], terminator := .return none [] (.point 5) } }

/-- A terminator that moves nothing out leaves a whole local whole. -/
theorem OwnState.Whole.terminator {x : Execution} {state : OwnState} {slot : LocalId}
    (h : state.Whole slot) {last : Terminator} (hlast : x.action = .terminator last)
    (hkinds : ∀ access ∈ terminatorAccesses last, access.kind.consumes = false) :
    (ownAfter x state).Whole slot := by
  unfold ownAfter movedAfter OwnState.Whole
  rw [hlast]
  refine ⟨h.1, fun place hplace => ?_⟩
  rcases mem_takeOut.mp hplace with hold | ⟨access, haccess, hkind, -⟩
  · exact h.2 place hold
  · have hmem := (List.of_mem_zip haccess).1
    rw [hlast] at hmem
    exact absurd hkind (by simp [hkinds _ hmem])

/-- Where it is kept, `data` has been dropped once at the return. -/
theorem droppedOnce_moveOrDrop :
    ∃ trace state, Run moveOrDropElaborated.graph ownPaths
      (entryOwnState moveOrDropElaborated) trace 2 1 state ∧ DroppedOnce 1 trace := by
  have hentry : moveOrDropElaborated.graph.blocks[0]? =
      some (moveOrDropElaborated.blocks.get ⟨0, by decide⟩).flow := rfl
  have branch := ownStrategy.follow (G := moveOrDropElaborated.graph) (b := 0)
    (s := entryOwnState moveOrDropElaborated) rfl .start (List.take_prefix 1 _)
  have run := ownStrategy.follow (G := moveOrDropElaborated.graph) (b := 2) rfl
    (.edge (t := 2) (by exact branch) hentry (by decide)) (List.take_prefix 1 _)
  refine ⟨_, _, run, ?_⟩
  refine droppedOnce_of_everyPath (show moveOrDrop.DropFree by unfold MirFunction.DropFree; decide)
    (show elaborateDrops 4 moveOrDrop = some moveOrDropElaborated by decide +kernel)
    (show moveOrDropElaborated.graph.At 2 1 _ from ⟨_, rfl, rfl⟩) trivial (by decide) ?_ run
  -- `data` is whole in the first and the last block
  have hwhole : ∀ {trace b i state}, Run moveOrDrop.graph ownPaths (entryOwnState moveOrDrop)
      trace b i state → b ≠ 1 → state.Whole 1 := by
    intro trace b i state run hb
    induction run with
    | start => decide
    | @step trace b i s s' block x run hblock haction hstep ih =>
        obtain ⟨-, rfl⟩ := hstep
        rcases b with _ | _ | _ | b
        · cases hblock
          rcases i with _ | i
          · exact (ih hb).terminator (Option.some.inj haction).symm (by decide)
          · cases haction
        · exact absurd rfl hb
        · cases hblock
          rcases i with _ | i
          · exact (ih hb).terminator (Option.some.inj haction).symm (by decide)
          · cases haction
        · cases hblock
    | @edge trace b t s block run hblock ht ih =>
        refine ih ?_
        rintro rfl
        cases hblock
        cases ht
  exact fun trace state run => hwhole run (by decide)

end Jadren.Mir

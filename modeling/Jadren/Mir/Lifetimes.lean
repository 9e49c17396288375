import Jadren.Library.Liveness
import Jadren.Mir.Initialization
import Mathlib.Data.Finset.Sort

/-!
# Inferred lifetimes

`inferFunctionLifetimes` ends the storage of a local that holds a borrow after the last statement
that uses it: `localLiveness` computes, backward over the control-flow graph, the locals that are
still used, and a `StorageDead` follows each statement whose locals are not used any more.

A statement defines a local if it gives it another value, or ends the value or the storage it
has.  A local that only one of two successors uses is live at the end of the block, so its storage
is not ended there, nor is it ended on the edge where it is not used.  What the pass inserts is
sound for all paths (`inferFunctionLifetimes_sound`), and no more than that.
-/

namespace Jadren.Mir

open Liveness (Effects Equations Live)
open List

/-! ## Uses and definitions -/

/-- The locals that some accesses go to. -/
def accessRoots (accesses : List PlaceAccess) : Finset LocalId :=
  (accesses.map fun access => access.place.root).toFinset

def statementUses : MirStatement → Finset LocalId
  | .assign destination _ _ accesses _ =>
      if destination.projection = [] then accessRoots accesses
      else insert destination.root (accessRoots accesses)
  | .borrow _ source _ _ _ => {source.root}
  | .drop place _ => {place.root}
  | .evaluate _ accesses _ => accessRoots accesses
  | .regionExit region _ => {region}
  | .storageLive _ _ | .storageDead _ _ | .regionEnter _ _ => ∅

def statementDefinitions : MirStatement → Finset LocalId
  | .storageLive slot _ | .storageDead slot _ | .regionEnter slot _ | .regionExit slot _
  | .borrow slot _ _ _ _ => {slot}
  | .drop place _ => if place.projection = [] then {place.root} else ∅
  | .assign destination _ _ _ _ => if destination.projection = [] then {destination.root} else ∅
  | .evaluate _ _ _ => ∅

def terminatorUses (last : Terminator) : Finset LocalId := accessRoots (terminatorAccesses last)

def statementSpan : MirStatement → Span
  | .storageLive _ span | .storageDead _ span | .regionEnter _ span | .regionExit _ span
  | .assign _ _ _ _ span | .borrow _ _ _ _ span | .drop _ span | .evaluate _ _ span => span

/-! ## The analysis -/

/-- The locals used before they are defined, and those defined, in a block so far. -/
def collectStatement (current : Finset LocalId × Finset LocalId) (statement : MirStatement) :
    Finset LocalId × Finset LocalId :=
  (current.1 ∪ (statementUses statement \ current.2), current.2 ∪ statementDefinitions statement)

namespace BasicBlock

variable (block : BasicBlock)

def collected : Finset LocalId × Finset LocalId := block.statements.foldl collectStatement (∅, ∅)

def uses : Finset LocalId :=
  block.collected.1 ∪ (terminatorUses block.terminator \ block.collected.2)

def definitions : Finset LocalId := block.collected.2

end BasicBlock

/-- The backward equations of a function. -/
def livenessEquations (function : MirFunction) : Equations LocalId where
  count := function.blocks.length
  uses b := (function.blocks[b]?).elim ∅ BasicBlock.uses
  kills b := (function.blocks[b]?).elim ∅ BasicBlock.definitions
  successors b := (function.blocks[b]?).elim [] fun block => successors block.terminator

/-- The locals live at the entries and at the exits of the blocks, with at most `fuel` sweeps; an
edge that does not lead to a block is a panic. -/
def localLiveness (fuel : ℕ) (function : MirFunction) : Option (Liveness.State LocalId) :=
  if function.Closed then (livenessEquations function).solve fuel else none

/-! ## The pass -/

def transferLivenessBackward (statement : MirStatement) (live : Finset LocalId) : Finset LocalId :=
  live \ statementDefinitions statement ∪ statementUses statement

/-- The locals that a function borrows into. -/
def MirFunction.borrowed (function : MirFunction) : Finset LocalId :=
  (function.blocks.flatMap fun block => block.statements.filterMap fun
    | .borrow destination _ _ _ _ => some destination
    | _ => none).toFinset

/-- The borrowed locals that a statement uses or borrows into, but nothing after it uses. -/
def dyingLocals (borrowed : Finset LocalId) (statement : MirStatement) (after : Finset LocalId) :
    Finset LocalId :=
  ((statementUses statement ∩ borrowed) \ after) ∪
    match statement with
    | .borrow destination _ _ _ _ => if destination ∈ after then ∅ else {destination}
    | _ => ∅

/-- What follows a statement for the locals that die there, in their order. -/
def deadStatements (statement : MirStatement) (dying : Finset LocalId) : List MirStatement :=
  (dying.sort).map fun slot => .storageDead slot (statementSpan statement)

/-- The statements of a block with storage ended, and the locals live before them. -/
def endStorage (borrowed live : Finset LocalId) :
    List MirStatement → List MirStatement × Finset LocalId
  | [] => ([], live)
  | statement :: rest =>
      let ended := endStorage borrowed live rest
      (statement :: deadStatements statement (dyingLocals borrowed statement ended.2) ++ ended.1,
        transferLivenessBackward statement ended.2)

def inferFunctionLifetimes (fuel : ℕ) (function : MirFunction) : Option MirFunction :=
  if function.borrowed = ∅ ∨ function.blocks = [] then some function
  else (localLiveness fuel function).map fun s =>
    { function with
      blocks := function.blocks.mapIdx fun b block =>
        { block with
          statements := (endStorage function.borrowed
            (s.output.getD b ∅ ∪ terminatorUses block.terminator) block.statements).1 } }

/-! ## What the equations are about -/

/-- The locals an action uses and defines. -/
def livenessEffects : Effects Action LocalId where
  uses
    | .statement statement => statementUses statement
    | .terminator last => terminatorUses last
  kills
    | .statement statement => statementDefinitions statement
    | .terminator _ => ∅

theorem coe_transfer (statement : MirStatement) (live : Finset LocalId) :
    (transferLivenessBackward statement live : Set LocalId) =
      livenessEffects.before (.statement statement) live := by
  rw [transferLivenessBackward, Finset.coe_union, Finset.coe_sdiff, Set.union_comm]
  rfl

theorem coe_foldr_transfer (statements : List MirStatement) (live : Finset LocalId) :
    ((statements.foldr transferLivenessBackward live : Finset LocalId) : Set LocalId) =
      livenessEffects.through (statements.map .statement) live := by
  induction statements with
  | nil => rfl
  | cons statement rest ih => rw [foldr_cons, coe_transfer, ih, map_cons,
      Effects.through_cons]

/-- Going forward collects what going backward from nothing needs. -/
theorem coe_collected (statements : List MirStatement) :
    ((statements.foldl collectStatement (∅, ∅)).1 : Set LocalId) =
        livenessEffects.through (statements.map .statement) ∅ ∧
      ((statements.foldl collectStatement (∅, ∅)).2 : Set LocalId) =
        {x | ∃ action ∈ statements.map Action.statement, x ∈ livenessEffects.kills action} := by
  induction statements using reverseRecOn with
  | nil => simp
  | append_singleton front last ih =>
      obtain ⟨huses, hkills⟩ := ih
      rw [foldl_append, foldl_cons, foldl_nil, collectStatement]
      constructor
      · rw [map_append, Effects.through_append, Effects.through_eq, Finset.coe_union,
          Finset.coe_sdiff, huses, hkills]
        simp [Effects.before, livenessEffects]
      · rw [Finset.coe_union, hkills]
        ext x
        simp [or_and_right, exists_or, livenessEffects]

variable {function : MirFunction} {b : ℕ}

theorem MirFunction.graph_block {flow : Flow.Block Action} :
    function.graph.blocks[b]? = some flow ↔
      ∃ block, function.blocks[b]? = some block ∧ flow = block.flow := by
  simp [MirFunction.graph, eq_comm]

theorem livenessEquations_summarizes (function : MirFunction) :
    (livenessEquations function).Summarizes livenessEffects function.graph where
  count := by simp [livenessEquations, MirFunction.graph]
  uses := by
    intro b flow hflow
    obtain ⟨block, hblock, rfl⟩ := MirFunction.graph_block.mp hflow
    obtain ⟨huses, hkills⟩ := coe_collected block.statements
    simp only [livenessEquations, hblock, Option.elim_some, BasicBlock.flow, BasicBlock.actions]
    rw [Effects.through_append, Effects.through_eq, BasicBlock.uses, BasicBlock.collected,
      Finset.coe_union, Finset.coe_sdiff, huses, hkills]
    simp [Effects.before, livenessEffects]
  kills := by
    intro b flow hflow
    obtain ⟨block, hblock, rfl⟩ := MirFunction.graph_block.mp hflow
    simp only [livenessEquations, hblock, Option.elim_some, BasicBlock.flow, BasicBlock.actions]
    rw [BasicBlock.definitions, BasicBlock.collected, (coe_collected block.statements).2]
    ext x
    simp [or_and_right, exists_or, livenessEffects]
  successors := by
    intro b flow hflow
    obtain ⟨block, hblock, rfl⟩ := MirFunction.graph_block.mp hflow
    simp [livenessEquations, hblock, BasicBlock.flow]

/-! ## Where storage is ended -/

/-- The locals live after a statement, given those live at the end of the statements. -/
def liveAfter (live : Finset LocalId) (statements : List MirStatement) (i : ℕ) : Finset LocalId :=
  (statements.drop (i + 1)).foldr transferLivenessBackward live

/-- A function with the storage of locals ended after some of its statements. -/
def MirFunction.withStorageDead (function : MirFunction) (dying : ℕ → ℕ → Finset LocalId) :
    MirFunction :=
  { function with
    blocks := function.blocks.mapIdx fun b block =>
      { block with
        statements := (block.statements.mapIdx fun i statement =>
          statement :: deadStatements statement (dying b i)).flatten } }

theorem deadStatements_empty (statement : MirStatement) : deadStatements statement ∅ = [] := by
  simp [deadStatements]

theorem withStorageDead_empty (function : MirFunction) :
    function.withStorageDead (fun _ _ => ∅) = function := by
  have hflatten (statements : List MirStatement) :
      (statements.mapIdx fun _ statement => [statement]).flatten = statements := by
    induction statements with
    | nil => rfl
    | cons statement rest ih => rw [mapIdx_cons, flatten_cons, ih]; rfl
  obtain ⟨locals, blocks⟩ := function
  simp only [MirFunction.withStorageDead, deadStatements_empty, hflatten]
  congr 1
  apply ext_getElem?
  intro b
  rw [getElem?_mapIdx, Option.map_id']

theorem endStorage_spec (borrowed live : Finset LocalId) (statements : List MirStatement) :
    (endStorage borrowed live statements).1 = (statements.mapIdx fun i statement =>
        statement :: deadStatements statement
          (dyingLocals borrowed statement (liveAfter live statements i))).flatten ∧
      (endStorage borrowed live statements).2 =
        statements.foldr transferLivenessBackward live := by
  induction statements with
  | nil => exact ⟨rfl, rfl⟩
  | cons statement rest ih =>
      obtain ⟨hended, hlive⟩ := ih
      rw [endStorage, hended, hlive]
      refine ⟨?_, rfl⟩
      rw [mapIdx_cons, flatten_cons]
      rfl

/-- The locals whose storage the pass ends after a statement. -/
def MirFunction.dyingAt (function : MirFunction) (s : Liveness.State LocalId) (b i : ℕ) :
    Finset LocalId :=
  (function.blocks[b]?).elim ∅ fun block =>
    (block.statements[i]?).elim ∅ fun statement =>
      dyingLocals function.borrowed statement
        (liveAfter (s.output.getD b ∅ ∪ terminatorUses block.terminator) block.statements i)

variable {s : Liveness.State LocalId} {x : LocalId}

theorem mem_dyingAt {i : ℕ} (h : x ∈ function.dyingAt s b i) :
    ∃ block statement, function.blocks[b]? = some block ∧
      block.statements[i]? = some statement ∧ x ∈ dyingLocals function.borrowed statement
        (liveAfter (s.output.getD b ∅ ∪ terminatorUses block.terminator) block.statements i) := by
  unfold MirFunction.dyingAt at h
  cases hblock : function.blocks[b]? with
  | none => simp [hblock] at h
  | some block =>
      cases hstatement : block.statements[i]? with
      | none => simp [hblock, hstatement] at h
      | some statement =>
          exact ⟨block, statement, rfl, hstatement, by simpa [hblock, hstatement] using h⟩

theorem endStorage_eq (function : MirFunction) (s : Liveness.State LocalId) :
    { function with
      blocks := function.blocks.mapIdx fun b block =>
        { block with
          statements := (endStorage function.borrowed
            (s.output.getD b ∅ ∪ terminatorUses block.terminator) block.statements).1 } } =
      function.withStorageDead (function.dyingAt s) := by
  unfold MirFunction.withStorageDead
  congr 1
  apply ext_getElem?
  intro b
  rw [getElem?_mapIdx, getElem?_mapIdx]
  cases hblock : function.blocks[b]? with
  | none => rfl
  | some block =>
      rw [Option.map_some, Option.map_some, (endStorage_spec _ _ _).1]
      congr 3
      apply ext_getElem?
      intro i
      rw [getElem?_mapIdx, getElem?_mapIdx]
      cases hstatement : block.statements[i]? with
      | none => rfl
      | some => simp [MirFunction.dyingAt, hblock, hstatement]

variable {block : BasicBlock}

theorem mem_borrowed (hblock : function.blocks[b]? = some block) {destination : LocalId}
    {source : Place} {kind : BorrowKind} {preserveValue : Bool} {span : Span}
    (h : .borrow destination source kind preserveValue span ∈ block.statements) :
    destination ∈ function.borrowed := by
  rw [MirFunction.borrowed, mem_toFinset, mem_flatMap]
  exact ⟨block, mem_of_getElem? hblock, mem_filterMap.mpr ⟨_, h, rfl⟩⟩

/-- A local dies where it is not live, and only if it is borrowed into. -/
theorem mem_dyingLocals (hblock : function.blocks[b]? = some block) {statement : MirStatement}
    (hmem : statement ∈ block.statements) {after : Finset LocalId}
    (h : x ∈ dyingLocals function.borrowed statement after) :
    x ∈ function.borrowed ∧ x ∉ after := by
  unfold dyingLocals at h
  rw [Finset.mem_union] at h
  rcases h with huse | hborrow
  · obtain ⟨hboth, hdead⟩ := Finset.mem_sdiff.mp huse
    exact ⟨(Finset.mem_inter.mp hboth).2, hdead⟩
  · cases statement with
    | borrow destination =>
        by_cases hlive : destination ∈ after
        · simp [hlive] at hborrow
        · obtain rfl : x = destination := by simpa [hlive] using hborrow
          exact ⟨mem_borrowed hblock hmem, hlive⟩
    | _ => exact absurd hborrow (Finset.notMem_empty x)

/-- What is live after a statement is in the set that the pass looks at there. -/
theorem mem_liveAfter (least : (livenessEquations function).Least s) {i : ℕ}
    (hblock : function.blocks[b]? = some block) (hi : i < block.statements.length)
    (hlive : Live livenessEffects function.graph x b (i + 1)) :
    x ∈ liveAfter (s.output.getD b ∅ ∪ terminatorUses block.terminator) block.statements i := by
  have sums := livenessEquations_summarizes function
  have hflow : function.graph.blocks[b]? = some block.flow :=
    MirFunction.graph_block.mpr ⟨block, hblock, rfl⟩
  have hneeded := hlive.mem_through (sums.closed least.solves.bounds) hflow
  have houtput := least.solves.output b (sums.lt_count hflow)
  rw [sums.successors hflow] at houtput
  rw [← houtput] at hneeded
  have hdrop : block.flow.body.drop (i + 1) =
      (block.statements.drop (i + 1)).map Action.statement ++ [.terminator block.terminator] := by
    rw [BasicBlock.flow, BasicBlock.actions,
      drop_append_of_le_length (by rw [length_map]; exact hi), map_drop]
  rw [hdrop, Effects.through_append] at hneeded
  rw [← Finset.mem_coe, liveAfter, coe_foldr_transfer]
  refine Effects.through_mono _ _ ?_ hneeded
  intro y hy
  simp only [Effects.through_cons, Effects.through_nil, Effects.before, livenessEffects] at hy
  simpa [or_comm] using hy

/-- **Storage ends where the local is not used again.**  The liveness analysis ends, on every
control-flow graph, with the least sets that satisfy the backward equations, and these are the
locals that some path uses before it defines them.  The pass inserts nothing but the end of the
storage of locals that borrow, at places from which no path uses them before it defines them. -/
theorem inferFunctionLifetimes_sound (function : MirFunction) (hclosed : function.Closed) :
    ∃ enough s function',
      (∀ fuel ≥ enough, localLiveness fuel function = some s ∧
        inferFunctionLifetimes fuel function = some function') ∧
      (livenessEquations function).Solves (fun b => s.input.getD b ∅) (fun b => s.output.getD b ∅) ∧
      (∀ inputs outputs, (livenessEquations function).Solves inputs outputs → ∀ b,
        (s.input.getD b ∅ : Set LocalId) ⊆ inputs b ∧
          (s.output.getD b ∅ : Set LocalId) ⊆ outputs b) ∧
      (∀ b x, x ∈ s.input.getD b ∅ ↔ Live livenessEffects function.graph x b 0) ∧
      ∃ dying : ℕ → ℕ → Finset LocalId, function' = function.withStorageDead dying ∧
        ∀ b i x, x ∈ dying b i →
          x ∈ function.borrowed ∧ ¬ Live livenessEffects function.graph x b (i + 1) := by
  obtain ⟨enough, s, hsolve, least⟩ := Equations.exists_solve (livenessEquations function)
  have hliveness : ∀ fuel ≥ enough, localLiveness fuel function = some s := by
    intro fuel hfuel
    rw [localLiveness, if_pos hclosed, hsolve fuel hfuel]
  have hleast : ∀ inputs outputs, (livenessEquations function).Solves inputs outputs → ∀ b,
      (s.input.getD b ∅ : Set LocalId) ⊆ inputs b ∧
        (s.output.getD b ∅ : Set LocalId) ⊆ outputs b :=
    fun inputs outputs solves => least.within inputs outputs solves.bounds
  have hinput : ∀ b x, x ∈ s.input.getD b ∅ ↔ Live livenessEffects function.graph x b 0 :=
    fun b x => least.mem_input_iff (livenessEquations_summarizes function)
  by_cases hnothing : function.borrowed = ∅ ∨ function.blocks = []
  · refine ⟨enough, s, function, fun fuel hfuel => ⟨hliveness fuel hfuel, ?_⟩, least.solves, hleast,
      hinput, fun _ _ => ∅, (withStorageDead_empty function).symm, fun b i x hx => ?_⟩
    · rw [inferFunctionLifetimes, if_pos hnothing]
    · exact absurd hx (Finset.notMem_empty x)
  · refine ⟨enough, s, function.withStorageDead (function.dyingAt s),
      fun fuel hfuel => ⟨hliveness fuel hfuel, ?_⟩, least.solves, hleast, hinput,
      function.dyingAt s, rfl, fun b i x hx => ?_⟩
    · rw [inferFunctionLifetimes, if_neg hnothing, hliveness fuel hfuel, Option.map_some,
        endStorage_eq]
    · obtain ⟨block, statement, hblock, hstatement, hx⟩ := mem_dyingAt hx
      obtain ⟨hborrowed, hdead⟩ := mem_dyingLocals hblock (mem_of_getElem? hstatement) hx
      refine ⟨hborrowed, fun hlive => hdead ?_⟩
      exact mem_liveAfter least hblock (List.getElem?_eq_some_iff.mp hstatement).1 hlive

/-- `borrow $1 = $0; if .. { read $1 }`: the borrow is used on one of two branches. -/
def usedOnBranch : MirFunction where
  locals := [⟨"value", .string, true, false, false, none, none, .point 0⟩,
    ⟨"view", .capability .read .string, false, false, false, none, none, .point 1⟩]
  blocks := [
    { statements := [.borrow 1 (.ofLocal 0) .read false (.point 1)]
      terminator := .switch none [] [1] 2 (.point 2) },
    { statements := [.evaluate none [⟨.ofLocal 1, .read, .point 3⟩] (.point 3)]
      terminator := .goto 2 (.point 3) },
    { statements := []
      terminator := .return none [] (.point 4) }]

theorem inferFunctionLifetimes_usedOnBranch :
    ∃ enough function', (∀ fuel ≥ enough,
      inferFunctionLifetimes fuel usedOnBranch = some function') ∧
      ∃ dying : ℕ → ℕ → Finset LocalId, function' = usedOnBranch.withStorageDead dying ∧
        1 ∉ dying 0 0 := by
  obtain ⟨enough, _, function', hends, -, -, -, dying, hinserted, hdead⟩ :=
    inferFunctionLifetimes_sound usedOnBranch (by decide)
  refine ⟨enough, function', fun fuel hfuel => (hends fuel hfuel).2, dying, hinserted, ?_⟩
  -- at the end of the first block the local is still live on the branch
  intro hdying
  refine (hdead 0 0 1 hdying).2 (.step ⟨_, rfl, rfl⟩ ?_ ?_)
  · exact Set.notMem_empty 1
  · have hbranch : 1 ∈ (usedOnBranch.blocks[0]).flow.successors := by decide
    apply Live.edge rfl hbranch
    exact .use ⟨_, rfl, rfl⟩ (by simp [livenessEffects, statementUses, accessRoots, Place.ofLocal])

end Jadren.Mir

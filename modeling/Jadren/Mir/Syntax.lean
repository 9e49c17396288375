import Jadren.Library.OrderedSet
import Jadren.Library.Flow

/-!
# MIR: places, statements, blocks

The part of the place-based MIR that its memory analyses read.  Value
computations stay opaque: an analysis looks at the accesses recorded beside a
value, so of an operand only its type and whether it is a plain place are kept.
Types are the trees that interned type ids stand for.

`MirFunction.graph` is the control-flow graph the analyses walk: a block's
statements in order, then its terminator.
-/

namespace Jadren.Mir

/-! ## Types -/

inductive Capability
  | owned
  | read
  | write
  deriving DecidableEq, Repr

/-- The kinds of canonical types. -/
inductive TypeKind
  | error
  | bool
  | char
  | string
  | ownedString
  | unit
  | never
  | integer
  | float
  | vector (element : TypeKind)
  | array (element : TypeKind) (length : ℕ)
  | buffer (element : TypeKind)
  | slice (element : TypeKind)
  | pointer (pointee : TypeKind)
  | option (payload : TypeKind)
  | result (ok failure : TypeKind)
  | nominal (constructor : ℕ)
  | genericParameter
  | inferenceVariable
  | function
  | capability (capability : Capability) (inner : TypeKind)
  deriving DecidableEq, Repr

/-- Whether plain value use consumes a value of this type. -/
def isMoveOnly : TypeKind → Bool
  | .string | .ownedString | .buffer _ | .nominal _ => true
  | .array element _ => isMoveOnly element
  | .option payload => isMoveOnly payload
  | .result ok failure => isMoveOnly ok || isMoveOnly failure
  | .capability .owned _ => true
  | .capability .read _ | .capability .write _ => false
  | _ => false

/-! ## Places -/

/-- A source range. -/
structure Span where
  source : ℕ
  start : ℕ
  stop : ℕ
  deriving DecidableEq, Repr

/-- The empty range at a position of the first source. -/
def Span.point (position : ℕ) : Span := ⟨0, position, position⟩

/-- Function-local storage slot. -/
abbrev LocalId := ℕ

/-- Control-flow basic block identity. -/
abbrev BasicBlockId := ℕ

/-- One place projection. -/
inductive Projection
  /-- Named record/component field. -/
  | field (name : String)
  /-- Dynamically indexed element. -/
  | index
  /-- Pointer/reference dereference. -/
  | dereference
  deriving DecidableEq, Ord, Repr

/-- Addressable local or subplace. -/
@[ext]
structure Place where
  root : LocalId
  projection : List Projection
  deriving DecidableEq, Ord, Repr

namespace Place

/-- A whole-local place. -/
def ofLocal (root : LocalId) : Place := ⟨root, []⟩

/-- Whether two places may overlap. -/
def overlaps (place other : Place) : Bool :=
  place.root == other.root &&
    (other.projection.isPrefixOf place.projection || place.projection.isPrefixOf other.projection)

theorem overlaps_iff {place other : Place} :
    place.overlaps other = true ↔ place.root = other.root ∧
      (other.projection <+: place.projection ∨ place.projection <+: other.projection) := by
  simp [overlaps]

theorem overlaps_comm (place other : Place) : place.overlaps other = other.overlaps place := by
  rw [Bool.eq_iff_iff, overlaps_iff, overlaps_iff]
  tauto

/-- A whole local overlaps every place in it. -/
@[simp] theorem overlaps_ofLocal (place : Place) (root : LocalId) :
    place.overlaps (ofLocal root) = (place.root == root) := by
  simp [overlaps, ofLocal]

end Place

/-! ## Accesses and operands -/

/-- Memory effect of evaluating one operand. -/
inductive AccessKind
  /-- Non-consuming read of a copy value. -/
  | read
  /-- Consuming read of a move-only value. -/
  | move
  /-- Consuming runtime move whose source remains drop-managed. -/
  | moveOrDrop
  /-- Write through an existing place. -/
  | write
  /-- Shared read-only borrow for the evaluation duration. -/
  | borrowRead
  /-- Exclusive writable borrow for the evaluation duration. -/
  | borrowWrite
  deriving DecidableEq, Repr

/-- Persistent borrow stored in a capability local. -/
inductive BorrowKind
  | read
  | write
  deriving DecidableEq, Ord, Repr

/-- One source-mapped place access. -/
structure PlaceAccess where
  place : Place
  kind : AccessKind
  span : Span
  deriving DecidableEq, Repr

/-- A value computation: a plain place, or anything else. -/
inductive MirOperandKind
  | place (place : Place)
  | other
  deriving DecidableEq, Repr

/-- Typed value computation retained independently from memory accesses. -/
structure MirOperand where
  ty : TypeKind
  kind : MirOperandKind
  span : Span
  deriving DecidableEq, Repr

/-! ## Statements, terminators, functions -/

/-- MIR statement. -/
inductive MirStatement
  /-- Begins one local storage lifetime. -/
  | storageLive (slot : LocalId) (span : Span)
  /-- Ends one local storage lifetime. -/
  | storageDead (slot : LocalId) (span : Span)
  /-- Creates one lexical region handle. -/
  | regionEnter (region : LocalId) (span : Span)
  /-- Bulk-releases allocations owned by a lexical region. -/
  | regionExit (region : LocalId) (span : Span)
  /-- Initializes or overwrites a place after evaluating source operands. -/
  | assign (destination : Place) (destinationIndices : List MirOperand) (value : Option MirOperand)
      (accesses : List PlaceAccess) (span : Span)
  /-- Stores a borrow in a capability local.  `preserveValue` keeps a call result
  already stored in the destination. -/
  | borrow (destination : LocalId) (source : Place) (kind : BorrowKind) (preserveValue : Bool)
      (span : Span)
  /-- Deterministically destroys one still-owned move-only place. -/
  | drop (place : Place) (span : Span)
  /-- Evaluates side effects without retaining a result. -/
  | evaluate (value : Option MirOperand) (accesses : List PlaceAccess) (span : Span)
  deriving DecidableEq, Repr

/-- End of one basic block. -/
inductive Terminator
  | goto (target : BasicBlockId) (span : Span)
  | switch (value : Option MirOperand) (discriminant : List PlaceAccess)
      (targets : List BasicBlockId) (otherwise : BasicBlockId) (span : Span)
  /-- Tests one match pattern. -/
  | «match» (value : MirOperand) (accesses : List PlaceAccess) (matched otherwise : BasicBlockId)
      (span : Span)
  /-- Branches on Option/Result success versus early-return residual. -/
  | propagate (value : MirOperand) (accesses : List PlaceAccess)
      (success residual : BasicBlockId) (span : Span)
  | «return» (value : Option MirOperand) (accesses : List PlaceAccess) (span : Span)
  | unreachable (span : Span)
  deriving DecidableEq, Repr

def terminatorAccesses : Terminator → List PlaceAccess
  | .switch _ discriminant _ _ _ => discriminant
  | .match _ accesses _ _ _ => accesses
  | .propagate _ accesses _ _ _ => accesses
  | .return _ accesses _ => accesses
  | .goto _ _ | .unreachable _ => []

/-- The blocks control may continue in; switch targets sorted, each once. -/
def successors : Terminator → List BasicBlockId
  | .goto target _ => [target]
  | .switch _ _ targets otherwise _ => (OrderedSet.ofList (targets ++ [otherwise])).elems
  | .match _ _ matched otherwise _ => [matched, otherwise]
  | .propagate _ _ success residual _ => [success, residual]
  | .return _ _ _ | .unreachable _ => []

/-- One explicit CFG block; its identity is its index. -/
structure BasicBlock where
  statements : List MirStatement
  terminator : Terminator
  deriving DecidableEq, Repr

/-- One MIR local; its identity is its index. -/
structure MirLocal where
  name : String
  ty : TypeKind
  mutable : Bool
  /-- Parameters are initialized on function entry. -/
  isParameter : Bool
  /-- Dedicated temporary carrying a function return value across drop statements. -/
  isReturn : Bool
  /-- Lexical region containing this declaration, if any. -/
  scopeRegion : Option LocalId
  /-- Region that owns the local value allocation, if any. -/
  ownedRegion : Option LocalId
  span : Span
  deriving DecidableEq, Repr

/-- MIR for one function; the entry is block zero. -/
structure MirFunction where
  locals : List MirLocal
  blocks : List BasicBlock
  deriving DecidableEq, Repr

/-- What a path executes: a statement, or a block's terminator. -/
inductive Action
  | statement (statement : MirStatement)
  | terminator (terminator : Terminator)
  deriving DecidableEq, Repr

/-- The accesses an action makes: those of its operands, and of the place it
borrows or drops. -/
def Action.accesses : Action → List PlaceAccess
  | .statement (.assign _ _ _ accesses _) => accesses
  | .statement (.borrow _ source _ _ span) => [⟨source, .borrowRead, span⟩]
  | .statement (.drop place span) => [⟨place, .move, span⟩]
  | .statement (.evaluate _ accesses _) => accesses
  | .statement _ => []
  | .terminator last => terminatorAccesses last

namespace BasicBlock

def actions (block : BasicBlock) : List Action :=
  block.statements.map .statement ++ [.terminator block.terminator]

def flow (block : BasicBlock) : Flow.Block Action := ⟨block.actions, successors block.terminator⟩

variable {block : BasicBlock}

theorem actions_statement {i : ℕ} {statement : MirStatement} :
    block.actions[i]? = some (.statement statement) ↔ block.statements[i]? = some statement := by
  rw [actions, List.getElem?_append]
  split
  · simp
  · rename_i hlength
    rw [List.length_map] at hlength
    rw [List.getElem?_eq_none (by omega : block.statements.length ≤ i)]
    cases i - (block.statements.map Action.statement).length <;> simp

theorem actions_terminator {i : ℕ} {last : Terminator} :
    block.actions[i]? = some (.terminator last) ↔
      i = block.statements.length ∧ last = block.terminator := by
  rw [actions, List.getElem?_append]
  split
  · rename_i hlength
    rw [List.length_map] at hlength
    simp [Nat.ne_of_lt hlength]
  · rename_i hlength
    rw [List.length_map] at hlength ⊢
    by_cases hlast : i = block.statements.length
    · simp [hlast, eq_comm]
    · have hpast : 1 ≤ i - block.statements.length := by omega
      simp [hlast, List.getElem?_eq_none (l := [Action.terminator block.terminator]) hpast]

end BasicBlock

/-- The control-flow graph of a function. -/
def MirFunction.graph (function : MirFunction) : Flow.Graph Action :=
  ⟨function.blocks.map BasicBlock.flow⟩

/-- Every edge of a function leads to one of its blocks. -/
def MirFunction.Closed (function : MirFunction) : Prop :=
  ∀ block ∈ function.blocks, ∀ target ∈ successors block.terminator,
    target < function.blocks.length

instance (function : MirFunction) : Decidable function.Closed :=
  inferInstanceAs (Decidable (∀ block ∈ _, ∀ target ∈ _, _))

variable {function : MirFunction} {b i : ℕ}

namespace MirFunction

theorem graph_blocks_pos (hblocks : function.blocks ≠ []) : 0 < function.graph.blocks.length := by
  simpa [graph, List.length_pos_iff] using hblocks

theorem graph_closed (hclosed : function.Closed) :
    ∀ block ∈ function.graph.blocks, ∀ target ∈ block.successors,
      target < function.graph.blocks.length := by
  intro block hblock target htarget
  obtain ⟨source, hsource, rfl⟩ := List.mem_map.mp hblock
  simpa [graph] using hclosed source hsource target htarget

end MirFunction

theorem MirFunction.blocks_ne_nil_of_at {action : Action} (hat : function.graph.At b i action) :
    function.blocks ≠ [] := by
  rintro hnil
  obtain ⟨block, hblock, -⟩ := hat
  simp [graph, hnil] at hblock

theorem MirFunction.at_iff {block : BasicBlock} {action : Action}
    (hblock : function.blocks[b]? = some block) :
    function.graph.At b i action ↔ block.actions[i]? = some action := by
  have hflow : function.graph.blocks[b]? = some block.flow := by simp [graph, hblock]
  constructor
  · rintro ⟨flow, hflow', haction⟩
    obtain rfl := Option.some.inj (hflow.symm.trans hflow')
    exact haction
  · exact fun haction => ⟨block.flow, hflow, haction⟩

/-- A statement at a position is one of the function's. -/
theorem MirFunction.mem_statements_of_at {statement : MirStatement}
    (hat : function.graph.At b i (.statement statement)) :
    ∃ block ∈ function.blocks, statement ∈ block.statements := by
  obtain ⟨_, hblock, haction⟩ := hat
  obtain ⟨block, hget, rfl⟩ : ∃ block, function.blocks[b]? = some block ∧ block.flow = _ := by
    simpa [graph] using hblock
  have hmem := List.mem_of_getElem? haction
  exact ⟨block, List.mem_of_getElem? hget,
    by simpa [BasicBlock.flow, BasicBlock.actions] using hmem⟩

/-! ## Diagnostics -/

/-- One stable MIR dataflow diagnostic. -/
structure MirError where
  code : String
  span : Span
  message : String
  deriving DecidableEq, Repr

/-- What makes a diagnostic a repetition: its source, start and local. -/
structure ReportKey where
  source : ℕ
  start : ℕ
  root : LocalId
  deriving DecidableEq, Ord, Repr

/-- The diagnostics of one analysis.  A position and local are reported once;
`coherent` says that the keys come from reported errors. -/
structure Diagnostics where
  reported : OrderedSet ReportKey
  errors : List MirError
  coherent : errors = [] → reported = ∅

namespace Diagnostics

def empty : Diagnostics := ⟨∅, [], fun _ => rfl⟩

/-- Reports an error unless its position and local were reported already. -/
def report (diagnostics : Diagnostics) (code : String) (span : Span) (root : LocalId)
    (message : String) : Diagnostics :=
  if (⟨span.source, span.start, root⟩ : ReportKey) ∈ diagnostics.reported then diagnostics
  else
    { reported := diagnostics.reported.insert (⟨span.source, span.start, root⟩ : ReportKey)
      errors := diagnostics.errors ++ [⟨code, span, message⟩]
      coherent := fun h => by simp at h }

/-- No error was reported. -/
def Clean (diagnostics : Diagnostics) : Prop := diagnostics.errors = []

theorem Clean.eq_empty {diagnostics : Diagnostics} (clean : diagnostics.Clean) :
    diagnostics = empty := by
  obtain ⟨reported, errors, coherent⟩ := diagnostics
  obtain rfl : errors = [] := clean
  obtain rfl : reported = ∅ := coherent rfl
  rfl

/-- A report is never clean: either it is new, or its key was reported before. -/
theorem not_clean_report (diagnostics : Diagnostics) (code : String) (span : Span)
    (root : LocalId) (message : String) : ¬ (diagnostics.report code span root message).Clean := by
  unfold report
  split
  · rename_i hmem
    intro hclean
    rw [diagnostics.coherent hclean] at hmem
    exact OrderedSet.not_mem_empty _ hmem
  · simp [Clean]

end Diagnostics

end Jadren.Mir

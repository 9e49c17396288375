import Jadren.Mir.Regions

/-!
# Lowering of control flow

The lowering of a function body to basic blocks, as far as regions see it: the blocks
it makes, the region operations it puts in them and the jumps it ends them with.
Values, types and places are left out; what they decide about control flow is data of
the syntax below (whether an expression is of unit type, how many names a pattern
binds, whether an iterable is supported).

A region is exited where its body has been lowered, in whatever block is current
then.  `break` and `continue` end the current block with a jump and exit nothing: a
region around them is exited in the same block after the jump has been set, if the
block is still current when the region's body ends.  It is not where a branch or a
match arm ended with the jump, since lowering goes on in another block.
`ClosesRegionsBeforeJumps` rules those out.
-/

namespace Jadren.Mir

/-! ## Functions before lowering -/

mutual

/-- An expression, as far as its lowering makes blocks or locals. -/
inductive HirExpression
  /-- Computed where it stands, after its operands. -/
  | operation (operands : List HirExpression)
  /-- The left side of a compound assignment, its indices kept in locals. -/
  | captured (value : HirExpression) (indices : ℕ)
  /-- An owning argument of a buffer call, kept in a local. -/
  | moved (value : HirExpression)
  | block (unit : Bool) (statements : List HirStatement)
  | ifElse (unit : Bool) (condition : HirExpression) (thenBlock : List HirStatement)
      (elseBranch : Option HirExpression)
  | «match» (unit : Bool) (value : HirExpression) (arms : List HirMatchArm)
  /-- `operand?`. -/
  | «try» (operand : HirExpression)

/-- An arm, with the number of names its pattern binds. -/
inductive HirMatchArm
  | arm (bindings : ℕ) (guard : Option HirExpression) (value : HirExpression)

inductive HirStatement
  | binding (value : Option HirExpression)
  | «return» (value : Option HirExpression)
  | region (body : List HirStatement)
  | «while» (condition : HirExpression) (body : List HirStatement)
  /-- A loop over an iterable, which is `supported` if an array, buffer or slice. -/
  | «for» (supported indices : Bool) (iterable : HirExpression) (body : List HirStatement)
  | «break»
  | «continue»
  /-- An expression; `result` where it can be the value of its block. -/
  | expression (result : Bool) (value : HirExpression)

end

/-! ## Blocks under construction -/

/-- Where a block's terminator leads. -/
inductive Jump
  | goto (target : BasicBlockId)
  | switch (targets : List BasicBlockId) (otherwise : BasicBlockId)
  | «match» (matched otherwise : BasicBlockId)
  | propagate (success residual : BasicBlockId)
  | «return»
  | unreachable
  deriving DecidableEq

def Jump.successors : Jump → List BasicBlockId
  | .goto target => [target]
  | .switch targets otherwise => targets ++ [otherwise]
  | .match matched otherwise => [matched, otherwise]
  | .propagate success residual => [success, residual]
  | .return | .unreachable => []

structure PendingBlock where
  events : List RegionEvent
  terminator : Option Jump
  deriving DecidableEq

structure LoopTargets where
  breakBlock : BasicBlockId
  continueBlock : BasicBlockId
  deriving DecidableEq

/-- The lowering's state; locals are numbered in the order they are added. -/
structure Builder where
  locals : ℕ
  blocks : List PendingBlock
  currentBlock : BasicBlockId
  loopTargets : List LoopTargets
  pendingInlineMoveTemporaries : List LocalId
  deriving DecidableEq

namespace Builder

def addLocals (b : Builder) (count : ℕ) : Builder := { b with locals := b.locals + count }

def modifyCurrent (b : Builder) (f : PendingBlock → PendingBlock) : Builder :=
  { b with blocks := b.blocks.modify b.currentBlock f }

def pushEvent (b : Builder) (event : RegionEvent) : Builder :=
  b.modifyCurrent fun block => { block with events := block.events ++ [event] }

def terminate (b : Builder) (jump : Jump) : Builder :=
  b.modifyCurrent fun block => { block with terminator := some jump }

def terminator (b : Builder) : Option Jump :=
  b.blocks[b.currentBlock]?.bind PendingBlock.terminator

def currentTerminated (b : Builder) : Bool := b.terminator.isSome

/-- A new block; its identity is the number of blocks before. -/
def newBlock (b : Builder) : Builder := { b with blocks := b.blocks ++ [⟨[], none⟩] }

def switchTo (b : Builder) (block : BasicBlockId) : Builder := { b with currentBlock := block }

/-- Ends the current block unless it has ended. -/
def finish (b : Builder) (jump : Jump) : Builder :=
  if b.currentTerminated then b else b.terminate jump

def pushLoop (b : Builder) (targets : LoopTargets) : Builder :=
  { b with loopTargets := targets :: b.loopTargets }

def popLoop (b : Builder) : Builder := { b with loopTargets := b.loopTargets.tail }

def addPending (b : Builder) : Builder :=
  { b.addLocals 1 with
    pendingInlineMoveTemporaries := b.pendingInlineMoveTemporaries ++ [b.locals] }

def takePending (b : Builder) : Builder := { b with pendingInlineMoveTemporaries := [] }

/-- The end of a statement. -/
def flush (b : Builder) : Builder := if b.currentTerminated then b else b.takePending

/-- `break` and `continue`. -/
def leave (b : Builder) (target : LoopTargets → BasicBlockId) : Builder :=
  match b.loopTargets with
  | targets :: _ => b.terminate (.goto (target targets))
  | [] => b.terminate .unreachable

/-- Branches on the condition of a `while`, by way of two blocks that end the lifetimes of the
condition's temporaries if it has some. -/
def branch (b : Builder) (body exit : BasicBlockId) : Builder :=
  if b.pendingInlineMoveTemporaries = [] then b.terminate (.switch [body] exit)
  else
    let b := (b.addLocals 1).takePending
    let trueCleanup := b.blocks.length
    let falseCleanup := trueCleanup + 1
    let b := b.newBlock.newBlock.terminate (.switch [trueCleanup] falseCleanup)
    let b := (b.switchTo trueCleanup).terminate (.goto body)
    (b.switchTo falseCleanup).terminate (.goto exit)

end Builder

/-! ## Lowering -/

/-- A block, branch or match that is not of unit type keeps its value in a local. -/
def temporaries (unit : Bool) : ℕ := if unit then 0 else 1

mutual

def lowerValue (b : Builder) : HirExpression → Builder
  | .operation operands => lowerOperands b operands
  | .captured value indices => (lowerValue b value).addLocals indices
  | .moved value => (lowerValue b value).addPending
  | .block unit statements => lowerBlockResult (b.addLocals (temporaries unit)) statements
  | .ifElse unit condition thenBlock elseBranch =>
      let b := lowerValue (b.addLocals (temporaries unit)) condition
      let thenTarget := b.blocks.length
      let elseTarget := thenTarget + 1
      let join := thenTarget + 2
      let b := b.newBlock.newBlock.newBlock.terminate (.switch [thenTarget] elseTarget)
      let b := (lowerBlockResult (b.switchTo thenTarget) thenBlock).finish (.goto join)
      let b := (lowerElse (b.switchTo elseTarget) elseBranch).finish (.goto join)
      b.switchTo join
  | .match unit value arms =>
      let b := (lowerValue b value).addLocals (1 + temporaries unit)
      let join := b.blocks.length
      let b := (lowerArms b.newBlock join arms).finish .unreachable
      b.switchTo join
  | .try operand =>
      let b := (lowerValue b operand).addLocals 2
      let success := b.blocks.length
      let residual := success + 1
      let join := success + 2
      let b := b.newBlock.newBlock.newBlock.terminate (.propagate success residual)
      let b := (b.switchTo success).terminate (.goto join)
      let b := (b.switchTo residual).terminate .return
      b.switchTo join

def lowerOperands (b : Builder) : List HirExpression → Builder
  | [] => b
  | operand :: rest => lowerOperands (lowerValue b operand) rest

def lowerElse (b : Builder) : Option HirExpression → Builder
  | none => b
  | some (.block _ statements) => lowerBlockResult b statements
  | some branch => lowerValue b branch

def lowerArms (b : Builder) (join : BasicBlockId) : List HirMatchArm → Builder
  | [] => b
  | .arm bindings guard value :: rest =>
      let b := b.addLocals bindings
      let matched := b.blocks.length
      let otherwise := matched + 1
      let b := b.newBlock.newBlock.terminate (.match matched otherwise)
      let b := lowerGuard (b.switchTo matched) otherwise guard
      let b := (lowerValue b value).finish (.goto join)
      lowerArms (b.switchTo otherwise) join rest

def lowerGuard (b : Builder) (otherwise : BasicBlockId) : Option HirExpression → Builder
  | none => b
  | some guard =>
      let b := lowerValue b guard
      let body := b.blocks.length
      let guardFailed := body + 1
      let b := b.newBlock.newBlock.terminate (.switch [body] guardFailed)
      let b := (b.switchTo guardFailed).terminate (.goto otherwise)
      b.switchTo body

def lowerStatement (b : Builder) : HirStatement → Builder
  | .binding value => (lowerOptional (b.addLocals 1) value).flush
  | .return value => ((lowerOptional b value).terminate .return).flush
  | .region body =>
      let region := b.locals
      let b := lowerBlock ((b.addLocals 1).pushEvent (.enter region)) body
      (b.pushEvent (.exit region)).flush
  | .while condition body =>
      let head := b.blocks.length
      let bodyTarget := head + 1
      let exit := head + 2
      let b := b.newBlock.newBlock.newBlock.terminate (.goto head)
      let b := (lowerValue (b.switchTo head) condition).branch bodyTarget exit
      let b := lowerBlock ((b.switchTo bodyTarget).pushLoop ⟨exit, head⟩) body
      ((b.popLoop.finish (.goto head)).switchTo exit).flush
  | .for supported indices iterable body =>
      if supported then
        let b := lowerValue (b.addLocals (if indices then 2 else 3)) iterable
        let head := b.blocks.length
        let bodyTarget := head + 1
        let increment := head + 2
        let exit := head + 3
        let b := b.newBlock.newBlock.newBlock.newBlock.terminate (.goto head)
        let b := (b.switchTo head).terminate (.switch [bodyTarget] exit)
        let b := lowerBlock ((b.switchTo bodyTarget).pushLoop ⟨exit, increment⟩) body
        let b := b.popLoop.finish (.goto increment)
        let b := (b.switchTo increment).terminate (.goto head)
        (b.switchTo exit).flush
      else (b.terminate .unreachable).flush
  | .break => (b.leave LoopTargets.breakBlock).flush
  | .continue => (b.leave LoopTargets.continueBlock).flush
  | .expression _ value => (lowerValue b value).flush

def lowerOptional (b : Builder) : Option HirExpression → Builder
  | none => b
  | some value => lowerValue b value

def lowerBlock (b : Builder) : List HirStatement → Builder
  | [] => b
  | statement :: rest =>
      if b.currentTerminated then b else lowerBlock (lowerStatement b statement) rest

/-- A block whose last expression is its value. -/
def lowerBlockResult (b : Builder) : List HirStatement → Builder
  | [] => b
  | [.expression true value] => if b.currentTerminated then b else lowerValue b value
  | statement :: rest =>
      if b.currentTerminated then b else lowerBlockResult (lowerStatement b statement) rest

end

/-! ## Functions -/

structure HirFunction where
  parameters : ℕ
  body : List HirStatement

/-- A block's region operations and where it leads. -/
structure BlockOutline where
  events : List RegionEvent
  jump : Jump
  deriving DecidableEq

def PendingBlock.outline (block : PendingBlock) : BlockOutline :=
  ⟨block.events, block.terminator.getD .unreachable⟩

/-- The builder of a function: one empty block. -/
def Builder.new (parameters : ℕ) : Builder := ⟨parameters, [⟨[], none⟩], 0, [], []⟩

def HirFunction.lower (function : HirFunction) : List BlockOutline :=
  ((lowerBlock (.new function.parameters) function.body).finish .return).blocks.map
    PendingBlock.outline

def Terminator.jump : Terminator → Jump
  | .goto target _ => .goto target
  | .switch _ _ targets otherwise _ => .switch targets otherwise
  | .match _ _ matched otherwise _ => .match matched otherwise
  | .propagate _ _ success residual _ => .propagate success residual
  | .return _ _ _ => .return
  | .unreachable _ => .unreachable

theorem mem_successors_jump {terminator : Terminator} {t : BasicBlockId} :
    t ∈ terminator.jump.successors ↔ t ∈ successors terminator := by
  cases terminator with
  | switch => exact OrderedSet.mem_ofList.symm
  | _ => exact Iff.rfl

def BasicBlock.outline (block : BasicBlock) : BlockOutline :=
  ⟨block.regionEvents, block.terminator.jump⟩

/-- The lowered function has the blocks, region operations and jumps that lowering makes. -/
def HirFunction.LowersTo (hir : HirFunction) (function : MirFunction) : Prop :=
  function.blocks.map BasicBlock.outline = hir.lower

instance (hir : HirFunction) (function : MirFunction) : Decidable (hir.LowersTo function) :=
  inferInstanceAs (Decidable (_ = _))

/-! ## Jumps that leave regions open -/

/-- How the current block has ended when a piece of code has been lowered: not yet, without
successors, or with a jump to its loop. -/
inductive Ending
  | running
  | stopped
  | jumped
  deriving DecidableEq

/-- Lowering goes on in another block, where `regions` regions are open that were entered
since the loop began: a jump would have left them open. -/
def Ending.seal (regions : ℕ) : Ending → Option Ending
  | .jumped => if regions = 0 then some .running else none
  | _ => some .running

mutual

/-- How the current block ends, from how it had ended before; `none` if some branch or match
arm ends with a jump that leaves regions open. -/
def HirExpression.ending (inLoop : Bool) (regions : ℕ) (before : Ending) :
    HirExpression → Option Ending
  | .operation operands => endingOperands inLoop regions before operands
  | .captured value _ | .moved value => value.ending inLoop regions before
  | .block _ statements => endingBlock inLoop regions before statements
  | .ifElse _ condition thenBlock elseBranch =>
      (condition.ending inLoop regions before).bind fun _ =>
        ((endingBlock inLoop regions .running thenBlock).bind (Ending.seal regions)).bind fun _ =>
          (endingOptional inLoop regions elseBranch).bind (Ending.seal regions)
  | .match _ value arms =>
      (value.ending inLoop regions before).bind fun after => endingArms inLoop regions after arms
  | .try operand => (operand.ending inLoop regions before).map fun _ => .running

def endingOperands (inLoop : Bool) (regions : ℕ) (before : Ending) :
    List HirExpression → Option Ending
  | [] => some before
  | operand :: rest =>
      (operand.ending inLoop regions before).bind fun after =>
        endingOperands inLoop regions after rest

def endingOptional (inLoop : Bool) (regions : ℕ) : Option HirExpression → Option Ending
  | none => some .running
  | some value => value.ending inLoop regions .running

def endingArms (inLoop : Bool) (regions : ℕ) (before : Ending) :
    List HirMatchArm → Option Ending
  | [] => before.seal regions
  | .arm _ guard value :: rest =>
      (endingOptional inLoop regions guard).bind fun _ =>
        ((value.ending inLoop regions .running).bind (Ending.seal regions)).bind fun _ =>
          endingArms inLoop regions .running rest

def HirStatement.ending (inLoop : Bool) (regions : ℕ) : HirStatement → Option Ending
  | .binding value => endingOptional inLoop regions value
  | .return value => (endingOptional inLoop regions value).map fun _ => .stopped
  | .region body => endingBlock inLoop (regions + 1) .running body
  | .while condition body =>
      (condition.ending inLoop regions .running).bind fun _ =>
        (endingBlock true 0 .running body).map fun _ => .running
  | .for supported _ iterable body =>
      if supported then
        (iterable.ending inLoop regions .running).bind fun _ =>
          (endingBlock true 0 .running body).map fun _ => .running
      else some .stopped
  | .break | .continue => some (if inLoop then .jumped else .stopped)
  | .expression _ value => value.ending inLoop regions .running

def endingBlock (inLoop : Bool) (regions : ℕ) (before : Ending) :
    List HirStatement → Option Ending
  | [] => some before
  | statement :: rest =>
      if before = .running then
        (statement.ending inLoop regions).bind fun after => endingBlock inLoop regions after rest
      else some before

end

/-- No branch or match arm of the body ends with a `break` or `continue` inside a region that
was entered before the branch and within the loop. -/
def HirFunction.ClosesRegionsBeforeJumps (function : HirFunction) : Prop :=
  endingBlock false 0 .running function.body ≠ none

instance (function : HirFunction) : Decidable function.ClosesRegionsBeforeJumps :=
  inferInstanceAs (Decidable (_ ≠ _))

end Jadren.Mir

import Jadren.Library.Fixpoint
import Jadren.Library.OrderedMap
import Jadren.Library.OrderedSet
import Mathlib.Data.Char
import Mathlib.Data.List.Lex

/-!
# Effect summaries

The effects of the functions of a compiler session.  For every file the calls of its
functions have been collected: those of functions of the file by symbol, those of imported
functions by canonical path.  `buildEffectSummaries` computes the effects of all functions
that have a canonical path; `applyExternalSummaries` computes those of one file from them.

Loops run with a fuel, which `Stages` shows to be enough.
-/

namespace Jadren.Effects

/-- Observable or safety-relevant behavior inferred from a function body. -/
inductive EffectKind
  | read
  | write
  | allocate
  | io
  | blocking
  | atomic
  | unsafeCall
  | panic
  deriving DecidableEq, Repr

instance : Fintype EffectKind where
  elems := {.read, .write, .allocate, .io, .blocking, .atomic, .unsafeCall, .panic}
  complete kind := by cases kind <;> decide

/-- A set of effects; the empty one is pure. -/
abbrev EffectSet := Finset EffectKind

/-- Opaque identity of a symbol of one file. -/
abbrev SymbolId := ℕ

/-- A name, or names with dots between them. -/
abbrev Path := List Char

/-- Direct and transitive effects of one function. -/
structure FunctionEffects where
  symbol : SymbolId
  name : Path
  direct : EffectSet
  inferred : EffectSet
  calls : List SymbolId
  externalCalls : List Path
  deriving DecidableEq

/-- A source file without errors, the calls of its functions collected. -/
structure SourceFile where
  moduleName : Option Path
  functions : List FunctionEffects
  symbols_nodup : (functions.map FunctionEffects.symbol).Nodup
  names_nodup : (functions.map FunctionEffects.name).Nodup
  calls_local : ∀ f ∈ functions, ∀ callee ∈ f.calls,
    callee ∈ functions.map FunctionEffects.symbol

namespace SourceFile

/-- The canonical path of a function of the file; a file that declares no module has none. -/
def pathOf (file : SourceFile) (f : FunctionEffects) : Option Path :=
  file.moduleName.map fun moduleName => moduleName ++ '.' :: f.name

/-- The canonical path of a symbol. -/
def canonicalPath (file : SourceFile) (symbol : SymbolId) : Option Path :=
  (file.functions.find? fun f => f.symbol = symbol).bind file.pathOf

end SourceFile

/-! ## One file -/

/-- The effects of a symbol of the file, at the index of its function. -/
def effectsOf (functions : List FunctionEffects) (previous : List EffectSet) (symbol : SymbolId) :
    Option EffectSet :=
  (functions.findIdx? fun f => f.symbol = symbol).bind fun index => previous[index]?

/-- The direct effects of a function and those of its callees in the file. -/
def localEffects (functions : List FunctionEffects) (previous : List EffectSet)
    (f : FunctionEffects) : EffectSet :=
  f.calls.foldl (fun inferred callee =>
    match effectsOf functions previous callee with
    | some effects => inferred ∪ effects
    | none => inferred) f.direct

/-- The effects of a path with these summaries. -/
def summaryOf (summaries : OrderedMap Path EffectSet) (path : Path) : EffectSet :=
  (summaries.lookup path).getD {.unsafeCall}

/-- Enough rounds for the effects of `count` functions to stop growing. -/
def roundsFor (count : ℕ) : ℕ := count * Fintype.card EffectKind + 1

/-- The loop of `infer_effects_unresolved`. -/
def inferLocal (functions : List FunctionEffects) : Option (List EffectSet) :=
  Loop.run (Fixpoint.round fun previous => functions.map (localEffects functions previous))
    (roundsFor functions.length) (functions.map FunctionEffects.direct)

def inferEffectsUnresolved (functions : List FunctionEffects) : Option (List FunctionEffects) := do
  let inferred ← inferLocal functions
  pure (functions.zipWith (fun f effects => { f with inferred := effects }) inferred)

def applyExternalSummaries (functions : List FunctionEffects)
    (summaries : OrderedMap Path EffectSet) : Option (List FunctionEffects) := do
  let inferred ← Loop.run (Fixpoint.round fun previous => functions.map fun f =>
      f.externalCalls.foldl (fun inferred path => inferred ∪ summaryOf summaries path)
        (localEffects functions previous f))
    (roundsFor functions.length) (functions.map FunctionEffects.direct)
  pure (functions.zipWith (fun f effects => { f with inferred := effects }) inferred)

/-- The effects of a file with these summaries. -/
def effectsOfFile (file : SourceFile) (summaries : OrderedMap Path EffectSet) :
    Option (List FunctionEffects) := do
  let effects ← inferEffectsUnresolved file.functions
  applyExternalSummaries effects summaries

/-! ## All files -/

/-- A function of the session and the canonical paths it calls. -/
structure Node where
  direct : EffectSet
  calls : List Path
  deriving DecidableEq

/-- The node of a function; its calls are sorted and each is there once. -/
def nodeOf (file : SourceFile) (f : FunctionEffects) : Node where
  direct := f.direct
  calls := (OrderedSet.ofList (f.externalCalls ++ f.calls.filterMap file.canonicalPath)).elems

/-- The nodes with those of a file, the functions of which have been analyzed. -/
def addFile (nodes : OrderedMap Path Node) (file : SourceFile) : Option (OrderedMap Path Node) := do
  let analysis ← inferEffectsUnresolved file.functions
  pure (analysis.foldl (fun nodes f => match file.canonicalPath f.symbol with
    | some path => nodes.insert path (nodeOf file f)
    | none => nodes) nodes)

/-- One round for all nodes. -/
def nextSummaries (nodes : OrderedMap Path Node) (summaries : OrderedMap Path EffectSet) :
    OrderedMap Path EffectSet :=
  nodes.mapValues fun _ node =>
    node.calls.foldl (fun effects callee => effects ∪ summaryOf summaries callee) node.direct

def buildEffectSummaries (files : List SourceFile) : Option (OrderedMap Path EffectSet) := do
  let nodes ← files.foldlM addFile ∅
  Loop.run (Fixpoint.round (nextSummaries nodes)) (roundsFor nodes.entries.length)
    (nodes.mapValues fun _ node => node.direct)

end Jadren.Effects

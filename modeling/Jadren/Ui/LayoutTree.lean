import Jadren.Library.Forest
import Jadren.Ui.Interaction
import Mathlib.Data.List.Chain

/-!
# Building the retained layout tree

A backend opens a root, containers and leaves in nested scopes.  Ids are given out in
ascending order, so that a child has a higher id than its parent, and the tree grows by one
last child of the innermost scope at a time: `Wellformed` is what every call keeps.

A call that fails has changed nothing, with one exception.  A container takes its id before the
room for containers is checked, and the id is not given back (`Consumes`).
-/

namespace Jadren.Ui

open Program

/-- Maximum number of retained container nodes and scopes. -/
def maxLayoutNodes : ℕ := 16

/-- Maximum number of children of one container. -/
def maxLayoutChildren : ℕ := 24

def rootMargin : ℤ := 16

def rootPadding : ℤ := 16

def rootGap : ℤ := 12

def minWindowWidth : ℤ := 360

def maxWindowWidth : ℤ := 1600

def minWindowHeight : ℤ := 240

def maxWindowHeight : ℤ := 1000

/-! ## Specifications -/

/-- The result of an operation of the type, which it must hold. -/
def checkedI32 (z : ℤ) : Option ℤ := if i32Min ≤ z ∧ z ≤ i32Max then some z else none

theorem checkedI32_eq {z : ℤ} (hmin : -2 ^ 31 ≤ z) (hmax : z < 2 ^ 31) :
    checkedI32 z = some z := by
  unfold checkedI32 i32Min i32Max
  exact if_pos ⟨hmin, by omega⟩

def clampDimension (value minimum maximum : ℤ) : ℤ := max minimum (min maximum value)

theorem clampDimension_mem {minimum maximum : ℤ} (h : minimum ≤ maximum) (value : ℤ) :
    minimum ≤ clampDimension value minimum maximum ∧
      clampDimension value minimum maximum ≤ maximum := by
  unfold clampDimension
  omega

def normalizeViewport (width height : ℤ) : ℤ × ℤ :=
  (clampDimension width minWindowWidth maxWindowWidth,
    clampDimension height minWindowHeight maxWindowHeight)

inductive Orientation
  /-- Children are stacked from top to bottom. -/
  | column
  /-- Children are placed from left to right. -/
  | row
  deriving DecidableEq

inductive Align
  | start | center | endEdge
  deriving DecidableEq

/-- Geometry and cross-axis policy of a container. -/
structure ContainerSpec where
  width : ℤ
  height : ℤ
  padding : ℤ
  gap : ℤ
  align : Align
  stretch : Bool

def ContainerSpec.normalized (spec : ContainerSpec) : ContainerSpec :=
  { spec with
    width := clampDimension spec.width 1 4000
    height := clampDimension spec.height 1 4000
    padding := clampDimension spec.padding 0 128
    gap := clampDimension spec.gap 0 128 }

structure ChildSpec where
  id : NodeId
  kind : WidgetKind
  eventId : ℤ
  width : ℤ
  height : ℤ
  stretch : Bool

structure NodeSpec where
  id : NodeId
  kind : WidgetKind
  baseRect : Rect
  orientation : Orientation
  padding : ℤ
  gap : ℤ
  align : Align
  stretch : Bool
  children : List ChildSpec

def NodeSpec.new (id : NodeId) (kind : WidgetKind) (baseRect : Rect) (orientation : Orientation)
    (spec : ContainerSpec) : NodeSpec where
  id := id
  kind := kind
  baseRect := baseRect
  orientation := orientation
  padding := spec.padding
  gap := spec.gap
  align := spec.align
  stretch := spec.stretch
  children := []

inductive LayoutError
  | rootAlreadyOpen
  | invalidParent
  | nodeCapacity
  | childCapacity
  | nodeIdCapacity
  | scopeCapacity
  | scopeOrder
  | missingRoot
  | unclosedScopes
  deriving DecidableEq

/-! ## The tree -/

structure LayoutTree where
  baseViewportWidth : ℤ
  baseViewportHeight : ℤ
  nextId : ℕ
  nodeCount : ℕ
  root : Option NodeId
  nodes : NodeId → Option NodeSpec
  /-- The open scopes, the innermost first. -/
  stack : List NodeId

/-- A call that may fail, keeping what it has changed until then. -/
abbrev Building (α : Type) := Program LayoutTree LayoutError α

namespace LayoutTree

def new (viewportWidth viewportHeight : ℤ) : LayoutTree where
  baseViewportWidth := (normalizeViewport viewportWidth viewportHeight).1
  baseViewportHeight := (normalizeViewport viewportWidth viewportHeight).2
  nextId := 1
  nodeCount := 0
  root := none
  nodes := fun _ => none
  stack := []

/-- The tree with one more id taken. -/
def allocated (t : LayoutTree) : LayoutTree := { t with nextId := t.nextId + 1 }

/-- The tree with one more container. -/
def withNode (t : LayoutTree) (node : NodeSpec) : LayoutTree :=
  { t with nodes := Function.update t.nodes node.id (some node), nodeCount := t.nodeCount + 1 }

/-- The tree with one more child of the container. -/
def withChild (t : LayoutTree) (parent : NodeId) (node : NodeSpec) (child : ChildSpec) :
    LayoutTree :=
  { t with
    nodes := Function.update t.nodes parent
      (some { node with children := node.children ++ [child] }) }

/-- The tree with one more open scope. -/
def withScope (t : LayoutTree) (node : NodeId) : LayoutTree := { t with stack := node :: t.stack }

def allocateId : Building NodeId := do
  let t ← get
  failIf (t.nextId > maxNodeId) .nodeIdCapacity
  let id ← demand (NodeId.new t.nextId)
  modify allocated
  pure id

def insertContainer (node : NodeSpec) : Building NodeId := do
  let t ← get
  failIf (t.nodeCount ≥ maxLayoutNodes) .nodeCapacity
  modify (withNode · node)
  pure node.id

def ensureParent (parent : NodeId) : Building Unit := do
  let t ← get
  failIf (t.stack.head? ≠ some parent) .invalidParent

def ensureChildCapacity (parent : NodeId) : Building Unit := do
  let t ← get
  let node ← orFail (t.nodes parent) .invalidParent
  failIf (node.children.length ≥ maxLayoutChildren) .childCapacity

def pushChild (parent : NodeId) (child : ChildSpec) : Building Unit := do
  let t ← get
  let node ← orFail (t.nodes parent) .invalidParent
  failIf (node.children.length ≥ maxLayoutChildren) .childCapacity
  modify (withChild · parent node child)

def pushScope (node : NodeId) : Building Unit := do
  let t ← get
  failIf (t.stack.length ≥ maxLayoutNodes) .scopeCapacity
  modify (withScope · node)

def beginRoot : Building NodeId := do
  let t ← get
  failIf t.root.isSome .rootAlreadyOpen
  let width ← demand (checkedI32 (t.baseViewportWidth - rootMargin * 2))
  let height ← demand (checkedI32 (t.baseViewportHeight - rootMargin * 2))
  let width := clampDimension width 1 4000
  let height := clampDimension height 1 4000
  let rootId ← allocateId
  let root ← insertContainer (.new rootId .root ⟨rootMargin, rootMargin, width, height⟩ .column
    ⟨width, height, rootPadding, rootGap, .start, true⟩)
  modify fun t => { t with root := some root }
  pushScope root
  pure root

def openContainer (parent : NodeId) (kind : WidgetKind) (orientation : Orientation)
    (spec : ContainerSpec) : Building NodeId := do
  ensureParent parent
  ensureChildCapacity parent
  let t ← get
  failIf (t.stack.length ≥ maxLayoutNodes) .scopeCapacity
  let id ← allocateId
  let spec := spec.normalized
  let node := NodeSpec.new id kind ⟨0, 0, spec.width, spec.height⟩ orientation spec
  let inserted ← insertContainer node
  pushChild parent
    ⟨inserted, kind, 0, node.baseRect.width, node.baseRect.height, spec.stretch⟩
  pushScope inserted
  pure inserted

def insertLeaf (parent : NodeId) (kind : WidgetKind) (eventId width height : ℤ)
    (stretch : Bool) : Building NodeId := do
  ensureParent parent
  ensureChildCapacity parent
  let id ← allocateId
  pushChild parent
    ⟨id, kind, eventId, clampDimension width 1 4000, clampDimension height 1 4000, stretch⟩
  pure id

def panel (parent : NodeId) (spec : ContainerSpec) : Building NodeId :=
  openContainer parent .panel .column spec

def row (parent : NodeId) (spec : ContainerSpec) : Building NodeId :=
  openContainer parent .row .row spec

def topBar (parent : NodeId) (spec : ContainerSpec) : Building NodeId :=
  openContainer parent .topBar .row spec

def menu (parent : NodeId) (width height : ℤ) (stretch : Bool) : Building NodeId :=
  insertLeaf parent .menu 0 width height stretch

def label (parent : NodeId) (width height : ℤ) (stretch : Bool) : Building NodeId :=
  insertLeaf parent .label 0 width height stretch

def buttonWithEvent (parent : NodeId) (eventId width height : ℤ) (stretch : Bool) :
    Building NodeId :=
  insertLeaf parent .button eventId width height stretch

def button (parent : NodeId) (width height : ℤ) (stretch : Bool) : Building NodeId :=
  buttonWithEvent parent 0 width height stretch

def textInputWithEvent (parent : NodeId) (eventId width height : ℤ) (stretch : Bool) :
    Building NodeId :=
  insertLeaf parent .textInput eventId width height stretch

def checkboxWithEvent (parent : NodeId) (eventId width height : ℤ) (stretch : Bool) :
    Building NodeId :=
  insertLeaf parent .checkbox eventId width height stretch

def selectWithEvent (parent : NodeId) (eventId width height : ℤ) (stretch : Bool) :
    Building NodeId :=
  insertLeaf parent .select eventId width height stretch

def listWithEvent (parent : NodeId) (eventId width height : ℤ) (stretch : Bool) :
    Building NodeId :=
  insertLeaf parent .list eventId width height stretch

def tableWithEvent (parent : NodeId) (eventId width height : ℤ) (stretch : Bool) :
    Building NodeId :=
  insertLeaf parent .table eventId width height stretch

/-- The end of the innermost scope. -/
def endNode (node : NodeId) : Building Unit := do
  let t ← get
  failIf (t.stack.head? ≠ some node) .scopeOrder
  modify fun t => { t with stack := t.stack.tail }

def runReady (t : LayoutTree) : Except LayoutError Unit :=
  if t.root = none then .error .missingRoot
  else if t.stack ≠ [] then .error .unclosedScopes
  else .ok ()

/-! ## What is built -/

/-- The children of a node, none for a leaf. -/
def childIds (t : LayoutTree) (id : NodeId) : List NodeId :=
  ((t.nodes id).elim [] NodeSpec.children).map ChildSpec.id

/-- The node stands in the tree. -/
def IsNode (t : LayoutTree) (id : NodeId) : Prop := t.root = some id ∨ ∃ p, id ∈ t.childIds p

/-- The tree and its scopes: every node but the root has one parent, in the list of whose children
it stands once, all nodes are below the root, and each open scope is a child of the one
around it. -/
structure IsTree (t : LayoutTree) : Prop where
  isNode : ∀ id, (t.nodes id).isSome → t.IsNode id
  parent : ∀ id, t.IsNode id → t.root ≠ some id → ∃! p, id ∈ t.childIds p
  once : ∀ p, (t.childIds p).Nodup
  root : ∀ r, t.root = some r → ∀ p, r ∉ t.childIds p
  reached : ∀ id, t.IsNode id → ∃ r, t.root = some r ∧ Descends t.childIds r id
  scopes : t.stack.IsChain fun c p => c ∈ t.childIds p
  outermost : ∀ s, t.stack.getLast? = some s → t.root = some s

end LayoutTree

end Jadren.Ui

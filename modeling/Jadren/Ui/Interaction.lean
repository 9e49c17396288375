import Jadren.Library.Chunks
import Jadren.Library.Program
import Mathlib.Algebra.Order.Ring.Int
import Mathlib.Data.List.Induction

/-!
# The pointer state machine of the retained layout

A backend feeds the model pointer transitions against a layout snapshot and polls the events
from a bounded queue.  The queue is an array the entries of which move down by one at a poll;
`Holds` says that it stands for a list.

Every pointer call first moves the hover to the widget under the pointer and then deals with
the press.  What one call does is said once for `syncHover` and once for each call; nothing
later unfolds them.
-/

namespace Jadren.Ui

open Program List

/-- Highest source-level node id. -/
def maxNodeId : ℕ := 127

/-- Maximum number of input events retained between backend polls. -/
def maxUiEvents : ℕ := 32

/-! ## Snapshots -/

/-- Source-level identity of a retained node. -/
structure NodeId where
  raw : ℕ
  pos : 0 < raw
  le : raw ≤ maxNodeId
  deriving DecidableEq

def NodeId.new (raw : ℤ) : Option NodeId :=
  if h : 0 < raw ∧ raw ≤ maxNodeId then some ⟨raw.toNat, by omega, by omega⟩ else none

/-- All node ids in ascending order. -/
def NodeId.all : List NodeId := (range maxNodeId).filterMap fun i => NodeId.new (i + 1)

inductive WidgetKind
  | root | panel | row | topBar | menu | label | button | textInput | checkbox | select | list
  | table
  deriving DecidableEq

def WidgetKind.isInteractive : WidgetKind → Bool
  | button | menu | textInput | checkbox | select | list | table => true
  | _ => false

def i32Min : ℤ := -2 ^ 31

def i32Max : ℤ := 2 ^ 31 - 1

/-- Addition that stops at the bounds of the type. -/
def saturatingAdd (a b : ℤ) : ℤ := max i32Min (min i32Max (a + b))

structure Rect where
  x : ℤ
  y : ℤ
  width : ℤ
  height : ℤ
  deriving DecidableEq

def Rect.contains (r : Rect) (x y : ℤ) : Bool :=
  x ≥ r.x ∧ y ≥ r.y ∧ x < saturatingAdd r.x r.width ∧ y < saturatingAdd r.y r.height

/-- One placed widget. -/
structure Placement where
  id : NodeId
  kind : WidgetKind
  eventId : ℤ
  rect : Rect
  deriving DecidableEq

/-- The result of a layout pass: a placement stands in the place of its id. -/
structure LayoutSnapshot where
  placement : NodeId → Option Placement
  id_eq : ∀ id p, placement id = some p → p.id = id

namespace LayoutSnapshot

/-- The placements in ascending order of their ids. -/
def iter (snapshot : LayoutSnapshot) : List Placement := NodeId.all.filterMap snapshot.placement

/-- The topmost interactive widget under the pointer. -/
def hitTest (snapshot : LayoutSnapshot) (x y : ℤ) : Option Placement :=
  snapshot.iter.reverse.find? fun p => p.kind.isInteractive && p.rect.contains x y

/-- The node is on the snapshot. -/
def Places (snapshot : LayoutSnapshot) (id : NodeId) : Prop := (snapshot.placement id).isSome

instance (snapshot : LayoutSnapshot) (id : NodeId) : Decidable (snapshot.Places id) :=
  inferInstanceAs (Decidable (_ = true))

/-- The node under the pointer. -/
def target (snapshot : LayoutSnapshot) (x y : ℤ) : Option NodeId :=
  (snapshot.hitTest x y).map Placement.id

theorem places_target {snapshot : LayoutSnapshot} {x y : ℤ} :
    ∀ id ∈ snapshot.target x y, snapshot.Places id := by
  intro id hid
  obtain ⟨p, hp, rfl⟩ := Option.map_eq_some_iff.mp hid
  have hmem : p ∈ snapshot.iter := List.mem_reverse.mp (mem_of_find?_eq_some hp)
  obtain ⟨id, -, hplaced⟩ := mem_filterMap.mp hmem
  obtain rfl := snapshot.id_eq id p hplaced
  exact Option.isSome_iff_exists.mpr ⟨p, hplaced⟩

end LayoutSnapshot

/-! ## The model -/

inductive UiEventKind
  | hoverEnter | hoverLeave | pressed | released | clicked | cancelled
  deriving DecidableEq

structure UiEvent where
  target : NodeId
  eventId : ℤ
  kind : UiEventKind
  deriving DecidableEq

inductive InteractionError
  /-- The bounded event queue is full. -/
  | eventCapacity
  /-- A retained node disappeared between layout snapshots. -/
  | targetMissing
  deriving DecidableEq

structure InteractionModel where
  hovered : Option NodeId
  pressed : Option NodeId
  focused : Option NodeId
  events : List (Option UiEvent)
  eventCount : ℕ
  deriving DecidableEq

/-- A call that may fail, keeping what it has changed until then. -/
abbrev Interaction := Program InteractionModel InteractionError Unit

namespace InteractionModel

def new : InteractionModel where
  hovered := none
  pressed := none
  focused := none
  events := replicate maxUiEvents none
  eventCount := 0

/-- The queued events. -/
def queue (m : InteractionModel) : List UiEvent := (m.events.take m.eventCount).filterMap id

def clearEvents (m : InteractionModel) : InteractionModel :=
  { m with events := replicate maxUiEvents none, eventCount := 0 }

/-- The entries from `1` up to the count, each moved down by one place. -/
def shiftEvents (events : List (Option UiEvent)) (eventCount : ℕ) : List (Option UiEvent) :=
  Chunks.moveDown none 1 eventCount events

def pollEvent (m : InteractionModel) : Option UiEvent × InteractionModel :=
  match m.events[0]?.join with
  | none => (none, m)
  | some event =>
    let eventCount := m.eventCount - 1
    let events := (shiftEvents m.events m.eventCount).set eventCount none
    (some event, { m with events := events, eventCount := eventCount })

def hoverTransitionCount (m : InteractionModel) (target : Option NodeId) : ℕ :=
  if m.hovered = target then 0 else m.hovered.isSome.toNat + target.isSome.toNat

/-- The model with one more event in its queue. -/
def push (m : InteractionModel) (event : UiEvent) : InteractionModel :=
  { m with events := m.events.set m.eventCount (some event), eventCount := m.eventCount + 1 }

end InteractionModel

open InteractionModel

def ensureCapacity (additional : ℕ) : Interaction := do
  let m ← get
  failIf (m.eventCount + additional > maxUiEvents) .eventCapacity

def pushEvent (snapshot : LayoutSnapshot) (target : NodeId) (kind : UiEventKind) : Interaction := do
  let placement ← orFail (snapshot.placement target) .targetMissing
  let m ← get
  failIf (m.eventCount ≥ maxUiEvents) .eventCapacity
  modify fun m => m.push { target, eventId := placement.eventId, kind }

/-- The event for the node, if there is a node. -/
def pushFor (snapshot : LayoutSnapshot) (kind : UiEventKind) : Option NodeId → Interaction
  | some target => pushEvent snapshot target kind
  | none => pure ()

def syncHover (snapshot : LayoutSnapshot) (target : Option NodeId) : Interaction := do
  let m ← get
  choose (m.hovered = target) (pure ()) do
    ensureCapacity (m.hoverTransitionCount target)
    pushFor snapshot .hoverLeave m.hovered
    pushFor snapshot .hoverEnter target
    modify fun m => { m with hovered := target }

def pointerMove (snapshot : LayoutSnapshot) (x y : ℤ) : Interaction :=
  syncHover snapshot (snapshot.target x y)

/-- The press that a pointer-down begins at its target. -/
def pressAt (snapshot : LayoutSnapshot) : Option NodeId → Interaction
  | none => modify fun m => { m with pressed := none, focused := none }
  | some target => do
    modify fun m => { m with pressed := some target, focused := some target }
    pushEvent snapshot target .pressed

def pointerDown (snapshot : LayoutSnapshot) (x y : ℤ) : Interaction := do
  let target := snapshot.target x y
  let m ← get
  ensureCapacity (m.hoverTransitionCount target + target.isSome.toNat)
  syncHover snapshot target
  pressAt snapshot target

/-- The end of a press, at the target where the pointer is. -/
def releaseAt (snapshot : LayoutSnapshot) (target : Option NodeId) : Option NodeId → Interaction
  | none => pure ()
  | some pressed => do
    failIf (snapshot.placement pressed = none) .targetMissing
    modify fun m => { m with pressed := none }
    pushEvent snapshot pressed .released
    choose (target = some pressed) (pushEvent snapshot pressed .clicked)
      (pushEvent snapshot pressed .cancelled)

def pointerUp (snapshot : LayoutSnapshot) (x y : ℤ) : Interaction := do
  let target := snapshot.target x y
  let m ← get
  ensureCapacity (m.hoverTransitionCount target + m.pressed.isSome.toNat * 2)
  syncHover snapshot target
  let m ← get
  releaseAt snapshot target m.pressed

def pointerLeave (snapshot : LayoutSnapshot) : Interaction := syncHover snapshot none

/-- The press given up. -/
def cancelPress (snapshot : LayoutSnapshot) : Option NodeId → Interaction
  | none => pure ()
  | some pressed => do
    ensureCapacity 1
    failIf (snapshot.placement pressed = none) .targetMissing
    modify fun m => { m with pressed := none }
    pushEvent snapshot pressed .cancelled

def pointerCancel (snapshot : LayoutSnapshot) : Interaction := do
  let m ← get
  cancelPress snapshot m.pressed

/-! ## What the model stands for -/

/-- The contents of the queue, oldest first, and the nodes with the pointer's attention. -/
structure View where
  queue : List UiEvent
  hovered : Option NodeId
  pressed : Option NodeId
  focused : Option NodeId

/-- The queued events fill the array from its beginning. -/
structure Represents (m : InteractionModel) (v : View) : Prop where
  le : v.queue.length ≤ maxUiEvents
  count : m.eventCount = v.queue.length
  events : m.events = v.queue.map some ++ replicate (maxUiEvents - v.queue.length) none
  hovered : m.hovered = v.hovered
  pressed : m.pressed = v.pressed
  focused : m.focused = v.focused

namespace Represents

variable {m m' : InteractionModel} {v : View}

theorem new : Represents InteractionModel.new ⟨[], none, none, none⟩ :=
  ⟨Nat.zero_le _, rfl, rfl, rfl, rfl, rfl⟩

theorem queue_eq (h : Represents m v) : m.queue = v.queue := by
  unfold InteractionModel.queue
  rw [h.events, h.count, take_left' (length_map some), filterMap_map]
  simp

/-- A view stands for one model only. -/
theorem unique (h : Represents m v) (h' : Represents m' v) : m = m' := by
  obtain ⟨-, hcount, hevents, hhovered, hpressed, hfocused⟩ := h
  obtain ⟨-, hcount', hevents', hhovered', hpressed', hfocused'⟩ := h'
  cases m
  cases m'
  simp_all

theorem push (h : Represents m v) {event : UiEvent} (hroom : v.queue.length < maxUiEvents) :
    Represents (m.push event) { v with queue := v.queue ++ [event] } where
  le := by
    rw [length_append, length_singleton]
    exact hroom
  count := by simp [InteractionModel.push, h.count]
  events := by
    obtain ⟨free, hfree⟩ : ∃ free, maxUiEvents - v.queue.length = free + 1 :=
      ⟨maxUiEvents - v.queue.length - 1, by omega⟩
    have hrest : maxUiEvents - (v.queue ++ [event]).length = free := by
      rw [length_append, length_singleton]
      omega
    have hplace : (v.queue.map some).length = m.eventCount := by rw [length_map, h.count]
    simp only [InteractionModel.push]
    rw [h.events, hfree, hrest, ← hplace, set_append_right _ _ le_rfl, Nat.sub_self,
      replicate_succ, set_cons_zero]
    simp
  hovered := h.hovered
  pressed := h.pressed
  focused := h.focused

theorem clearEvents (h : Represents m v) : Represents m.clearEvents { v with queue := [] } :=
  ⟨Nat.zero_le _, rfl, rfl, h.hovered, h.pressed, h.focused⟩

/-- A poll takes the oldest event and leaves the others in their order. -/
theorem pollEvent (h : Represents m v) : m.pollEvent.1 = v.queue.head? ∧
    Represents m.pollEvent.2 { v with queue := v.queue.tail } := by
  obtain ⟨queue, hovered, pressed, focused⟩ := v
  cases queue with
  | nil =>
      have hempty : m.events[0]?.join = none := by
        rw [h.events]
        rfl
      unfold InteractionModel.pollEvent
      rw [hempty]
      exact ⟨rfl, h⟩
  | cons event queue =>
      have hfirst : m.events[0]?.join = some event := by
        rw [h.events]
        rfl
      have hle : queue.length + 1 ≤ maxUiEvents := h.le
      have hcount : m.eventCount = queue.length + 1 := h.count
      have hlength : m.events.length = maxUiEvents := by
        rw [h.events, length_append, length_map, length_replicate]
        exact Nat.add_sub_of_le h.le
      unfold InteractionModel.pollEvent
      rw [hfirst]
      refine ⟨rfl, by simpa using Nat.le_of_succ_le hle, by simp [hcount], ?_, h.hovered, h.pressed,
        h.focused⟩
      -- the events behind the first move down by one slot
      have hshift : InteractionModel.shiftEvents m.events m.eventCount =
          queue.map some ++ m.events.drop queue.length := by
        unfold InteractionModel.shiftEvents
        rw [hcount, Chunks.moveDown_eq (by omega) (by omega), Nat.add_sub_cancel, h.events]
        congr 1
        simp
      have hfree : m.events.drop (queue.length + 1) =
          replicate (maxUiEvents - (queue.length + 1)) none := by
        rw [h.events]
        exact drop_left' (by simp)
      have hplace : maxUiEvents - queue.length = maxUiEvents - (queue.length + 1) + 1 := by omega
      have hlt : queue.length < m.events.length := by omega
      rw [drop_eq_getElem_cons hlt, hfree] at hshift
      change (InteractionModel.shiftEvents m.events m.eventCount).set (m.eventCount - 1) none =
        queue.map some ++ replicate (maxUiEvents - queue.length) none
      rw [hshift, hcount, Nat.add_sub_cancel, set_append_right _ _ (by simp), length_map,
        Nat.sub_self, set_cons_zero, ← replicate_succ, hplace]

end Represents

end Jadren.Ui

import Jadren.Ui.Interaction

/-!
# What one pointer call does

Each pointer call is compared with a function of the view.  The comparison needs that the nodes
the call has an event for are on its snapshot; a call that the queue has no room for fails before
it reads them, and leaves the model as it was.
-/

namespace Jadren.Ui

open Program

/-- The event for the node, if there is a node and the snapshot has it. -/
def eventsFor (snapshot : LayoutSnapshot) (kind : UiEventKind) (target : Option NodeId) :
    List UiEvent :=
  target.toList.filterMap fun id =>
    (snapshot.placement id).map fun p => { target := id, eventId := p.eventId, kind }

variable {snapshot : LayoutSnapshot} {kind : UiEventKind} {target : Option NodeId}

theorem length_eventsFor_le : (eventsFor snapshot kind target).length ≤ target.isSome.toNat := by
  calc (eventsFor snapshot kind target).length
      ≤ target.toList.length := List.length_filterMap_le _ _
    _ = target.isSome.toNat := by cases target <;> rfl

theorem mem_eventsFor {event : UiEvent} (h : event ∈ eventsFor snapshot kind target) :
    event.kind = kind := by
  obtain ⟨id, -, hid⟩ := List.mem_filterMap.mp h
  obtain ⟨p, -, rfl⟩ := Option.map_eq_some_iff.mp hid
  rfl

theorem eventsFor_some (kind : UiEventKind) {id : NodeId} (h : snapshot.Places id) :
    ∃ event, eventsFor snapshot kind (some id) = [event] ∧ event.target = id ∧
    event.kind = kind := by
  obtain ⟨p, hp⟩ := Option.isSome_iff_exists.mp h
  exact ⟨⟨id, p.eventId, kind⟩, by simp [eventsFor, hp], rfl, rfl⟩

/-! ## The calls on views -/

namespace View

variable (snapshot : LayoutSnapshot) (target : Option NodeId) (v : View)

def emit (events : List UiEvent) : View := { v with queue := v.queue ++ events }

/-- The events of a hover that moves. -/
def hoverEvents : List UiEvent :=
  if v.hovered = target then []
  else eventsFor snapshot .hoverLeave v.hovered ++ eventsFor snapshot .hoverEnter target

def hover : View := { v.emit (v.hoverEvents snapshot target) with hovered := target }

def press : View :=
  { v.emit (eventsFor snapshot .pressed target) with pressed := target, focused := target }

/-- The events of a press that ends with the pointer over the target. -/
def releaseEvents : List UiEvent :=
  eventsFor snapshot .released v.pressed ++
    eventsFor snapshot (if target = v.pressed then .clicked else .cancelled) v.pressed

def release : View := { v.emit (v.releaseEvents snapshot target) with pressed := none }

def cancel : View := { v.emit (eventsFor snapshot .cancelled v.pressed) with pressed := none }

/-- Room the hover takes in the queue. -/
def hoverCost : ℕ :=
  if v.hovered = target then 0 else v.hovered.isSome.toNat + target.isSome.toNat

theorem length_hoverEvents_le : (v.hoverEvents snapshot target).length ≤ v.hoverCost target := by
  unfold hoverEvents hoverCost
  split
  · exact le_rfl
  · rw [List.length_append]
    exact Nat.add_le_add length_eventsFor_le length_eventsFor_le

theorem length_hover_le :
    (v.hover snapshot target).queue.length ≤ v.queue.length + v.hoverCost target := by
  have hle := v.length_hoverEvents_le snapshot target
  simp only [hover, emit, List.length_append]
  omega

end View

/-! ## The functions of the model -/

section Functions

variable {snapshot : LayoutSnapshot} {target : Option NodeId} {kind : UiEventKind}
  {m : InteractionModel} {v : View} {Q : Unit → InteractionModel → Prop}
  {E : InteractionError → InteractionModel → Prop}

variable (h : Represents m v)
include h

theorem Represents.hoverTransitionCount :
    m.hoverTransitionCount target = v.hoverCost target := by
  unfold InteractionModel.hoverTransitionCount View.hoverCost
  rw [h.hovered]

theorem wp_ensureCapacity {additional : ℕ}
    (hE : maxUiEvents < v.queue.length + additional → E .eventCapacity m)
    (hQ : v.queue.length + additional ≤ maxUiEvents → Q () m) :
    wp (ensureCapacity additional) Q E m := by
  refine wp_bind (wp_get (wp_failIf (fun hfull => hE ?_) fun hroom => hQ ?_))
  · rwa [h.count] at hfull
  · rw [h.count] at hroom
    omega

theorem wp_pushFor (hplaced : ∀ id ∈ target, snapshot.Places id)
    (hroom : v.queue.length + target.isSome.toNat ≤ maxUiEvents) :
    wp (pushFor snapshot kind target)
      (fun _ m' => Represents m' (v.emit (eventsFor snapshot kind target))) E m := by
  cases target with
  | none =>
      refine wp_pure ?_
      have hnone : v.emit (eventsFor snapshot kind none) = v := by
        simp [View.emit, eventsFor]
      rwa [hnone]
  | some id =>
      obtain ⟨p, hp⟩ := Option.isSome_iff_exists.mp (hplaced id rfl)
      have hfree : v.queue.length < maxUiEvents := hroom
      have hevents : eventsFor snapshot kind (some id) = [⟨id, p.eventId, kind⟩] := by
        simp [eventsFor, hp]
      refine wp_bind (wp_some hp (wp_bind (wp_get (wp_bind ?_))))
      refine wp_failIf (fun hfull => ?_) fun _ => wp_modify ?_
      · rw [h.count] at hfull
        omega
      · rw [hevents]
        exact h.push hfree

theorem wp_pushEvent {id : NodeId} (hplaced : snapshot.Places id)
    (hroom : v.queue.length < maxUiEvents) :
    wp (pushEvent snapshot id kind)
      (fun _ m' => Represents m' (v.emit (eventsFor snapshot kind (some id)))) E m := by
  have hsome : ∀ i ∈ some id, snapshot.Places i := fun _ hi => Option.some.inj hi ▸ hplaced
  exact wp_pushFor h hsome hroom

/-- The hover moves to the target, or there is no room and nothing changes. -/
theorem wp_syncHover (htarget : ∀ id ∈ target, snapshot.Places id)
    (hplaced : v.queue.length + v.hoverCost target ≤ maxUiEvents → v.hovered ≠ target →
      ∀ id ∈ v.hovered, snapshot.Places id) :
    wp (syncHover snapshot target)
      (fun _ m' => Represents m' (v.hover snapshot target) ∧
        v.queue.length + v.hoverCost target ≤ maxUiEvents)
      (fun e m' => e = .eventCapacity ∧ m' = m ∧ maxUiEvents < v.queue.length + v.hoverCost target)
      m := by
  refine wp_bind (wp_get (wp_choose (fun hsame => wp_pure ?_) fun hmoves => ?_))
  · rw [h.hovered] at hsame
    have hstays : v.hover snapshot target = v := by
      simp [View.hover, View.hoverEvents, View.emit, hsame.symm]
    have hcost : v.hoverCost target = 0 := if_pos hsame
    rw [hstays, hcost]
    exact ⟨h, h.le⟩
  · rw [h.hovered] at hmoves
    have hcost : v.hoverCost target = v.hovered.isSome.toNat + target.isSome.toNat := if_neg hmoves
    refine wp_bind (wp_ensureCapacity h (fun hfull => ?_) fun hroom => ?_)
    · rw [h.hoverTransitionCount] at hfull
      exact ⟨rfl, rfl, hfull⟩
    rw [h.hoverTransitionCount] at hroom
    have hleft : v.queue.length + v.hovered.isSome.toNat ≤ maxUiEvents := by omega
    rw [h.hovered]
    refine wp_then (wp_pushFor h (hplaced hroom hmoves) hleft) fun _ m₁ h₁ => ?_
    have hentered : (v.emit (eventsFor snapshot .hoverLeave v.hovered)).queue.length +
        target.isSome.toNat ≤ maxUiEvents := by
      have hle : (eventsFor snapshot .hoverLeave v.hovered).length ≤ v.hovered.isSome.toNat :=
        length_eventsFor_le
      simp only [View.emit, List.length_append]
      omega
    refine wp_then (wp_pushFor h₁ htarget hentered) fun _ m₂ h₂ => wp_modify ?_
    have hmoved : v.hover snapshot target =
        { (v.emit (eventsFor snapshot .hoverLeave v.hovered)).emit
            (eventsFor snapshot .hoverEnter target) with hovered := target } := by
      simp [View.hover, View.hoverEvents, View.emit, hmoves]
    rw [hmoved]
    exact ⟨⟨h₂.le, h₂.count, h₂.events, rfl, h₂.pressed, h₂.focused⟩, hroom⟩

theorem wp_syncHover_of_room (htarget : ∀ id ∈ target, snapshot.Places id)
    (hroom : v.queue.length + v.hoverCost target ≤ maxUiEvents)
    (hplaced : v.hovered ≠ target → ∀ id ∈ v.hovered, snapshot.Places id) :
    wp (syncHover snapshot target) (fun _ m' => Represents m' (v.hover snapshot target)) E m := by
  refine wp_mono (wp_syncHover h htarget fun _ => hplaced) (fun _ _ h' => h'.1) ?_
  intro e m' hfail
  exact absurd hfail.2.2 (by omega)

/-- A hover cannot move away from a node that is not on the snapshot; nothing changes. -/
theorem wp_syncHover_missing (hmissing : ∃ id ∈ v.hovered, ¬ snapshot.Places id)
    (hmoves : v.hovered ≠ target) (hroom : v.queue.length + v.hoverCost target ≤ maxUiEvents) :
    wp (syncHover snapshot target) (fun _ _ => False)
    (fun e m' => e = .targetMissing ∧ m' = m) m := by
  obtain ⟨id, hid, hmissing⟩ := hmissing
  refine wp_bind (wp_get (wp_choose (fun hsame => ?_) fun _ => ?_))
  · exact absurd (h.hovered.symm.trans hsame) hmoves
  refine wp_bind (wp_ensureCapacity h (fun hfull => ?_) fun _ => ?_)
  · rw [h.hoverTransitionCount] at hfull
    omega
  rw [h.hovered, hid]
  refine wp_bind (wp_bind (wp_orFail (fun _ => ⟨rfl, rfl⟩) fun placement hsome => ?_))
  exact absurd (Option.isSome_of_mem hsome) hmissing

theorem wp_pressAt (htarget : ∀ id ∈ target, snapshot.Places id)
    (hroom : v.queue.length + target.isSome.toNat ≤ maxUiEvents) :
    wp (pressAt snapshot target) (fun _ m' => Represents m' (v.press snapshot target)) E m := by
  cases target with
  | none =>
      refine wp_modify ?_
      have hnone : v.press snapshot none = { v with pressed := none, focused := none } := by
        simp [View.press, View.emit, eventsFor]
      rw [hnone]
      exact ⟨h.le, h.count, h.events, h.hovered, rfl, rfl⟩
  | some id =>
      have h₁ : Represents { m with pressed := some id, focused := some id }
          { v with pressed := some id, focused := some id } :=
        ⟨h.le, h.count, h.events, h.hovered, rfl, rfl⟩
      exact wp_bind (wp_modify (wp_pushEvent h₁ (htarget id rfl) hroom))

omit h

theorem wp_releaseAt (target : Option NodeId) (h : Represents m v)
    (hplaced : ∀ id ∈ v.pressed, snapshot.Places id)
    (hroom : v.queue.length + v.pressed.isSome.toNat * 2 ≤ maxUiEvents) :
    wp (releaseAt snapshot target v.pressed)
      (fun _ m' => Represents m' (v.release snapshot target)) E m := by
  obtain ⟨queue, hovered, pressed, focused⟩ := v
  cases pressed with
  | none =>
      refine wp_pure ?_
      have hnone : View.release snapshot target ⟨queue, hovered, none, focused⟩ =
          ⟨queue, hovered, none, focused⟩ := by
        simp [View.release, View.releaseEvents, View.emit, eventsFor]
      rwa [hnone]
  | some id =>
      have hid : snapshot.Places id := hplaced id rfl
      have hfree : queue.length + 2 ≤ maxUiEvents := hroom
      have h₁ : Represents { m with pressed := none } ⟨queue, hovered, none, focused⟩ :=
        ⟨h.le, h.count, h.events, h.hovered, rfl, h.focused⟩
      obtain ⟨event, hevent, -, -⟩ := eventsFor_some .released hid
      refine wp_bind (wp_failIf (fun hnone => ?_) fun _ => wp_bind (wp_modify ?_))
      · -- the node is on the snapshot
        simp [LayoutSnapshot.Places, hnone] at hid
      · refine wp_then (wp_pushEvent h₁ hid (by simp; omega)) fun _ m₂ h₂ => ?_
        have hlast : (View.emit ⟨queue, hovered, none, focused⟩
            (eventsFor snapshot .released (some id))).queue.length < maxUiEvents := by
          simp only [View.emit, hevent, List.length_append, List.length_singleton]
          omega
        simp only [View.release, View.releaseEvents]
        refine wp_choose (fun hover => ?_) fun hover => ?_
        · rw [if_pos hover, View.emit, ← List.append_assoc]
          exact wp_pushEvent h₂ hid hlast
        · rw [if_neg hover, View.emit, ← List.append_assoc]
          exact wp_pushEvent h₂ hid hlast

include h

theorem wp_cancelPress
    (hplaced : v.queue.length + v.pressed.isSome.toNat ≤ maxUiEvents →
      ∀ id ∈ v.pressed, snapshot.Places id) :
    wp (cancelPress snapshot v.pressed)
      (fun _ m' => Represents m' (v.cancel snapshot) ∧
        v.queue.length + v.pressed.isSome.toNat ≤ maxUiEvents)
      (fun e m' => e = .eventCapacity ∧ m' = m ∧
        maxUiEvents < v.queue.length + v.pressed.isSome.toNat) m := by
  obtain ⟨queue, hovered, pressed, focused⟩ := v
  cases pressed with
  | none =>
      refine wp_pure ?_
      have hnone : View.cancel snapshot ⟨queue, hovered, none, focused⟩ =
          ⟨queue, hovered, none, focused⟩ := by
        simp [View.cancel, View.emit, eventsFor]
      rw [hnone]
      exact ⟨h, h.le⟩
  | some id =>
      refine wp_bind (wp_ensureCapacity h (fun hfull => ⟨rfl, rfl, hfull⟩) fun hroom => ?_)
      have hid : snapshot.Places id := hplaced hroom id rfl
      have h₁ : Represents { m with pressed := none } ⟨queue, hovered, none, focused⟩ :=
        ⟨h.le, h.count, h.events, h.hovered, rfl, h.focused⟩
      refine wp_bind (wp_failIf (fun hnone => ?_) fun _ => wp_bind (wp_modify ?_))
      · simp [LayoutSnapshot.Places, hnone] at hid
      · exact wp_mono (wp_pushEvent h₁ hid hroom) (fun _ _ h' => ⟨h', hroom⟩) fun _ _ h' => h'

end Functions

end Jadren.Ui

import Jadren.Library.Brackets
import Jadren.Library.Transition
import Jadren.Ui.PointerCalls

/-!
# Runs of the pointer state machine

A session is the model together with the stream of all events it has emitted and those that have
left its queue, polled or dropped.  In every run whose calls are served the presses of the stream
and its hovers are brackets that do not overlap, the events leave in the order in which they were
emitted, and a call that fails changes nothing and succeeds once the queue is drained.

A call is not served if the queue has room for its events but it would end the hover or the press
of a node that is not on its snapshot, or begin a press while one is held.
-/

namespace Jadren.Ui

open Program List

/-! ## Calls -/

inductive PointerCall
  | move (snapshot : LayoutSnapshot) (x y : ℤ)
  | down (snapshot : LayoutSnapshot) (x y : ℤ)
  | up (snapshot : LayoutSnapshot) (x y : ℤ)
  | leave (snapshot : LayoutSnapshot)
  | cancel (snapshot : LayoutSnapshot)

/-- The node whose hover ends is on the snapshot. -/
def HoverPlaced (snapshot : LayoutSnapshot) (hovered target : Option NodeId) : Prop :=
  hovered ≠ target → ∀ id ∈ hovered, snapshot.Places id

namespace PointerCall

def run : PointerCall → Interaction
  | move snapshot x y => pointerMove snapshot x y
  | down snapshot x y => pointerDown snapshot x y
  | up snapshot x y => pointerUp snapshot x y
  | leave snapshot => pointerLeave snapshot
  | cancel snapshot => pointerCancel snapshot

/-- The events the call needs room for. -/
def required (m : InteractionModel) : PointerCall → ℕ
  | move snapshot x y => m.hoverTransitionCount (snapshot.target x y)
  | down snapshot x y =>
    m.hoverTransitionCount (snapshot.target x y) + (snapshot.target x y).isSome.toNat
  | up snapshot x y => m.hoverTransitionCount (snapshot.target x y) + m.pressed.isSome.toNat * 2
  | leave _ => m.hoverTransitionCount none
  | cancel _ => m.pressed.isSome.toNat

/-- The queue has room for the events of the call. -/
def Fits (m : InteractionModel) (call : PointerCall) : Prop :=
  m.eventCount + call.required m ≤ maxUiEvents

/-- The nodes whose hover or press the call ends are on its snapshot, and it begins no press
while one is held. -/
def Ready (m : InteractionModel) : PointerCall → Prop
  | move snapshot x y => HoverPlaced snapshot m.hovered (snapshot.target x y)
  | down snapshot x y => HoverPlaced snapshot m.hovered (snapshot.target x y) ∧ m.pressed = none
  | up snapshot x y => HoverPlaced snapshot m.hovered (snapshot.target x y) ∧
      ∀ id ∈ m.pressed, snapshot.Places id
  | leave snapshot => HoverPlaced snapshot m.hovered none
  | cancel snapshot => ∀ id ∈ m.pressed, snapshot.Places id

/-- The call is ready, or the queue is too full for it. -/
def Served (m : InteractionModel) (call : PointerCall) : Prop := call.Fits m → call.Ready m

/-- What the call does to the view. -/
def apply (v : View) : PointerCall → View
  | move snapshot x y => v.hover snapshot (snapshot.target x y)
  | down snapshot x y =>
    (v.hover snapshot (snapshot.target x y)).press snapshot (snapshot.target x y)
  | up snapshot x y =>
    (v.hover snapshot (snapshot.target x y)).release snapshot (snapshot.target x y)
  | leave snapshot => v.hover snapshot none
  | cancel snapshot => v.cancel snapshot

variable {m : InteractionModel} {v : View}

/-- No call needs more room than an empty queue has. -/
theorem fits_of_empty (call : PointerCall) : call.Fits m.clearEvents := by
  have hflag : ∀ {α : Type} (o : Option α), o.isSome.toNat ≤ 1 := fun o => Bool.toNat_le o.isSome
  have hhover : ∀ target, m.clearEvents.hoverTransitionCount target ≤ 2 := by
    intro target
    unfold InteractionModel.hoverTransitionCount
    have h₁ := hflag m.clearEvents.hovered
    have h₂ := hflag target
    split <;> omega
  have hcount : m.clearEvents.eventCount = 0 := rfl
  unfold Fits
  rw [hcount, maxUiEvents]
  cases call with
  | move | leave => exact (Nat.zero_add _).le.trans ((hhover _).trans (by omega))
  | down snapshot x y =>
      have h₁ := hhover (snapshot.target x y)
      have h₂ := hflag (snapshot.target x y)
      simp only [required]
      omega
  | up snapshot x y =>
      have h₁ := hhover (snapshot.target x y)
      have h₂ := hflag m.clearEvents.pressed
      simp only [required]
      omega
  | cancel =>
      have h₂ := hflag m.clearEvents.pressed
      simp only [required]
      omega

/-- A call that is served does what it does to the view, or fails for want of room. -/
theorem wp_run (h : Represents m v) {call : PointerCall} (hserved : call.Served m) :
    wp call.run (fun _ m' => Represents m' (call.apply v) ∧ call.Fits m)
      (fun e m' => e = .eventCapacity ∧ m' = m ∧ ¬ call.Fits m) m := by
  have hfits : call.Fits m ↔ v.queue.length + call.required m ≤ maxUiEvents := by
    unfold Fits
    rw [h.count]
  rw [hfits]
  have hready := fun hroom => hserved (hfits.mpr hroom)
  -- a hover that is all there is to the call
  have hover_only : ∀ {snapshot : LayoutSnapshot} {target : Option NodeId},
      (∀ id ∈ target, snapshot.Places id) →
      (v.queue.length + v.hoverCost target ≤ maxUiEvents →
        HoverPlaced snapshot v.hovered target) →
      wp (syncHover snapshot target)
        (fun _ m' => Represents m' (v.hover snapshot target) ∧
          v.queue.length + v.hoverCost target ≤ maxUiEvents)
        (fun e m' => e = .eventCapacity ∧ m' = m ∧
          ¬ v.queue.length + v.hoverCost target ≤ maxUiEvents) m := by
    intro snapshot target htarget hplaced
    refine wp_mono (wp_syncHover h htarget hplaced) (fun _ _ h' => h') ?_
    exact fun e m' h' => ⟨h'.1, h'.2.1, by omega⟩
  cases call with
  | move =>
      simp only [required, Ready, h.hoverTransitionCount, h.hovered] at hready ⊢
      exact hover_only LayoutSnapshot.places_target hready
  | leave =>
      simp only [required, Ready, h.hoverTransitionCount, h.hovered] at hready ⊢
      exact hover_only (fun _ hid => absurd hid (by simp)) hready
  | down snapshot x y =>
      simp only [required, Ready, h.hoverTransitionCount, h.hovered] at hready ⊢
      have htarget := snapshot.places_target (x := x) (y := y)
      refine wp_bind (wp_get (wp_bind (wp_ensureCapacity h ?_ ?_)))
      · intro hfull
        rw [h.hoverTransitionCount] at hfull
        exact ⟨rfl, rfl, by omega⟩
      · intro hroom
        rw [h.hoverTransitionCount] at hroom
        have hplaced := (hready hroom).1
        refine wp_then (wp_syncHover_of_room h htarget (by omega) hplaced) fun _ m₁ h₁ => ?_
        have hle := v.length_hover_le snapshot (snapshot.target x y)
        have hpress := wp_pressAt (E := fun _ _ => False) h₁ htarget (by omega)
        exact wp_mono hpress (fun _ _ h' => ⟨h', hroom⟩) fun _ _ h' => h'.elim
  | up snapshot x y =>
      simp only [required, Ready, h.hoverTransitionCount, h.hovered, h.pressed] at hready ⊢
      have htarget := snapshot.places_target (x := x) (y := y)
      refine wp_bind (wp_get (wp_bind (wp_ensureCapacity h ?_ ?_)))
      · intro hfull
        rw [h.hoverTransitionCount, h.pressed] at hfull
        exact ⟨rfl, rfl, by omega⟩
      · intro hroom
        rw [h.hoverTransitionCount, h.pressed] at hroom
        have hplaced := (hready hroom).1
        refine wp_then (wp_syncHover_of_room h htarget (by omega) hplaced) fun _ m₁ h₁ => ?_
        have hle := v.length_hover_le snapshot (snapshot.target x y)
        refine wp_bind (wp_get ?_)
        rw [h₁.pressed]
        have hpressed : (v.hover snapshot (snapshot.target x y)).pressed = v.pressed := rfl
        have hrelease := wp_releaseAt (E := fun _ _ => False) (snapshot.target x y) h₁
          (hready hroom).2 (by rw [hpressed]; omega)
        exact wp_mono hrelease (fun _ _ h' => ⟨h', hroom⟩) fun _ _ h' => h'.elim
  | cancel =>
      simp only [required, Ready, h.pressed] at hready ⊢
      refine wp_bind (wp_get ?_)
      rw [h.pressed]
      refine wp_mono (wp_cancelPress h hready) (fun _ _ h' => h') ?_
      exact fun e m' h' => ⟨h'.1, h'.2.1, by omega⟩

/-- The hover that the call moves away, or the press that it gives up, is of a node that is not on
its snapshot. -/
def Missing (m : InteractionModel) : PointerCall → Prop
  | move snapshot x y | down snapshot x y | up snapshot x y =>
      ¬ HoverPlaced snapshot m.hovered (snapshot.target x y)
  | leave snapshot => ¬ HoverPlaced snapshot m.hovered none
  | cancel snapshot => ∃ id ∈ m.pressed, ¬ snapshot.Places id

/-- Such a call fails and leaves the model as it was. -/
theorem wp_run_missing (h : Represents m v) {call : PointerCall} (hfits : call.Fits m)
    (hmissing : call.Missing m) :
    wp call.run (fun _ _ => False) (fun e m' => e = .targetMissing ∧ m' = m) m := by
  have hmoved : ∀ {snapshot : LayoutSnapshot} {target : Option NodeId},
      ¬ HoverPlaced snapshot m.hovered target → m.eventCount + m.hoverTransitionCount target ≤
        maxUiEvents → wp (syncHover snapshot target) (fun _ _ => False)
          (fun e m' => e = .targetMissing ∧ m' = m) m := by
    intro snapshot target hnot hroom
    simp only [HoverPlaced, h.hovered] at hnot
    push Not at hnot
    obtain ⟨hmoves, hmissing⟩ := hnot
    exact wp_syncHover_missing h hmissing hmoves (by rwa [h.count, h.hoverTransitionCount] at hroom)
  have hensured : ∀ {additional : ℕ} {next : Unit → Interaction},
      m.eventCount + additional ≤ maxUiEvents → wp (next ()) (fun _ _ => False)
        (fun e m' => e = .targetMissing ∧ m' = m) m → wp (ensureCapacity additional >>= next)
          (fun _ _ => False) (fun e m' => e = .targetMissing ∧ m' = m) m := by
    intro additional next hroom hnext
    rw [h.count] at hroom
    exact wp_bind (wp_ensureCapacity h (fun hfull => by omega) fun _ => hnext)
  unfold Fits at hfits
  cases call with
  | move | leave => exact hmoved hmissing hfits
  | down | up =>
      refine wp_bind (wp_get (hensured hfits (wp_bind ?_)))
      exact wp_mono (hmoved hmissing (by simp only [required] at hfits; omega))
        (fun _ _ hfalse => hfalse.elim) fun _ _ hfails => hfails
  | cancel =>
      obtain ⟨id, hid, hmissing⟩ := hmissing
      have hpressed : m.pressed = some id := hid
      refine wp_bind (wp_get ?_)
      rw [required, hpressed] at hfits
      rw [hpressed]
      refine hensured hfits ?_
      refine wp_bind (wp_failIf (fun _ => ⟨rfl, rfl⟩) fun hsome => ?_)
      exact absurd (Option.isSome_iff_ne_none.mpr hsome) hmissing

end PointerCall

/-! ## The stream of events -/

/-- The target of an event of one of the kinds. -/
def targetOf (kinds : List UiEventKind) (event : UiEvent) : Option NodeId :=
  if event.kind ∈ kinds then some event.target else none

section Events

variable {opening closing : List UiEventKind} {stream : List UiEvent} {snapshot : LayoutSnapshot}
  (kind : UiEventKind) {o target : Option NodeId}

/-- Events of other kinds leave open what was. -/
theorem leaves_eventsFor (h : Leaves (targetOf opening) (targetOf closing) stream o)
    (ho : kind ∉ opening) (hc : kind ∉ closing) :
    Leaves (targetOf opening) (targetOf closing) (stream ++ eventsFor snapshot kind target) o := by
  refine h.quiet fun event hevent => ?_
  have hkind := mem_eventsFor hevent
  unfold targetOf
  rw [hkind, if_neg ho, if_neg hc]
  exact ⟨rfl, rfl⟩

theorem leaves_eventsFor_opening (h : Leaves (targetOf opening) (targetOf closing) stream none)
    (hplaced : ∀ id ∈ target, snapshot.Places id) (ho : kind ∈ opening) (hc : kind ∉ closing) :
    Leaves (targetOf opening) (targetOf closing) (stream ++ eventsFor snapshot kind target)
      target := by
  cases target with
  | none => simpa [eventsFor] using h
  | some id =>
      obtain ⟨event, hevents, rfl, rfl⟩ := eventsFor_some kind (hplaced id rfl)
      rw [hevents]
      exact h.opening (if_pos ho) (if_neg hc)

theorem leaves_eventsFor_closing (h : Leaves (targetOf opening) (targetOf closing) stream target)
    (hplaced : ∀ id ∈ target, snapshot.Places id) (ho : kind ∉ opening) (hc : kind ∈ closing) :
    Leaves (targetOf opening) (targetOf closing) (stream ++ eventsFor snapshot kind target)
      none := by
  cases target with
  | none => simpa [eventsFor] using h
  | some id =>
      obtain ⟨event, hevents, rfl, rfl⟩ := eventsFor_some kind (hplaced id rfl)
      rw [hevents]
      exact h.closing (if_neg ho) (if_pos hc)

end Events

/-- The stream leaves open the hover of the one node and the press of the other. -/
structure Tracks (stream : List UiEvent) (hovered pressed : Option NodeId) : Prop where
  hover : Leaves (targetOf [.hoverEnter]) (targetOf [.hoverLeave]) stream hovered
  press : Leaves (targetOf [.pressed]) (targetOf [.clicked, .cancelled]) stream pressed

namespace Tracks

variable {stream : List UiEvent} {snapshot : LayoutSnapshot} {v : View} {target : Option NodeId}

theorem hoverEvents (h : Tracks stream v.hovered v.pressed)
    (hplaced : HoverPlaced snapshot v.hovered target)
    (htarget : ∀ id ∈ target, snapshot.Places id) :
    Tracks (stream ++ v.hoverEvents snapshot target) target v.pressed := by
  unfold View.hoverEvents
  split
  next hsame =>
    rw [append_nil, ← hsame]
    exact h
  next hmoves =>
    rw [← append_assoc]
    constructor
    · have hleft := leaves_eventsFor_closing .hoverLeave h.hover (hplaced hmoves)
        (by decide) (by decide)
      exact leaves_eventsFor_opening _ hleft htarget (by decide) (by decide)
    · apply leaves_eventsFor .hoverEnter _ (by decide) (by decide)
      exact leaves_eventsFor .hoverLeave h.press (by decide) (by decide)

theorem pressed (h : Tracks stream v.hovered none) (htarget : ∀ id ∈ target, snapshot.Places id) :
    Tracks (stream ++ eventsFor snapshot .pressed target) v.hovered target where
  hover := leaves_eventsFor _ h.hover (by decide) (by decide)
  press := leaves_eventsFor_opening _ h.press htarget (by decide) (by decide)

theorem cancelled (h : Tracks stream v.hovered v.pressed)
    (hplaced : ∀ id ∈ v.pressed, snapshot.Places id) :
    Tracks (stream ++ eventsFor snapshot .cancelled v.pressed) v.hovered none where
  hover := leaves_eventsFor _ h.hover (by decide) (by decide)
  press := leaves_eventsFor_closing _ h.press hplaced (by decide) (by decide)

theorem releaseEvents (h : Tracks stream v.hovered v.pressed)
    (hplaced : ∀ id ∈ v.pressed, snapshot.Places id) :
    Tracks (stream ++ v.releaseEvents snapshot target) v.hovered none := by
  unfold View.releaseEvents
  rw [← append_assoc]
  have hreleased : Tracks (stream ++ eventsFor snapshot .released v.pressed) v.hovered v.pressed :=
    ⟨leaves_eventsFor _ h.hover (by decide) (by decide),
      leaves_eventsFor _ h.press (by decide) (by decide)⟩
  split
  · exact ⟨leaves_eventsFor _ hreleased.hover (by decide) (by decide),
      leaves_eventsFor_closing _ hreleased.press hplaced (by decide) (by decide)⟩
  · exact hreleased.cancelled hplaced

end Tracks

/-- A ready call adds events to the queue that keep track of what it hovers and presses. -/
theorem PointerCall.tracks {m : InteractionModel} {v : View} {stream : List UiEvent}
    (h : Represents m v) {call : PointerCall} (hready : call.Ready m)
    (htracks : Tracks stream v.hovered v.pressed) :
    ∃ events, (call.apply v).queue = v.queue ++ events ∧
      Tracks (stream ++ events) (call.apply v).hovered (call.apply v).pressed := by
  cases call with
  | move =>
      simp only [Ready, h.hovered] at hready
      exact ⟨_, rfl, htracks.hoverEvents hready LayoutSnapshot.places_target⟩
  | leave =>
      simp only [Ready, h.hovered] at hready
      exact ⟨_, rfl, htracks.hoverEvents hready fun _ hid => absurd hid (by simp)⟩
  | down snapshot x y =>
      simp only [Ready, h.hovered, h.pressed] at hready
      have htarget := snapshot.places_target (x := x) (y := y)
      have hhover := htracks.hoverEvents hready.1 htarget
      rw [hready.2] at hhover
      refine ⟨_, append_assoc .., ?_⟩
      rw [← append_assoc]
      exact hhover.pressed (v := v.hover snapshot _) htarget
  | up snapshot =>
      simp only [Ready, h.hovered, h.pressed] at hready
      have hhover := htracks.hoverEvents hready.1 LayoutSnapshot.places_target
      refine ⟨_, append_assoc .., ?_⟩
      rw [← append_assoc]
      exact hhover.releaseEvents (v := v.hover snapshot _) hready.2
  | cancel =>
      simp only [Ready, h.pressed] at hready
      exact ⟨_, rfl, htracks.cancelled hready⟩

/-! ## Sessions -/

/-- How an event leaves the queue. -/
inductive Exit
  | polled
  | cleared
  deriving DecidableEq

structure Session where
  model : InteractionModel
  /-- All events that calls have added to the queue. -/
  emitted : List UiEvent
  /-- The events that have left the queue. -/
  departed : List (UiEvent × Exit)

inductive Call
  | pointer (call : PointerCall)
  | pollEvent
  | clearEvents

namespace Session

def new : Session := ⟨.new, [], []⟩

/-- The session after a call.  What a pointer call emits are the events it adds to the queue. -/
def after (s : Session) : Call → Session
  | .pointer call =>
    match call.run s.model with
    | none => s
    | some (_, m) =>
      { s with model := m, emitted := s.emitted ++ m.queue.drop s.model.queue.length }
  | .pollEvent =>
    { s with
      model := s.model.pollEvent.2
      departed := s.departed ++ s.model.pollEvent.1.toList.map fun event => (event, .polled) }
  | .clearEvents =>
    { s with
      model := s.model.clearEvents
      departed := s.departed ++ s.model.queue.map fun event => (event, .cleared) }

/-- What is promised of a session, the calls that fail being among the allowed ones. -/
structure Orderly (allowed : InteractionModel → PointerCall → Prop) (s : Session) : Prop where
  /-- A press is closed by one click or cancellation of its node before the next one, and there
  is no click or cancellation without it. -/
  presses : Bracketed (targetOf [.pressed]) (targetOf [.clicked, .cancelled]) s.emitted
  /-- So are the hovers. -/
  hovers : Bracketed (targetOf [.hoverEnter]) (targetOf [.hoverLeave]) s.emitted
  /-- Events leave the queue in the order of their emission, none lost or duplicated. -/
  delivered : s.emitted = s.departed.map Prod.fst ++ s.model.queue
  /-- A poll gives the oldest event. -/
  oldest : s.model.pollEvent.1 = s.model.queue.head?
  /-- A call that fails leaves the model as it was. -/
  unchanged : ∀ call e m, allowed s.model call → call.run s.model = some (.error e, m) →
    m = s.model
  /-- Once all events are polled, or dropped, it succeeds. -/
  unblocked : ∀ call e m, allowed s.model call → call.run s.model = some (.error e, m) →
    let drained := (fun m => m.pollEvent.2)^[s.model.queue.length] s.model
    drained = s.model.clearEvents ∧
      (allowed drained call → ∃ m', call.run drained = some (.ok (), m'))

end Session

/-- The sessions of one model. -/
def interactions : System Call where
  State := Session
  initial s := s = .new
  step s call s' := ∃ c, call = some c ∧ s' = s.after c

theorem reachable_new {allowed : Session → Option Call → Session → Prop} :
    (interactions.restrict allowed).Reachable Session.new := ⟨[], .start rfl⟩

theorem reachable_after {allowed : Session → Option Call → Session → Prop} {s : Session}
    (h : (interactions.restrict allowed).Reachable s) {call : Call}
    (hallowed : allowed s (some call) (s.after call)) :
    (interactions.restrict allowed).Reachable (s.after call) := by
  obtain ⟨trace, run⟩ := h
  exact ⟨_, run.step ⟨⟨call, rfl, rfl⟩, hallowed⟩⟩

/-- Pointer calls that are served, polls and clears. -/
def ServedCall (s : Session) : Option Call → Session → Prop
  | some (.pointer call), _ => call.Served s.model
  | _, _ => True

namespace Session

variable {s : Session} {m : InteractionModel} {v : View}

/-- The view the model stands for, what it tracks and where the events of the stream are. -/
structure Kept (s : Session) (v : View) : Prop where
  represents : Represents s.model v
  tracks : Tracks s.emitted v.hovered v.pressed
  delivered : s.emitted = s.departed.map Prod.fst ++ v.queue

theorem Kept.new : Kept .new ⟨[], none, none, none⟩ := ⟨.new, ⟨.nil, .nil⟩, rfl⟩

/-- A served call keeps the session in order. -/
theorem Kept.after (h : Kept s v) {call : Call} (hserved : ServedCall s (some call) s) :
    ∃ v', Kept (s.after call) v' := by
  obtain ⟨hrepresents, htracks, hdelivered⟩ := h
  cases call with
  | pollEvent =>
      obtain ⟨hfirst, hrest⟩ := hrepresents.pollEvent
      refine ⟨_, hrest, htracks, ?_⟩
      simp only [Session.after, List.map_append, List.map_map, hdelivered, hfirst]
      cases v.queue <;> simp
  | clearEvents =>
      refine ⟨_, hrepresents.clearEvents, htracks, ?_⟩
      simp [Session.after, hdelivered, hrepresents.queue_eq, Function.comp_def]
  | pointer call =>
      rcases wp_iff.mp (PointerCall.wp_run hrepresents hserved) with
        ⟨_, m', hrun, hrepresents', hfits⟩ | ⟨e, m', hrun, -, rfl, -⟩
      · obtain ⟨events, hqueue, htracks'⟩ := call.tracks hrepresents (hserved hfits) htracks
        have hadded : m'.queue.drop s.model.queue.length = events := by
          rw [hrepresents'.queue_eq, hrepresents.queue_eq, hqueue, drop_left]
        refine ⟨call.apply v, ?_, ?_, ?_⟩
        · simpa only [Session.after, hrun] using hrepresents'
        · simpa only [Session.after, hrun, hadded] using htracks'
        · simp only [Session.after, hrun, hadded]
          rw [hdelivered, hqueue, append_assoc]
      · refine ⟨v, ?_, ?_, ?_⟩
        · simpa only [Session.after, hrun] using hrepresents
        · simpa only [Session.after, hrun, drop_length, append_nil] using htracks
        · simpa only [Session.after, hrun, drop_length, append_nil] using hdelivered

/-- Polling as often as there are events is clearing the queue. -/
theorem drained (h : Represents m v) :
    (fun m : InteractionModel => m.pollEvent.2)^[m.queue.length] m = m.clearEvents := by
  rw [h.queue_eq]
  obtain ⟨queue, hovered, pressed, focused⟩ := v
  have hcleared := h.clearEvents
  generalize m.clearEvents = cleared at hcleared
  induction queue generalizing m with
  | nil => exact h.unique hcleared
  | cons event queue ih => exact ih h.pollEvent.2 hcleared

theorem Kept.orderly (h : Kept s v) : s.Orderly PointerCall.Served where
  presses := h.tracks.press.bracketed
  hovers := h.tracks.hover.bracketed
  delivered := by rw [h.represents.queue_eq, ← h.delivered]
  oldest := by rw [h.represents.queue_eq, h.represents.pollEvent.1]
  unchanged := by
    intro call e m hserved hrun
    rcases wp_iff.mp (PointerCall.wp_run h.represents hserved) with
      ⟨_, m', hrun', -⟩ | ⟨e', m', hrun', -, rfl, -⟩
    · simp [hrun] at hrun'
    · simp only [hrun, Option.some.injEq, Prod.mk.injEq] at hrun'
      exact hrun'.2
  unblocked := by
    intro call e m hserved hrun
    refine ⟨drained h.represents, fun hready => ?_⟩
    rw [drained h.represents] at hready ⊢
    have hcleared := h.represents.clearEvents
    rcases wp_iff.mp (PointerCall.wp_run hcleared hready) with
      ⟨_, m', hrun', -⟩ | ⟨e', m', -, -, -, hfull⟩
    · exact ⟨m', hrun'⟩
    · exact absurd call.fits_of_empty hfull

end Session

/-- In every run of served calls the events are in order and no call that fails does harm. -/
theorem orderly_of_reachable {s : Session} (h : (interactions.restrict ServedCall).Reachable s) :
    s.Orderly PointerCall.Served := by
  have hkept : ∃ v, s.Kept v := by
    refine h.invariant (P := fun s : Session => ∃ v, s.Kept v)
      (fun s hs => ⟨_, hs ▸ Session.Kept.new⟩) ?_
    intro s event s' hs hstep
    obtain ⟨v, hv⟩ := hs
    obtain ⟨⟨call, rfl, rfl⟩, hserved⟩ := hstep
    apply hv.after
    cases call with
    | pointer => exact hserved
    | pollEvent => trivial
    | clearEvents => trivial
  obtain ⟨v, hv⟩ := hkept
  exact hv.orderly

/-- A snapshot with one button. -/
def oneButton : LayoutSnapshot where
  placement id := if id.raw = 1 then some ⟨id, .button, 7, ⟨0, 0, 10, 10⟩⟩ else none
  id_eq := by
    intro id p hp
    split at hp
    · rw [← Option.some.inj hp]
    · exact absurd hp (by simp)

/-- The button is clicked. -/
theorem orderly_of_reachable_click :
    ((Session.new.after (.pointer (.down oneButton 5 5))).after
      (.pointer (.up oneButton 5 5))).Orderly PointerCall.Served := by
  have hdown : PointerCall.Served Session.new.model (.down oneButton 5 5) :=
    fun _ => ⟨fun _ id hid => absurd hid (by simp [Session.new, InteractionModel.new]), rfl⟩
  have hup : PointerCall.Served (Session.new.after (.pointer (.down oneButton 5 5))).model
      (.up oneButton 5 5) := by
    refine fun _ => ⟨fun hmoves => absurd (by decide) hmoves, fun id hid => ?_⟩
    have hpressed : (Session.new.after (.pointer (.down oneButton 5 5))).model.pressed =
        some ⟨1, by decide, by decide⟩ := by decide
    rw [hpressed] at hid
    rw [← Option.some.inj hid]
    decide
  exact orderly_of_reachable (reachable_after (reachable_after reachable_new hdown) hup)

/-- Pressed twice without a release, the button gets a second press before the first is closed. -/
theorem press_while_pressed :
    ¬ ∀ s, interactions.Reachable s → s.Orderly fun _ _ => True := by
  intro horderly
  let s := (Session.new.after (.pointer (.down oneButton 5 5))).after
    (.pointer (.down oneButton 5 5))
  have hreachable : (interactions.restrict fun _ _ _ => True).Reachable s :=
    reachable_after (reachable_after reachable_new trivial) trivial
  let event (kind : UiEventKind) : UiEvent := ⟨⟨1, by decide, by decide⟩, 7, kind⟩
  have hemitted : s.emitted = [event .hoverEnter] ++ event .pressed :: [] ++
      event .pressed :: [] := by
    decide
  obtain ⟨p, c, q, hbetween, -⟩ := (horderly s hreachable.of_restrict).presses.closed_once _ _ _ _ _
    ⟨1, by decide, by decide⟩ hemitted (by decide) (by decide) (by simp)
  simp at hbetween

end Jadren.Ui

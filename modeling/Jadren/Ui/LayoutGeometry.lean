import Jadren.Ui.LayoutCalls

/-!
# The layout pass

A container gets its rectangle from the container around it and places its children one after
the other along its primary axis, with its gap between them.  The pass is given by the
placements in the order in which it sets them; there is none if a result does not fit the
type, if a clamp has its bounds in the wrong order, or if the nesting is deeper than the fuel.

One level moves a node away from the origin by less than `reach`.  Ids grow downwards, so the id
of a node bounds where it can be (`Rect.Near`), and with that nothing overflows.
-/

namespace Jadren.Ui

open Option

/-! ## The pass -/

/-- A clamp from one to a bound that is computed. -/
def clampTo (value maximum : ℤ) : Option ℤ :=
  if 1 ≤ maximum then some (clampDimension value 1 maximum) else none

def alignedCrossPosition (origin available requested : ℤ) (align : Align) : Option ℤ :=
  let size := min requested available
  match align with
  | .center => do
    let room ← checkedI32 (available - size)
    checkedI32 (origin + room.tdiv 2)
  | .endEdge => do
    let edge ← checkedI32 (origin + available)
    checkedI32 (edge - size)
  | .start => some origin

/-- The size along the primary axis. -/
def Orientation.extent (orientation : Orientation) (width height : ℤ) : ℤ :=
  match orientation with
  | .column => height
  | .row => width

/-- The position after a child, and after the gap unless it is the last one. -/
def advance (gap : ℤ) (rest : List ChildSpec) (position size : ℤ) : Option ℤ := do
  let position ← checkedI32 (position + size)
  match rest with
  | [] => some position
  | _ :: _ => checkedI32 (position + gap)

def primaryTotal (node : NodeSpec) : ℤ → List ChildSpec → Option ℤ
  | total, [] => some total
  | total, child :: rest => do
    let total ← advance node.gap rest total (node.orientation.extent child.width child.height)
    primaryTotal node total rest

/-- What is left of a container's rectangle inside its padding. -/
def contentBox (node : NodeSpec) (rect : Rect) : Option Rect := do
  let x ← checkedI32 (rect.x + node.padding)
  let y ← checkedI32 (rect.y + node.padding)
  let padding ← checkedI32 (node.padding * 2)
  let width ← checkedI32 (rect.width - padding)
  let height ← checkedI32 (rect.height - padding)
  some ⟨x, y, clampDimension width 1 4000, clampDimension height 1 4000⟩

def startCursor (node : NodeSpec) (content : Rect) (total : ℤ) : Option ℤ :=
  match node.orientation with
  | .column => some content.y
  | .row => alignedCrossPosition content.x content.width total node.align

/-- The size across the primary axis. -/
def crossSize (child : ChildSpec) (requested available : ℤ) : Option ℤ :=
  if child.stretch then some available else clampTo requested available

def childRect (node : NodeSpec) (content : Rect) (cursor : ℤ) (child : ChildSpec) : Option Rect :=
  match node.orientation with
  | .column => do
    let width ← crossSize child child.width content.width
    let height ← clampTo child.height content.height
    let x ← alignedCrossPosition content.x content.width width node.align
    some ⟨x, cursor, width, height⟩
  | .row => do
    let width ← clampTo child.width content.width
    let height ← crossSize child child.height content.height
    let room ← checkedI32 (content.height - height)
    let y ← checkedI32 (content.y + room.tdiv 2)
    some ⟨cursor, y, width, height⟩

namespace LayoutTree

/-- A container is laid out; a leaf is placed. -/
def placeChild (t : LayoutTree) (visit : NodeId → Rect → Option (List Placement))
    (child : ChildSpec) (rect : Rect) : Option (List Placement) :=
  if (t.nodes child.id).isSome then visit child.id rect
  else some [⟨child.id, child.kind, child.eventId, rect⟩]

/-- The children of a container from the cursor on. -/
def layoutChildren (t : LayoutTree) (visit : NodeId → Rect → Option (List Placement))
    (node : NodeSpec) (content : Rect) : ℤ → List ChildSpec → Option (List Placement)
  | _, [] => some []
  | cursor, child :: rest => do
    let rect ← childRect node content cursor child
    let cursor ← advance node.gap rest cursor (node.orientation.extent rect.width rect.height)
    let placed ← placeChild t visit child rect
    let others ← layoutChildren t visit node content cursor rest
    some (placed ++ others)

def layoutNode (t : LayoutTree) : ℕ → NodeId → Rect → Option (List Placement)
  | 0, _, _ => none
  | fuel + 1, id, rect =>
    match t.nodes id with
    | none => some []
    | some node => do
      let content ← contentBox node rect
      let total ← primaryTotal node 0 node.children
      let cursor ← startCursor node content total
      let below ← layoutChildren t (layoutNode t fuel) node content cursor node.children
      some (⟨node.id, node.kind, 0, rect⟩ :: below)

def rootWidth (t : LayoutTree) (rootSpec : NodeSpec) (width : ℤ) : Option ℤ := do
  let widthDelta ← checkedI32 (width - t.baseViewportWidth)
  if rootSpec.stretch then
    (checkedI32 (rootSpec.baseRect.width + widthDelta)).map (clampDimension · 1 4000)
  else some rootSpec.baseRect.width

/-- The placements of a viewport in the order in which they are set. -/
def placements (t : LayoutTree) (viewportWidth viewportHeight : ℤ) :
    Option (Except LayoutError (List Placement)) :=
  match t.runReady with
  | .error e => some (.error e)
  | .ok () =>
    match t.root with
    | none => some (.error .missingRoot)
    | some root =>
      match t.nodes root with
      | none => some (.error .missingRoot)
      | some rootSpec => do
        let width := (normalizeViewport viewportWidth viewportHeight).1
        let width ← t.rootWidth rootSpec width
        let placed ← t.layoutNode (maxNodeId + 1) root { rootSpec.baseRect with width := width }
        some (.ok placed)

end LayoutTree

namespace LayoutSnapshot

def empty : LayoutSnapshot := ⟨fun _ => none, fun _ _ h => nomatch h⟩

def set (snapshot : LayoutSnapshot) (p : Placement) : LayoutSnapshot where
  placement := Function.update snapshot.placement p.id (some p)
  id_eq id q hq := by
    by_cases hid : id = p.id
    · subst hid
      rw [Function.update_self] at hq
      rw [Option.some.inj hq]
    · rw [Function.update_of_ne hid] at hq
      exact snapshot.id_eq id q hq

theorem placement_foldl_of_notMem {placed : List Placement} {snapshot : LayoutSnapshot}
    {id : NodeId} (h : id ∉ placed.map Placement.id) :
    (placed.foldl set snapshot).placement id = snapshot.placement id := by
  induction placed generalizing snapshot with
  | nil => rfl
  | cons p placed ih =>
      rw [List.map_cons, List.mem_cons, not_or] at h
      rw [List.foldl_cons, ih h.2]
      exact Function.update_of_ne h.1 _ _

theorem placement_foldl {placed : List Placement} {snapshot : LayoutSnapshot} {p : Placement}
    (hnodup : (placed.map Placement.id).Nodup) (hp : p ∈ placed) :
    (placed.foldl set snapshot).placement p.id = some p := by
  induction placed generalizing snapshot with
  | nil => exact absurd hp List.not_mem_nil
  | cons q placed ih =>
      rw [List.map_cons, List.nodup_cons] at hnodup
      rw [List.foldl_cons]
      rcases List.mem_cons.mp hp with rfl | hp
      · rw [placement_foldl_of_notMem hnodup.1]
        exact Function.update_self ..
      · exact ih hnodup.2 hp

end LayoutSnapshot

def LayoutTree.layout (t : LayoutTree) (viewportWidth viewportHeight : ℤ) :
    Option (Except LayoutError LayoutSnapshot) :=
  (t.placements viewportWidth viewportHeight).map fun result =>
    result.map fun placed => placed.foldl LayoutSnapshot.set .empty

/-! ## Where a node can be -/

/-- More than one level moves its nodes. -/
def reach : ℤ := 200000

structure Rect.Near (r : Rect) (id : NodeId) : Prop where
  x : 0 ≤ r.x ∧ r.x ≤ reach * id.raw
  y : 0 ≤ r.y ∧ r.y ≤ reach * id.raw
  width : 1 ≤ r.width ∧ r.width ≤ 4000
  height : 1 ≤ r.height ∧ r.height ≤ 4000

/-- The content box of a node. -/
structure Rect.Inner (r : Rect) (id : NodeId) : Prop where
  x : 0 ≤ r.x ∧ r.x ≤ reach * id.raw + 128
  y : 0 ≤ r.y ∧ r.y ≤ reach * id.raw + 128
  width : 1 ≤ r.width ∧ r.width ≤ 4000
  height : 1 ≤ r.height ∧ r.height ≤ 4000

/-- The beginning of a rectangle along the primary axis. -/
def Orientation.start (orientation : Orientation) (r : Rect) : ℤ :=
  match orientation with
  | .column => r.y
  | .row => r.x

/-- The first rectangle ends at least the gap before the second begins. -/
def Rect.Before (orientation : Orientation) (gap : ℤ) (r r' : Rect) : Prop :=
  orientation.start r + orientation.extent r.width r.height + gap ≤ orientation.start r'

/-- No wider in a column, no taller in a row. -/
def Rect.Within (r : Rect) (orientation : Orientation) (content : Rect) : Prop :=
  match orientation with
  | .column => r.width ≤ content.width
  | .row => r.height ≤ content.height

def Rect.Disjoint (r r' : Rect) : Prop := ∀ x y, ¬ (r.contains x y ∧ r'.contains x y)

theorem Rect.Before.disjoint {orientation : Orientation} {gap : ℤ} {r r' : Rect}
    (h : r.Before orientation gap r') (hgap : 0 ≤ gap) (hx : 0 ≤ r.x) (hy : 0 ≤ r.y)
    (hwidth : 0 ≤ r.width) (hheight : 0 ≤ r.height) : r.Disjoint r' := by
  intro x y hboth
  obtain ⟨-, -, hleft, habove⟩ := of_decide_eq_true hboth.1
  obtain ⟨hright, hbelow, -, -⟩ := of_decide_eq_true hboth.2
  unfold saturatingAdd i32Min i32Max at hleft habove
  cases orientation with
  | column =>
      have hbefore : r.y + r.height + gap ≤ r'.y := h
      omega
  | row =>
      have hbefore : r.x + r.width + gap ≤ r'.x := h
      omega

section Arithmetic

variable {node : NodeSpec} {child : ChildSpec} {content rect : Rect} {id : NodeId}

theorem NodeId.reach_le (id : NodeId) : reach * id.raw ≤ 25400000 := by
  have hle : id.raw ≤ 127 := id.le
  unfold reach
  omega

theorem clampTo_eq (value : ℤ) {maximum : ℤ} (h : 1 ≤ maximum) :
    ∃ size, clampTo value maximum = some size ∧ 1 ≤ size ∧ size ≤ maximum :=
  ⟨_, if_pos h, clampDimension_mem h value⟩

theorem crossSize_eq (child : ChildSpec) (requested : ℤ) {available : ℤ} (h : 1 ≤ available) :
    ∃ size, crossSize child requested available = some size ∧ 1 ≤ size ∧ size ≤ available := by
  unfold crossSize
  split
  · exact ⟨available, rfl, h, le_rfl⟩
  · exact clampTo_eq requested h

theorem alignedCrossPosition_eq (origin available requested : ℤ) (align : Align)
    (horigin : 0 ≤ origin) (hlimit : origin + available < 2 ^ 31) (havailable : 0 ≤ available)
    (hrequested : 0 ≤ requested) :
    ∃ x, alignedCrossPosition origin available requested align = some x ∧
      origin ≤ x ∧ x ≤ origin + available := by
  have hroom : 0 ≤ available - min requested available := by omega
  have hhalf : (available - min requested available).tdiv 2 =
      (available - min requested available) / 2 := Int.tdiv_eq_ediv_of_nonneg hroom
  cases align with
  | start => exact ⟨origin, rfl, le_rfl, by omega⟩
  | center =>
      simp only [alignedCrossPosition, bind_eq_bind]
      rw [checkedI32_eq (by omega) (by omega), bind_some, hhalf]
      exact ⟨_, checkedI32_eq (by omega) (by omega), by omega, by omega⟩
  | endEdge =>
      simp only [alignedCrossPosition, bind_eq_bind]
      rw [checkedI32_eq (by omega) (by omega), bind_some]
      exact ⟨_, checkedI32_eq (by omega) (by omega), by omega, by omega⟩

theorem advance_eq {gap position size : ℤ} (rest : List ChildSpec) (hgap : 0 ≤ gap ∧ gap ≤ 128)
    (hsize : 1 ≤ size ∧ size ≤ 4000) (hposition : 0 ≤ position)
    (hlimit : position + 4128 < 2 ^ 31) :
    ∃ next, advance gap rest position size = some next ∧ position ≤ next ∧
      next ≤ position + 4128 ∧ (rest ≠ [] → next = position + size + gap) := by
  unfold advance
  rw [checkedI32_eq (by omega) (by omega), bind_eq_bind, bind_some]
  cases rest with
  | nil => exact ⟨_, rfl, by omega, by omega, fun h => absurd rfl h⟩
  | cons => exact ⟨_, checkedI32_eq (by omega) (by omega), by omega, by omega, fun _ => rfl⟩

theorem ChildSpec.Fits.extent (h : child.Fits) (orientation : Orientation) :
    1 ≤ orientation.extent child.width child.height ∧
      orientation.extent child.width child.height ≤ 4000 := by
  cases orientation with
  | column => exact h.height
  | row => exact h.width

theorem primaryTotal_eq (hgap : 0 ≤ node.gap ∧ node.gap ≤ 128) {children : List ChildSpec}
    (hchildren : ∀ child ∈ children, child.Fits) {total : ℤ} (htotal : 0 ≤ total)
    (hlimit : total + 4128 * children.length < 2 ^ 31) :
    ∃ sum, primaryTotal node total children = some sum ∧ 0 ≤ sum := by
  induction children generalizing total with
  | nil => exact ⟨total, rfl, htotal⟩
  | cons child rest ih =>
      rw [List.forall_mem_cons] at hchildren
      rw [List.length_cons, Nat.cast_succ] at hlimit
      obtain ⟨next, hnext, hle, hbound, -⟩ := advance_eq rest hgap
        (hchildren.1.extent node.orientation) htotal (by omega)
      unfold primaryTotal
      rw [hnext, bind_eq_bind, bind_some]
      exact ih hchildren.2 (by omega) (by omega)

theorem contentBox_eq (hfits : node.Fits) (hnear : rect.Near id) :
    ∃ content, contentBox node rect = some content ∧ content.Inner id := by
  obtain ⟨hpadding, hpadding'⟩ := hfits.padding
  obtain ⟨⟨hx, hx'⟩, ⟨hy, hy'⟩, ⟨hw, hw'⟩, hh, hh'⟩ := hnear
  have hid := id.reach_le
  unfold contentBox
  simp only [bind_eq_bind]
  rw [checkedI32_eq (by omega) (by omega), checkedI32_eq (by omega) (by omega),
    checkedI32_eq (by omega) (by omega)]
  simp only [bind_some]
  rw [checkedI32_eq (by omega) (by omega), checkedI32_eq (by omega) (by omega)]
  refine ⟨_, rfl, ⟨?_, ?_⟩, ⟨?_, ?_⟩, clampDimension_mem (by decide) _,
    clampDimension_mem (by decide) _⟩
  all_goals simp only
  all_goals omega

theorem startCursor_eq (node : NodeSpec) (hcontent : content.Inner id) {total : ℤ}
    (htotal : 0 ≤ total) :
    ∃ cursor, startCursor node content total = some cursor ∧ 0 ≤ cursor ∧
      cursor ≤ reach * id.raw + 4128 := by
  obtain ⟨⟨hx, hx'⟩, ⟨hy, hy'⟩, ⟨hw, hw'⟩, -⟩ := hcontent
  have hid := id.reach_le
  unfold startCursor
  cases node.orientation with
  | column => exact ⟨content.y, rfl, hy, by omega⟩
  | row =>
      obtain ⟨x, hfound, hle, hle'⟩ := alignedCrossPosition_eq content.x content.width total
        node.align hx (by omega) (by omega) htotal
      exact ⟨x, hfound, by omega, by omega⟩

/-- A child is placed at the cursor, inside the content box across the primary axis. -/
theorem childRect_eq (node : NodeSpec) (child : ChildSpec) (hcontent : content.Inner id)
    {cursor : ℤ} (hcursor : 0 ≤ cursor)
    (hlimit : cursor ≤ reach * id.raw + 150000) {below : NodeId} (hbelow : id.raw < below.raw) :
    ∃ r, childRect node content cursor child = some r ∧ r.Near below ∧
      node.orientation.start r = cursor ∧ r.Within node.orientation content := by
  obtain ⟨⟨hx, hx'⟩, ⟨hy, hy'⟩, ⟨hw, hw'⟩, hh, hh'⟩ := hcontent
  have hid := id.reach_le
  have hdown : reach * id.raw + reach ≤ reach * below.raw := by
    unfold reach
    omega
  have hreach : reach = 200000 := rfl
  obtain ⟨width, hwidth, hwpos, hwle⟩ := clampTo_eq child.width hw
  obtain ⟨height, hheight, hhpos, hhle⟩ := clampTo_eq child.height hh
  unfold childRect
  cases node.orientation with
  | column =>
      obtain ⟨size, hsize, hspos, hsle⟩ := crossSize_eq child child.width hw
      obtain ⟨x, hfound, hle, hle'⟩ := alignedCrossPosition_eq content.x content.width size
        node.align hx (by omega) (by omega) (by omega)
      simp only [hsize, hheight, hfound, bind_eq_bind, bind_some]
      refine ⟨⟨x, cursor, size, height⟩, rfl, ⟨⟨?_, ?_⟩, ⟨hcursor, ?_⟩, ⟨hspos, ?_⟩, hhpos, ?_⟩,
        rfl,
        hsle⟩
      all_goals simp only
      all_goals omega
  | row =>
      obtain ⟨size, hsize, hspos, hsle⟩ := crossSize_eq child child.height hh
      have hhalf : (content.height - size).tdiv 2 = (content.height - size) / 2 :=
        Int.tdiv_eq_ediv_of_nonneg (by omega)
      simp only [hsize, hwidth, bind_eq_bind, bind_some]
      rw [checkedI32_eq (by omega) (by omega), bind_some, hhalf,
        checkedI32_eq (by omega) (by omega), bind_some]
      refine ⟨⟨cursor, content.y + (content.height - size) / 2, width, size⟩, rfl,
        ⟨⟨hcursor, ?_⟩, ⟨?_, ?_⟩, ⟨hwpos, ?_⟩, hspos, ?_⟩, rfl, hsle⟩
      all_goals simp only
      all_goals omega

end Arithmetic

end Jadren.Ui

import Jadren.Ui.LayoutGeometry

/-!
# Runs of building calls and their layouts

`Placed` is what the pass does for one node and everything below it, and `PlacedChildren` what it
does for some of the children of a container.  Every tree that calls can build is well formed,
so that the pass of a completed tree is `Placed` at its root.
-/

namespace Jadren.Ui

open Program List Option

/-! ## Arrangements -/

/-- The node is placed in the rectangle. -/
def Has (placed : List Placement) (id : NodeId) (r : Rect) : Prop :=
  ∃ p ∈ placed, p.id = id ∧ p.rect = r

variable {placed placed' : List Placement}

theorem Has.mono {id : NodeId} {r : Rect} (h : Has placed id r) (hle : ∀ p ∈ placed, p ∈ placed') :
    Has placed' id r := by
  obtain ⟨p, hp, hid, hrect⟩ := h
  exact ⟨p, hle p hp, hid, hrect⟩

/-- The children of a container stand in its content box in their order, with its gap between
them. -/
structure Arranges (placed : List Placement) (node : NodeSpec) (rect content : Rect)
    (rects : List Rect) : Prop where
  isPlaced : Has placed node.id rect
  box : contentBox node rect = some content
  children : Forall₂ (fun child r => Has placed child.id r) node.children rects
  before : rects.Pairwise (Rect.Before node.orientation node.gap)
  disjoint : rects.Pairwise Rect.Disjoint
  within : ∀ r ∈ rects, r.Within node.orientation content

def Arranged (placed : List Placement) (node : NodeSpec) : Prop :=
  ∃ rect content rects, Arranges placed node rect content rects

theorem Arranged.mono {node : NodeSpec} (h : Arranged placed node)
    (hle : ∀ p ∈ placed, p ∈ placed') : Arranged placed' node := by
  obtain ⟨rect, content, rects, harranges⟩ := h
  refine ⟨rect, content, rects, { harranges with
    isPlaced := harranges.isPlaced.mono hle
    children := ?_ }⟩
  exact harranges.children.imp fun _ _ hhas => hhas.mono hle

namespace LayoutTree

variable {t : LayoutTree} {id : NodeId} {node : NodeSpec} {content rect : Rect}

/-- The node and everything below it is placed. -/
structure Placed (t : LayoutTree) (id : NodeId) (rect : Rect) (placed : List Placement) :
    Prop where
  visits : Visits t.childIds [id] (placed.map Placement.id)
  positive : ∀ p ∈ placed, 0 < p.rect.width ∧ 0 < p.rect.height
  here : Has placed id rect
  arranged : ∀ c ∈ placed.map Placement.id, ∀ node, t.nodes c = some node → Arranged placed node

/-- The children and everything below them are placed, from the cursor on. -/
structure PlacedChildren (t : LayoutTree) (node : NodeSpec) (content : Rect) (cursor : ℤ)
    (children : List ChildSpec) (placed : List Placement) (rects : List Rect) : Prop where
  visits : Visits t.childIds (children.map ChildSpec.id) (placed.map Placement.id)
  positive : ∀ p ∈ placed, 0 < p.rect.width ∧ 0 < p.rect.height
  each : Forall₂ (fun child r => Has placed child.id r) children rects
  before : rects.Pairwise (Rect.Before node.orientation node.gap)
  disjoint : rects.Pairwise Rect.Disjoint
  within : ∀ r ∈ rects, r.Within node.orientation content
  start : ∀ r ∈ rects, cursor ≤ node.orientation.start r
  arranged : ∀ c ∈ placed.map Placement.id, ∀ node, t.nodes c = some node → Arranged placed node

/-- What is asked of the visit to a child that is a container. -/
def VisitPlaces (t : LayoutTree) (visit : NodeId → Rect → Option (List Placement))
    (children : List ChildSpec) : Prop :=
  ∀ child ∈ children, ∀ r : Rect, (t.nodes child.id).isSome → r.Near child.id →
    ∃ placed, visit child.id r = some placed ∧ t.Placed child.id r placed

variable {visit : NodeId → Rect → Option (List Placement)} {children : List ChildSpec}

theorem placeChild_eq {child : ChildSpec} {r : Rect} (hvisit : t.VisitPlaces visit children)
    (hchild : child ∈ children) (hnear : r.Near child.id) :
    ∃ placed, placeChild t visit child r = some placed ∧ t.Placed child.id r placed := by
  unfold placeChild
  split
  next hnode => exact hvisit child hchild r hnode hnear
  next hleaf =>
    have hnone : t.nodes child.id = none := not_isSome_iff_eq_none.mp hleaf
    refine ⟨_, rfl, ?_, ?_, ⟨_, mem_singleton.mpr rfl, rfl, rfl⟩, ?_⟩
    · refine Visits.single ?_
      rw [childIds_of_none hnone]
      exact .nil
    · intro p hp
      obtain rfl := mem_singleton.mp hp
      exact ⟨Int.lt_of_lt_of_le Int.one_pos hnear.width.1,
        Int.lt_of_lt_of_le Int.one_pos hnear.height.1⟩
    · intro c hc node hnode
      obtain rfl := mem_singleton.mp hc
      exact nomatch hnone.symm.trans hnode

/-- The children are placed one after the other. -/
theorem layoutChildren_eq (hfits : node.Fits) (hcontent : content.Inner id)
    (hvisit : t.VisitPlaces visit children) (hbelow : ∀ child ∈ children, id.raw < child.id.raw)
    {cursor : ℤ} (hcursor : 0 ≤ cursor)
    (hlimit : cursor + 4128 * children.length ≤ reach * id.raw + 150000) :
    ∃ placed rects, layoutChildren t visit node content cursor children = some placed ∧
      t.PlacedChildren node content cursor children placed rects := by
  induction children generalizing cursor with
  | nil =>
      refine ⟨[], [], rfl, .nil, ?_, .nil, .nil, .nil, ?_, ?_, ?_⟩
      all_goals exact fun _ h => absurd h not_mem_nil
  | cons child rest ih =>
      obtain ⟨hchild, hrest⟩ := forall_mem_cons.mp hbelow
      rw [length_cons, Nat.cast_succ] at hlimit
      obtain ⟨r, hr, hnear, hstart, hwithin⟩ :=
        childRect_eq node child hcontent hcursor (by omega) hchild
      have hextent : 1 ≤ node.orientation.extent r.width r.height ∧
          node.orientation.extent r.width r.height ≤ 4000 := by
        cases node.orientation with
        | column => exact hnear.height
        | row => exact hnear.width
      have hid := id.reach_le
      obtain ⟨next, hnext, hle, hbound, hgap⟩ := advance_eq rest hfits.gap hextent hcursor
        (by omega)
      obtain ⟨here, hplace, hhere⟩ := placeChild_eq hvisit mem_cons_self hnear
      obtain ⟨others, rects, hothers, hplaced⟩ := ih
        (fun c hc => hvisit c (mem_cons_of_mem _ hc)) hrest (hcursor.trans hle) (by omega)
      -- what follows the child begins after the gap
      have hbefore : ∀ r' ∈ rects, r.Before node.orientation node.gap r' := by
        intro r' hr'
        have hne : rest ≠ [] := by
          intro hnil
          have hlength := hplaced.each.length_eq
          rw [hnil, length_nil] at hlength
          exact absurd hr' (eq_nil_of_length_eq_zero hlength.symm ▸ not_mem_nil)
        have hfollows := hplaced.start r' hr'
        unfold Rect.Before
        rw [hstart, ← hgap hne]
        exact hfollows
      have hdisjoint : ∀ r' ∈ rects, r.Disjoint r' := by
        intro r' hr'
        exact (hbefore r' hr').disjoint hfits.gap.1 hnear.x.1 hnear.y.1
          (Int.le_trans Int.one_nonneg hnear.width.1) (Int.le_trans Int.one_nonneg hnear.height.1)
      refine ⟨here ++ others, r :: rects, ?_, ?_⟩
      · unfold layoutChildren
        simp only [hr, hnext, hplace, hothers, bind_eq_bind, bind_some]
      · have hleft : ∀ p ∈ here, p ∈ here ++ others := fun p hp => mem_append_left _ hp
        have hright : ∀ p ∈ others, p ∈ here ++ others := fun p hp => mem_append_right _ hp
        exact
          { visits := by
              rw [map_cons, map_append, ← singleton_append]
              exact hhere.visits.append hplaced.visits
            positive := forall_mem_append.mpr ⟨hhere.positive, hplaced.positive⟩
            each := .cons (hhere.here.mono hleft) (hplaced.each.imp fun _ _ h => h.mono hright)
            before := pairwise_cons.mpr ⟨hbefore, hplaced.before⟩
            disjoint := pairwise_cons.mpr ⟨hdisjoint, hplaced.disjoint⟩
            within := forall_mem_cons.mpr ⟨hwithin, hplaced.within⟩
            start := forall_mem_cons.mpr ⟨hstart.ge,
              fun r' hr' => hle.trans (hplaced.start r' hr')⟩
            arranged := by
              intro c hc node hnode
              rw [map_append] at hc
              rcases mem_append.mp hc with hc | hc
              · exact (hhere.arranged c hc node hnode).mono hleft
              · exact (hplaced.arranged c hc node hnode).mono hright }

/-- The pass from a container places it and all below it.  The ids grow on the way down, so
the fuel lasts. -/
theorem layoutNode_eq (fuel : ℕ) (h : t.Wellformed) (hnode : t.nodes id = some node)
    (hnear : rect.Near id) (hfuel : maxNodeId < id.raw + fuel) :
    ∃ placed, t.layoutNode fuel id rect = some placed ∧ t.Placed id rect placed := by
  -- ids grow from parent to child, so they bound how deep the layout goes
  induction fuel generalizing id node rect with
  | zero => exact absurd id.le (not_le.mpr hfuel)
  | succ fuel ih =>
      obtain ⟨hid, hfits⟩ := h.fits id node hnode
      obtain ⟨content, hcontent, hinner⟩ := contentBox_eq hfits hnear
      have hlength : (node.children.length : ℤ) ≤ 24 := by exact_mod_cast hfits.length
      obtain ⟨total, htotal, hpos⟩ := primaryTotal_eq hfits.gap hfits.children
        le_rfl (by omega)
      obtain ⟨cursor, hcursor, hcpos, hcle⟩ := startCursor_eq node hinner hpos
      have hids : t.childIds id = node.children.map ChildSpec.id := childIds_of_some hnode
      have hbelow : ∀ child ∈ node.children, id.raw < child.id.raw := by
        intro child hchild
        exact h.forest.rank_lt id child.id (hids ▸ mem_map_of_mem hchild)
      -- each child fits the fuel that is left
      have hvisit : t.VisitPlaces (t.layoutNode fuel) node.children := by
        intro child hchild r hsome hr
        obtain ⟨cnode, hcnode⟩ := isSome_iff_exists.mp hsome
        exact ih hcnode hr (by have := hbelow child hchild; omega)
      obtain ⟨below, rects, hchildren, hplaced⟩ := layoutChildren_eq hfits hinner hvisit hbelow
        hcpos (by omega)
      have hmem : ∀ p ∈ below, p ∈ ⟨node.id, node.kind, 0, rect⟩ :: below :=
        fun p hp => mem_cons_of_mem _ hp
      refine ⟨⟨node.id, node.kind, 0, rect⟩ :: below, ?_, ?_, ?_,
        ⟨_, mem_cons_self, hid, rfl⟩, ?_⟩
      · simp only [layoutNode, hnode, hcontent, htotal, hcursor, hchildren, bind_eq_bind,
          bind_some]
      · rw [map_cons, hid]
        exact Visits.single (hids ▸ hplaced.visits)
      · refine forall_mem_cons.mpr ⟨?_, hplaced.positive⟩
        exact ⟨Int.lt_of_lt_of_le Int.one_pos hnear.width.1,
          Int.lt_of_lt_of_le Int.one_pos hnear.height.1⟩
      · intro c hc other hother
        rw [map_cons] at hc
        rcases mem_cons.mp hc with hc | hc
        · obtain rfl : other = node := by
            rw [hc, hid] at hother
            exact some.inj (hother.symm.trans hnode)
          exact ⟨rect, content, rects, ⟨_, mem_cons_self, rfl, rfl⟩, hcontent,
            hplaced.each.imp fun _ _ hhas => hhas.mono hmem, hplaced.before, hplaced.disjoint,
            hplaced.within⟩
        · exact (hplaced.arranged c hc other hother).mono hmem

theorem rootWidth_eq (h : t.Wellformed) (hfits : node.Fits) (viewportWidth viewportHeight : ℤ) :
    ∃ width, t.rootWidth node (normalizeViewport viewportWidth viewportHeight).1 = some width ∧
      1 ≤ width ∧ width ≤ 4000 := by
  have hviewport : 360 ≤ (normalizeViewport viewportWidth viewportHeight).1 ∧
      (normalizeViewport viewportWidth viewportHeight).1 ≤ 1600 :=
    clampDimension_mem (by decide) viewportWidth
  have hbase : 360 ≤ t.baseViewportWidth ∧ t.baseViewportWidth ≤ 1600 := h.width
  obtain ⟨hmin, hmax⟩ := hfits.width
  unfold rootWidth
  rw [checkedI32_eq (by omega) (by omega), bind_eq_bind, bind_some]
  split
  · rw [checkedI32_eq (by omega) (by omega), map_some]
    exact ⟨_, rfl, clampDimension_mem (by decide) _⟩
  · exact ⟨_, rfl, hmin, hmax⟩

/-- The layout of a completed tree: every node is placed once, the snapshot has the placements,
and every container arranges its children. -/
structure LaidOut (t : LayoutTree) (placed : List Placement) (snapshot : LayoutSnapshot) :
    Prop where
  nodup : (placed.map Placement.id).Nodup
  complete : ∀ id, id ∈ placed.map Placement.id ↔ t.IsNode id
  snapshot : ∀ p ∈ placed, snapshot.placement p.id = some p
  positive : ∀ p ∈ placed, 0 < p.rect.width ∧ 0 < p.rect.height
  arranged : ∀ id node, t.nodes id = some node → Arranged placed node

/-- A completed tree has a layout for every viewport. -/
theorem layout_eq (h : t.Wellformed) (hready : t.runReady = .ok ())
    (viewportWidth viewportHeight : ℤ) :
    ∃ placed snapshot, t.placements viewportWidth viewportHeight = some (.ok placed) ∧
      t.layout viewportWidth viewportHeight = some (.ok snapshot) ∧ t.LaidOut placed snapshot := by
  have hroot : t.root ≠ none := by
    intro hnone
    rw [runReady, if_pos hnone] at hready
    cases hready
  obtain ⟨root, hroot⟩ := ne_none_iff_exists'.mp hroot
  obtain ⟨hsome, hnochild⟩ := h.root root hroot
  obtain ⟨node, hnode⟩ := isSome_iff_exists.mp hsome
  have hfits := (h.fits root node hnode).2
  obtain ⟨width, hwidth, hmin, hmax⟩ := rootWidth_eq h hfits viewportWidth viewportHeight
  have hpos : 1 ≤ root.raw := root.pos
  have hnear : Rect.Near { node.baseRect with width := width } root := by
    obtain ⟨hx, hx'⟩ := hfits.x
    obtain ⟨hy, hy'⟩ := hfits.y
    have hreach : 16 ≤ reach * root.raw := by
      unfold reach
      omega
    exact ⟨⟨hx, hx'.trans hreach⟩, ⟨hy, hy'.trans hreach⟩, ⟨hmin, hmax⟩, hfits.height⟩
  obtain ⟨placed, hplaced, hall⟩ := layoutNode_eq (maxNodeId + 1) h hnode hnear (by omega)
  have hplacements : t.placements viewportWidth viewportHeight = some (.ok placed) := by
    simp only [placements, hready, hroot, hnode, hwidth, hplaced, bind_eq_bind,
      bind_some]
  have hnodup := hall.visits.nodup h.forest (pairwise_singleton _ _)
  -- the layout visits what lies below the root, which is every node
  have hcomplete : ∀ id, id ∈ placed.map Placement.id ↔ t.IsNode id := by
    intro id
    rw [hall.visits.mem_iff]
    constructor
    · intro hdown
      obtain ⟨a, ha, hdown⟩ := hdown
      obtain rfl := mem_singleton.mp ha
      rcases hdown.cases_tail with rfl | ⟨p, -, hp⟩
      · exact .inl hroot
      · exact .inr ⟨p, hp⟩
    · intro hid
      obtain ⟨r, hr, hdown⟩ := h.isTree.reached id hid
      obtain rfl := some.inj (hr.symm.trans hroot)
      exact ⟨r, mem_singleton.mpr rfl, hdown⟩
  refine ⟨placed, placed.foldl LayoutSnapshot.set .empty, hplacements, ?_, hnodup, hcomplete,
    fun p hp => LayoutSnapshot.placement_foldl hnodup hp, hall.positive, ?_⟩
  · rw [layout, hplacements]
    rfl
  · intro id node hnode
    exact hall.arranged id ((hcomplete id).mpr (h.isNode (hnode ▸ rfl))) node hnode

end LayoutTree

/-! ## Runs -/

inductive BuildCall
  | beginRoot
  | panel (parent : NodeId) (spec : ContainerSpec)
  | row (parent : NodeId) (spec : ContainerSpec)
  | topBar (parent : NodeId) (spec : ContainerSpec)
  | menu (parent : NodeId) (width height : ℤ) (stretch : Bool)
  | label (parent : NodeId) (width height : ℤ) (stretch : Bool)
  | button (parent : NodeId) (width height : ℤ) (stretch : Bool)
  | buttonWithEvent (parent : NodeId) (eventId width height : ℤ) (stretch : Bool)
  | textInputWithEvent (parent : NodeId) (eventId width height : ℤ) (stretch : Bool)
  | checkboxWithEvent (parent : NodeId) (eventId width height : ℤ) (stretch : Bool)
  | selectWithEvent (parent : NodeId) (eventId width height : ℤ) (stretch : Bool)
  | listWithEvent (parent : NodeId) (eventId width height : ℤ) (stretch : Bool)
  | tableWithEvent (parent : NodeId) (eventId width height : ℤ) (stretch : Bool)
  | endNode (node : NodeId)

namespace BuildCall

open LayoutTree

variable {t : LayoutTree}

/-- The call with the node it returns, if it returns one. -/
def run : BuildCall → Building (Option NodeId)
  | .beginRoot => some <$> LayoutTree.beginRoot
  | .panel parent spec => some <$> LayoutTree.panel parent spec
  | .row parent spec => some <$> LayoutTree.row parent spec
  | .topBar parent spec => some <$> LayoutTree.topBar parent spec
  | .menu parent width height stretch => some <$> LayoutTree.menu parent width height stretch
  | .label parent width height stretch => some <$> LayoutTree.label parent width height stretch
  | .button parent width height stretch => some <$> LayoutTree.button parent width height stretch
  | .buttonWithEvent parent eventId width height stretch =>
    some <$> LayoutTree.buttonWithEvent parent eventId width height stretch
  | .textInputWithEvent parent eventId width height stretch =>
    some <$> LayoutTree.textInputWithEvent parent eventId width height stretch
  | .checkboxWithEvent parent eventId width height stretch =>
    some <$> LayoutTree.checkboxWithEvent parent eventId width height stretch
  | .selectWithEvent parent eventId width height stretch =>
    some <$> LayoutTree.selectWithEvent parent eventId width height stretch
  | .listWithEvent parent eventId width height stretch =>
    some <$> LayoutTree.listWithEvent parent eventId width height stretch
  | .tableWithEvent parent eventId width height stretch =>
    some <$> LayoutTree.tableWithEvent parent eventId width height stretch
  | .endNode node => (fun _ => none) <$> LayoutTree.endNode node

/-- The call opens a container for which there is everything but room for containers. -/
def Consumes (t : LayoutTree) : BuildCall → Prop
  | .panel parent _ | .row parent _ | .topBar parent _ => t.Consumes parent
  | _ => False

/-- What is known of a call whose errors change nothing. -/
theorem wp_harmless {α : Type} {x : Building α} (f : α → Option NodeId) (h : t.Wellformed)
    (hx : wp x (fun _ t' => t'.Wellformed) (fun _ t' => t' = t) t) :
    wp (f <$> x) (fun _ t' => t'.Wellformed) (fun _ t' => t'.Wellformed ∧ t' = t) t := by
  refine wp_then (Q := fun _ t' => t'.Wellformed) ?_ fun a t' ht => wp_pure ht
  exact wp_mono hx (fun _ _ h' => h') fun e t' ht => ⟨ht ▸ h, ht⟩

/-- A call keeps the tree well formed, and changes it with an error exactly when it takes an id
for a container without room. -/
theorem wp_run (h : t.Wellformed) (call : BuildCall) :
    wp call.run (fun _ t' => t'.Wellformed ∧ ¬ call.Consumes t)
      (fun _ t' => t'.Wellformed ∧ (t' = t ↔ ¬ call.Consumes t)) t := by
  have harmless : ∀ {α : Type} {x : Building α} (f : α → Option NodeId),
      wp x (fun _ t' => t'.Wellformed) (fun _ t' => t' = t) t →
      wp (f <$> x) (fun _ t' => t'.Wellformed ∧ ¬ False)
        (fun _ t' => t'.Wellformed ∧ (t' = t ↔ ¬ False)) t := by
    intro α x f hx
    refine wp_mono (wp_harmless f h hx) (fun _ t' ht => ⟨ht, id⟩) fun e t' ht => ?_
    exact ⟨ht.1, fun _ => id, fun _ => ht.2⟩
  have container : ∀ (parent : NodeId) (kind : WidgetKind) (orientation : Orientation)
      (spec : ContainerSpec),
      wp (some <$> openContainer parent kind orientation spec)
        (fun _ t' => t'.Wellformed ∧ ¬ t.Consumes parent)
        (fun _ t' => t'.Wellformed ∧ (t' = t ↔ ¬ t.Consumes parent)) t := by
    intro parent kind orientation spec
    refine wp_then (wp_mono (wp_openContainer h parent kind orientation spec)
      (fun _ _ h' => h') fun e t' ht => ?_) fun a t' ht => wp_pure ht
    rcases ht with ⟨hconsumes, rfl⟩ | ⟨hnot, rfl⟩
    · refine ⟨h.allocated, fun heq => ?_, fun hnot => absurd hconsumes hnot⟩
      exact absurd (congrArg LayoutTree.nextId heq) (Nat.succ_ne_self _)
    · exact ⟨h, fun _ => hnot, fun _ => rfl⟩
  cases call with
  | beginRoot => exact harmless _ (wp_beginRoot h)
  | panel parent spec => exact container parent .panel .column spec
  | row parent spec => exact container parent .row .row spec
  | topBar parent spec => exact container parent .topBar .row spec
  | endNode node => exact harmless _ (wp_endNode h node)
  | menu | label | button | buttonWithEvent | textInputWithEvent | checkboxWithEvent
  | selectWithEvent | listWithEvent | tableWithEvent => exact harmless _ (wp_insertLeaf h ..)

end BuildCall

namespace LayoutTree

/-- The tree after calls, whether they succeed or fail; `none` if one has no result. -/
def after (t : LayoutTree) : List BuildCall → Option LayoutTree
  | [] => some t
  | call :: calls => do
    let (_, t') ← call.run t
    t'.after calls

/-- What is promised of a tree. -/
structure Sound (t : LayoutTree) : Prop where
  isTree : t.IsTree
  /-- Every call returns or fails, and leaves the tree as it was if it fails, unless it takes an
  id for a container without room. -/
  calls : ∀ call : BuildCall, ∃ result t', call.run t = some (result, t') ∧
    ((∀ e, result = .error e → t' = t) ↔ ¬ call.Consumes t)
  layouts : t.runReady = .ok () → ∀ viewportWidth viewportHeight,
    ∃ placed snapshot, t.placements viewportWidth viewportHeight = some (.ok placed) ∧
      t.layout viewportWidth viewportHeight = some (.ok snapshot) ∧ t.LaidOut placed snapshot

theorem Wellformed.sound {t : LayoutTree} (h : t.Wellformed) : t.Sound where
  isTree := h.isTree
  calls call := by
    rcases wp_iff.mp (call.wp_run h) with ⟨id, t', hrun, -, hnot⟩ | ⟨e, t', hrun, -, hiff⟩
    · exact ⟨_, t', hrun, fun _ => hnot, fun _ e he => nomatch he⟩
    · refine ⟨_, t', hrun, fun hkept => hiff.mp (hkept e rfl), fun hnot e' _ => hiff.mpr hnot⟩
  layouts := layout_eq h

theorem Wellformed.after {t : LayoutTree} (h : t.Wellformed) (calls : List BuildCall) :
    ∃ t', t.after calls = some t' ∧ t'.Wellformed := by
  induction calls generalizing t with
  | nil => exact ⟨t, rfl, h⟩
  | cons call calls ih =>
      have hnext : ∃ result t', call.run t = some (result, t') ∧ t'.Wellformed := by
        rcases wp_iff.mp (call.wp_run h) with ⟨id, t', hrun, ht, -⟩ | ⟨e, t', hrun, ht, -⟩
        · exact ⟨_, t', hrun, ht⟩
        · exact ⟨_, t', hrun, ht⟩
      obtain ⟨result, t', hrun, ht⟩ := hnext
      obtain ⟨last, hlast, hwellformed⟩ := ih ht
      refine ⟨last, ?_, hwellformed⟩
      rw [LayoutTree.after, hrun]
      exact hlast

/-- Every sequence of calls leads to a sound tree. -/
theorem sound_after (viewportWidth viewportHeight : ℤ) (calls : List BuildCall) :
    ∃ t, (new viewportWidth viewportHeight).after calls = some t ∧ t.Sound := by
  obtain ⟨t, ht, hwellformed⟩ := (Wellformed.new viewportWidth viewportHeight).after calls
  exact ⟨t, ht, hwellformed.sound⟩

/-- The root and fifteen panels in it, closed one after the other. -/
def sixteenContainers : List BuildCall :=
  .beginRoot :: ((NodeId.all.drop 1).take 15).flatMap fun id =>
    [.panel ⟨1, by decide, by decide⟩ ⟨100, 20, 0, 0, .start, false⟩, .endNode id]

/-- One more panel is refused and takes an id. -/
theorem refused_panel_takes_id :
    ¬ ∀ (viewportWidth viewportHeight : ℤ) (calls : List BuildCall) (t : LayoutTree),
      (new viewportWidth viewportHeight).after calls = some t →
      ∀ (call : BuildCall) (e : LayoutError) (t' : LayoutTree),
        call.run t = some (.error e, t') → t' = t := by
  intro hkept
  have hids : ((new 640 420).after sixteenContainers).map (fun t =>
      (BuildCall.run (.panel ⟨1, by decide, by decide⟩ ⟨100, 20, 0, 0, .start, false⟩) t).map
        fun r => (r.1.toOption.isNone, t.nextId, r.2.nextId)) =
      some (some (true, 17, 18)) := by decide +kernel
  obtain ⟨t, ht, hcall⟩ := map_eq_some_iff.mp hids
  obtain ⟨⟨result, t'⟩, hrun, hvalues⟩ := map_eq_some_iff.mp hcall
  cases result with
  | ok => cases hvalues
  | error e =>
      have hsame := hkept 640 420 sixteenContainers t ht _ e t' hrun
      simp only [Prod.mk.injEq] at hvalues
      rw [hsame] at hvalues
      omega

end LayoutTree

end Jadren.Ui

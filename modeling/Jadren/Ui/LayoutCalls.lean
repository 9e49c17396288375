import Jadren.Ui.LayoutTree

/-!
# What the building calls do

`Wellformed` is kept by every step of a call.  A child is pushed to the innermost scope, and a
container is a child that gets a place among the nodes; the code does it the other way around,
which makes no difference (`withNode_withChild`).
-/

namespace Jadren.Ui

open Program List Option

structure ChildSpec.Fits (child : ChildSpec) : Prop where
  width : 1 ≤ child.width ∧ child.width ≤ 4000
  height : 1 ≤ child.height ∧ child.height ≤ 4000

structure NodeSpec.Fits (node : NodeSpec) : Prop where
  x : 0 ≤ node.baseRect.x ∧ node.baseRect.x ≤ 16
  y : 0 ≤ node.baseRect.y ∧ node.baseRect.y ≤ 16
  width : 1 ≤ node.baseRect.width ∧ node.baseRect.width ≤ 4000
  height : 1 ≤ node.baseRect.height ∧ node.baseRect.height ≤ 4000
  padding : 0 ≤ node.padding ∧ node.padding ≤ 128
  gap : 0 ≤ node.gap ∧ node.gap ≤ 128
  length : node.children.length ≤ maxLayoutChildren
  children : ∀ child ∈ node.children, child.Fits

theorem NodeSpec.Fits.push {node : NodeSpec} {child : ChildSpec} (h : node.Fits)
    (hroom : node.children.length < maxLayoutChildren) (hchild : child.Fits) :
    NodeSpec.Fits { node with children := node.children ++ [child] } where
  x := h.x
  y := h.y
  width := h.width
  height := h.height
  padding := h.padding
  gap := h.gap
  length := by
    rw [length_append]
    exact hroom
  children := by
    intro c hc
    rcases mem_append.mp hc with hc | hc
    · exact h.children c hc
    · exact mem_singleton.mp hc ▸ hchild

theorem NodeSpec.fits_new {id : NodeId} {kind : WidgetKind} {orientation : Orientation}
    {spec : ContainerSpec} :
    (NodeSpec.new id kind ⟨0, 0, spec.normalized.width, spec.normalized.height⟩ orientation
      spec.normalized).Fits where
  x := ⟨Int.le_refl 0, Int.natCast_nonneg 16⟩
  y := ⟨Int.le_refl 0, Int.natCast_nonneg 16⟩
  width := clampDimension_mem (by decide) _
  height := clampDimension_mem (by decide) _
  padding := clampDimension_mem (by decide) _
  gap := clampDimension_mem (by decide) _
  length := Nat.zero_le _
  children _ h := absurd h not_mem_nil

namespace LayoutTree

variable {t : LayoutTree} {id parent : NodeId} {node : NodeSpec} {child : ChildSpec}

@[simp] theorem nodes_withNode_self :
    (t.withNode node).nodes node.id = some node :=
  Function.update_self ..

theorem nodes_withNode_of_ne (hne : id ≠ node.id) : (t.withNode node).nodes id = t.nodes id :=
  Function.update_of_ne hne _ _

@[simp] theorem nodes_withChild_self : (t.withChild parent node child).nodes parent =
    some { node with children := node.children ++ [child] } :=
  Function.update_self ..

theorem nodes_withChild_of_ne (hne : id ≠ parent) :
    (t.withChild parent node child).nodes id = t.nodes id :=
  Function.update_of_ne hne _ _

theorem mem_childIds : id ∈ t.childIds parent ↔
    ∃ node, t.nodes parent = some node ∧ ∃ child ∈ node.children, child.id = id := by
  unfold childIds
  cases t.nodes parent with
  | none => simp
  | some => simp

theorem childIds_of_some (h : t.nodes id = some node) :
    t.childIds id = node.children.map ChildSpec.id := by
  rw [childIds, h, elim_some]

theorem childIds_of_none (h : t.nodes id = none) : t.childIds id = [] := by
  rw [childIds, h, elim_none, map_nil]

theorem childIds_withChild (child : ChildSpec) (h : t.nodes parent = some node) :
    (t.withChild parent node child).childIds =
      Function.update t.childIds parent (t.childIds parent ++ [child.id]) := by
  funext p
  by_cases hp : p = parent
  · subst hp
    rw [Function.update_self, childIds_of_some h, childIds_of_some nodes_withChild_self,
      map_append, map_singleton]
  · rw [Function.update_of_ne hp, childIds, nodes_withChild_of_ne hp, childIds]

theorem childIds_withNode (hfree : t.nodes node.id = none) (hempty : node.children = []) :
    (t.withNode node).childIds = t.childIds := by
  funext p
  by_cases hp : p = node.id
  · subst hp
    rw [childIds_of_none hfree, childIds_of_some nodes_withNode_self, hempty, map_nil]
  · rw [childIds, nodes_withNode_of_ne hp, childIds]

theorem withNode_withChild {added : NodeSpec} (hne : parent ≠ added.id) :
    (t.withNode added).withChild parent node child =
      (t.withChild parent node child).withNode added := by
  unfold withNode withChild
  rw [Function.update_comm hne]

/-! ### The invariant -/

structure Wellformed (t : LayoutTree) : Prop where
  width : minWindowWidth ≤ t.baseViewportWidth ∧ t.baseViewportWidth ≤ maxWindowWidth
  height : minWindowHeight ≤ t.baseViewportHeight ∧ t.baseViewportHeight ≤ maxWindowHeight
  nextId : 0 < t.nextId
  fits : ∀ id node, t.nodes id = some node → node.id = id ∧ node.Fits
  isNode_lt : ∀ id, t.IsNode id → id.raw < t.nextId
  forest : Forest t.childIds NodeId.raw
  empty : t.root = none → t.nodeCount = 0 ∧ t.stack = [] ∧ ∀ id, t.nodes id = none
  root : ∀ r, t.root = some r → (t.nodes r).isSome ∧ ∀ p, r ∉ t.childIds p
  reached : ∀ id, (t.nodes id).isSome → ∃ r, t.root = some r ∧ Descends t.childIds r id
  scopes : t.stack.IsChain fun c p => c ∈ t.childIds p
  outermost : ∀ s, t.stack.getLast? = some s → t.root = some s
  opened : ∀ s ∈ t.stack, (t.nodes s).isSome

namespace Wellformed

variable (h : t.Wellformed)
include h

theorem isNode (hid : (t.nodes id).isSome) : t.IsNode id := by
  obtain ⟨r, hr, hdown⟩ := h.reached id hid
  rcases hdown.cases_tail with rfl | ⟨p, -, hp⟩
  · exact .inl hr
  · exact .inr ⟨p, hp⟩

theorem node_lt (hnode : t.nodes id = some node) : id.raw < t.nextId :=
  h.isNode_lt id (h.isNode (hnode ▸ rfl))

theorem not_isNode (hid : id.raw = t.nextId) : ¬ t.IsNode id :=
  fun hnode => absurd (h.isNode_lt id hnode) (by omega)

theorem nodes_eq_none (hid : ¬ t.IsNode id) : t.nodes id = none := by
  cases hnode : t.nodes id with
  | none => rfl
  | some => exact absurd (h.isNode (hnode ▸ rfl)) hid

theorem isTree : t.IsTree where
  isNode _ := h.isNode
  parent id hid hroot := by
    obtain hr | ⟨p, hp⟩ := hid
    · exact absurd hr hroot
    · exact ⟨p, hp, fun q hq => h.forest.unique q p id hq hp⟩
  once := h.forest.nodup
  root r hr := (h.root r hr).2
  reached id hid := by
    obtain hr | ⟨p, hp⟩ := hid
    · exact ⟨id, hr, .refl⟩
    · obtain ⟨node, hnode, -⟩ := mem_childIds.mp hp
      obtain ⟨r, hr, hdown⟩ := h.reached p (hnode ▸ rfl)
      exact ⟨r, hr, hdown.tail hp⟩
  scopes := h.scopes
  outermost := h.outermost

omit h

theorem new (viewportWidth viewportHeight : ℤ) : (new viewportWidth viewportHeight).Wellformed where
  width := clampDimension_mem (by decide) _
  height := clampDimension_mem (by decide) _
  nextId := Nat.one_pos
  fits _ _ h := nomatch h
  isNode_lt id hid := by
    obtain hr | ⟨p, hp⟩ := hid
    · cases hr
    · exact absurd hp not_mem_nil
  forest := ⟨fun _ => nodup_nil, fun _ _ _ h => absurd h not_mem_nil,
    fun _ _ h => absurd h not_mem_nil⟩
  empty _ := ⟨rfl, rfl, fun _ => rfl⟩
  root _ h := nomatch h
  reached _ h := nomatch h
  scopes := .nil
  outermost _ h := nomatch h
  opened _ h := absurd h not_mem_nil

include h

theorem allocated : t.allocated.Wellformed :=
  { h with
    nextId := Nat.succ_pos _
    isNode_lt := fun id hid => (h.isNode_lt id hid).trans (Nat.lt_succ_self _) }

theorem withChild (hnode : t.nodes parent = some node)
    (hroom : node.children.length < maxLayoutChildren) (hchild : child.Fits)
    (hnew : ¬ t.IsNode child.id) (hlt : child.id.raw < t.nextId)
    (hrank : parent.raw < child.id.raw) : (t.withChild parent node child).Wellformed := by
  have hids := childIds_withChild child hnode
  -- a new id: no other node has this child, so the forest stays one
  have hfresh : ∀ p, child.id ∉ t.childIds p := fun p hp => hnew (.inr ⟨p, hp⟩)
  have hsome : ∀ id, ((t.withChild parent node child).nodes id).isSome ↔ (t.nodes id).isSome := by
    intro id
    by_cases hid : id = parent
    · subst hid
      rw [nodes_withChild_self, hnode, isSome_some, isSome_some]
    · rw [nodes_withChild_of_ne hid]
  exact
    { width := h.width
      height := h.height
      nextId := h.nextId
      fits := by
        intro id other hother
        by_cases hid : id = parent
        · subst hid
          obtain rfl := some.inj (nodes_withChild_self.symm.trans hother)
          have hfits := h.fits id node hnode
          exact ⟨hfits.1, hfits.2.push hroom hchild⟩
        · exact h.fits id other ((nodes_withChild_of_ne hid).symm.trans hother)
      isNode_lt := by
        intro id hid
        rcases hid with hr | ⟨p, hp⟩
        · exact h.isNode_lt id (.inl hr)
        · rw [hids] at hp
          rcases Forest.mem_insert.mp hp with hp | ⟨-, rfl⟩
          · exact h.isNode_lt id (.inr ⟨p, hp⟩)
          · exact hlt
      forest := by
        rw [hids]
        exact h.forest.insert hfresh hrank
      empty := by
        intro hr
        have hnone := (h.empty hr).2.2 parent
        rw [hnode] at hnone
        cases hnone
      root := by
        intro r hr
        refine ⟨(hsome r).mpr (h.root r hr).1, fun p hp => ?_⟩
        rw [hids] at hp
        rcases Forest.mem_insert.mp hp with hp | ⟨-, rfl⟩
        · exact (h.root r hr).2 p hp
        · exact hnew (.inl hr)
      reached := by
        intro id hid
        obtain ⟨r, hr, hdown⟩ := h.reached id ((hsome id).mp hid)
        rw [hids]
        exact ⟨r, hr, Forest.descends_insert hdown⟩
      scopes := by
        rw [hids]
        exact h.scopes.imp fun c p hc => Forest.mem_insert.mpr (.inl hc)
      outermost := h.outermost
      opened := fun s hs => (hsome s).mpr (h.opened s hs) }

theorem withNode (hchild : node.id ∈ t.childIds parent)
    (hfree : t.nodes node.id = none) (hfits : node.Fits) (hempty : node.children = []) :
    (t.withNode node).Wellformed := by
  -- a node without children changes no edge of the forest
  have hids := childIds_withNode hfree hempty
  have hmono : ∀ id, (t.nodes id).isSome → ((t.withNode node).nodes id).isSome := by
    intro id hid
    by_cases hne : id = node.id
    · rw [hne, nodes_withNode_self, isSome_some]
    · rwa [nodes_withNode_of_ne hne]
  obtain ⟨pnode, hpnode, -⟩ := mem_childIds.mp hchild
  exact
    { width := h.width
      height := h.height
      nextId := h.nextId
      fits := by
        intro id other hother
        by_cases hid : id = node.id
        · subst hid
          obtain rfl := some.inj (nodes_withNode_self.symm.trans hother)
          exact ⟨rfl, hfits⟩
        · exact h.fits id other ((nodes_withNode_of_ne hid).symm.trans hother)
      isNode_lt := by
        intro id hid
        unfold IsNode at hid
        rw [hids] at hid
        exact h.isNode_lt id hid
      forest := by
        rw [hids]
        exact h.forest
      empty := by
        intro hr
        have hnone := (h.empty hr).2.2 parent
        rw [hpnode] at hnone
        cases hnone
      root := by
        intro r hr
        rw [hids]
        exact ⟨hmono r (h.root r hr).1, (h.root r hr).2⟩
      reached := by
        intro id hid
        rw [hids]
        by_cases hne : id = node.id
        · subst hne
          obtain ⟨r, hr, hdown⟩ := h.reached parent (hpnode ▸ rfl)
          exact ⟨r, hr, hdown.tail hchild⟩
        · rw [nodes_withNode_of_ne hne] at hid
          exact h.reached id hid
      scopes := by
        rw [hids]
        exact h.scopes
      outermost := h.outermost
      opened := fun s hs => hmono s (h.opened s hs) }

theorem withScope (hhead : t.stack.head? = some parent)
    (hchild : id ∈ t.childIds parent) (hnode : (t.nodes id).isSome) :
    (t.withScope id).Wellformed := by
  obtain ⟨rest, hstack⟩ : ∃ rest, t.stack = parent :: rest := head?_eq_some_iff.mp hhead
  exact
    { h with
      empty := by
        intro hr
        have hnone := (h.empty hr).2.1
        rw [hstack] at hnone
        cases hnone
      scopes := by
        have hscopes := h.scopes
        rw [hstack] at hscopes
        have hall := List.IsChain.cons_cons hchild hscopes
        rwa [← hstack] at hall
      outermost := by
        intro s hs
        apply h.outermost s
        have hlast : (id :: t.stack).getLast? = t.stack.getLast? := by
          rw [hstack, getLast?_cons_cons]
        exact hlast.symm.trans hs
      opened := by
        intro s hs
        rcases mem_cons.mp hs with rfl | hs
        · exact hnode
        · exact h.opened s hs }

theorem tail : Wellformed { t with stack := t.stack.tail } :=
  { h with
    empty := by
      intro hr
      obtain ⟨hcount, hstack, hnodes⟩ := h.empty hr
      exact ⟨hcount, by rw [hstack]; rfl, hnodes⟩
    scopes := h.scopes.tail
    outermost := by
      intro s hs
      apply h.outermost s
      cases hstack : t.stack with
      | nil => simp [hstack] at hs
      | cons =>
          rw [hstack, tail_cons] at hs
          rw [getLast?_cons, hs, getD_some]
    opened := fun s hs => h.opened s (mem_of_mem_tail hs) }

/-- The first node is the root. -/
theorem rooted (hroot : t.root = none) (hid : node.id.raw = t.nextId)
    (hfits : node.Fits) (hempty : node.children = []) :
    (LayoutTree.withScope { t.allocated.withNode node with root := some node.id }
      node.id).Wellformed := by
  obtain ⟨-, hstack, hnodes⟩ := h.empty hroot
  have hscopes : node.id :: t.stack = [node.id] := congrArg (node.id :: ·) hstack
  have hids : (t.allocated.withNode node).childIds = fun _ => [] := by
    rw [childIds_withNode (t := t.allocated) (hnodes node.id) hempty]
    funext p
    exact childIds_of_none (hnodes p)
  -- the root is the only node
  have honly : ∀ id, (t.allocated.withNode node).nodes id =
      if id = node.id then some node else none := by
    intro id
    split
    next hid => rw [hid, nodes_withNode_self]
    next hne =>
      rw [nodes_withNode_of_ne hne]
      exact hnodes id
  exact
    { width := h.width
      height := h.height
      nextId := Nat.succ_pos _
      fits := by
        intro id other hother
        rw [LayoutTree.withScope, honly] at hother
        split at hother
        next heq =>
          obtain rfl := some.inj hother
          exact ⟨heq.symm, hfits⟩
        next => cases hother
      isNode_lt := by
        intro id hnode
        rcases hnode with hr | ⟨p, hp⟩
        · obtain rfl := some.inj hr
          exact hid ▸ Nat.lt_succ_self _
        · exact absurd (congrFun hids p ▸ hp) not_mem_nil
      forest := by
        refine ⟨fun p => ?_, fun p _ c hc => ?_, fun p c hc => ?_⟩
        · exact congrFun hids p ▸ nodup_nil
        · exact absurd (congrFun hids p ▸ hc) not_mem_nil
        · exact absurd (congrFun hids p ▸ hc) not_mem_nil
      empty := fun hr => nomatch hr
      root := by
        intro r hr
        obtain rfl := some.inj hr
        refine ⟨?_, fun p hp => absurd (congrFun hids p ▸ hp) not_mem_nil⟩
        exact nodes_withNode_self ▸ rfl
      reached := by
        intro id hid
        rw [LayoutTree.withScope, honly] at hid
        split at hid
        next heq => exact ⟨id, heq ▸ rfl, .refl⟩
        next => cases hid
      scopes := by
        change (node.id :: t.stack).IsChain _
        rw [hscopes]
        exact .singleton _
      outermost := by
        intro s hs
        change (node.id :: t.stack).getLast? = some s at hs
        rw [hscopes] at hs
        exact hs
      opened := by
        intro s hs
        change s ∈ node.id :: t.stack at hs
        rw [hscopes] at hs
        obtain rfl := mem_singleton.mp hs
        exact nodes_withNode_self ▸ rfl }

end Wellformed

/-! ### The steps of a call -/

/-- The innermost scope can take one more child, and the id is the next one. -/
structure Accepts (t : LayoutTree) (parent : NodeId) (node : NodeSpec) (id : NodeId) : Prop where
  innermost : t.stack.head? = some parent
  isNode : t.nodes parent = some node
  room : node.children.length < maxLayoutChildren
  next : id.raw = t.nextId

/-- A container takes its id, but there is no room for containers. -/
structure Consumes (t : LayoutTree) (parent : NodeId) : Prop where
  innermost : t.stack.head? = some parent
  room : ∃ node, t.nodes parent = some node ∧ node.children.length < maxLayoutChildren
  scopes : t.stack.length < maxLayoutNodes
  next : t.nextId ≤ maxNodeId
  full : maxLayoutNodes ≤ t.nodeCount

section Steps

variable {QUnit : Unit → LayoutTree → Prop} {Q : NodeId → LayoutTree → Prop}
  {E : LayoutError → LayoutTree → Prop}

theorem wp_ensureParent (hE : t.stack.head? ≠ some parent → E .invalidParent t)
    (hQ : t.stack.head? = some parent → QUnit () t) : wp (ensureParent parent) QUnit E t :=
  wp_bind (wp_get (wp_failIf hE fun h => hQ (not_not.mp h)))

theorem wp_ensureChildCapacity
    (hE : (∀ node, t.nodes parent = some node → maxLayoutChildren ≤ node.children.length) →
      ∀ e, E e t)
    (hQ : ∀ node, t.nodes parent = some node → node.children.length < maxLayoutChildren →
      QUnit () t) : wp (ensureChildCapacity parent) QUnit E t := by
  refine wp_bind (wp_get (wp_bind (wp_orFail (fun hnone => ?_) fun node hnode => ?_)))
  · exact hE (fun node hnode => nomatch hnone.symm.trans hnode) _
  · refine wp_failIf (fun hfull => hE (fun other hother => ?_) _) fun hroom => ?_
    · obtain rfl := some.inj (hnode.symm.trans hother)
      exact hfull
    · exact hQ node hnode (not_le.mp hroom)

theorem wp_allocateId (hnext : 0 < t.nextId) (hE : maxNodeId < t.nextId → E .nodeIdCapacity t)
    (hQ : ∀ id : NodeId, id.raw = t.nextId → Q id t.allocated) : wp allocateId Q E t := by
  refine wp_bind (wp_get (wp_bind (wp_failIf hE fun hle => ?_)))
  have hnew : NodeId.new t.nextId = some ⟨t.nextId, hnext, not_lt.mp hle⟩ := by
    rw [NodeId.new, dif_pos ⟨by exact_mod_cast hnext, by exact_mod_cast not_lt.mp hle⟩]
    rfl
  refine wp_bind (wp_demand hnew (wp_bind (wp_modify (wp_pure ?_))))
  exact hQ _ rfl

theorem wp_insertContainer (hE : maxLayoutNodes ≤ t.nodeCount → E .nodeCapacity t)
    (hQ : t.nodeCount < maxLayoutNodes → Q node.id (t.withNode node)) :
    wp (insertContainer node) Q E t := by
  refine wp_bind (wp_get (wp_bind (wp_failIf hE fun hroom => ?_)))
  exact wp_bind (wp_modify (wp_pure (hQ (not_le.mp hroom))))

theorem wp_pushChild (hnode : t.nodes parent = some node)
    (hroom : node.children.length < maxLayoutChildren)
    (hQ : QUnit () (t.withChild parent node child)) : wp (pushChild parent child) QUnit E t := by
  refine wp_bind (wp_get (wp_bind (wp_some hnode (wp_bind ?_))))
  exact wp_failIf (fun hfull => absurd hroom (not_lt.mpr hfull)) fun _ => wp_modify hQ

theorem wp_pushScope (hroom : t.stack.length < maxLayoutNodes)
    (hQ : QUnit () (t.withScope id)) : wp (pushScope id) QUnit E t := by
  refine wp_bind (wp_get (wp_bind ?_))
  exact wp_failIf (fun hfull => absurd hroom (not_lt.mpr hfull)) fun _ => wp_modify hQ

end Steps

namespace Accepts

theorem lt (ha : t.Accepts parent node id) (h : t.Wellformed) : parent.raw < id.raw :=
  ha.next ▸ h.node_lt ha.isNode

theorem not_isNode (ha : t.Accepts parent node id) (h : t.Wellformed) : ¬ t.IsNode id :=
  h.not_isNode ha.next

theorem withChild (ha : t.Accepts parent node child.id) (h : t.Wellformed) (hchild : child.Fits) :
    (t.allocated.withChild parent node child).Wellformed := by
  refine h.allocated.withChild ha.isNode ha.room hchild (ha.not_isNode h) ?_ (ha.lt h)
  exact ha.next ▸ Nat.lt_succ_self _

/-- So does a new container, the scope of which is opened. -/
theorem withContainer (added : NodeSpec) (ha : t.Accepts parent node added.id) (h : t.Wellformed)
    (hadded : added.Fits) (hempty : added.children = []) (hid : child.id = added.id)
    (hchild : child.Fits) :
    (((t.allocated.withNode added).withChild parent node child).withScope added.id).Wellformed := by
  have hne : parent ≠ added.id := fun heq => absurd (ha.lt h) (heq ▸ lt_irrefl _)
  have hpushed := (hid ▸ ha).withChild h hchild
  have hmem : added.id ∈ (t.allocated.withChild parent node child).childIds parent := by
    rw [childIds_withChild (t := t.allocated) child ha.isNode, Function.update_self, hid]
    exact mem_append_right _ (mem_singleton.mpr rfl)
  have hfree : (t.allocated.withChild parent node child).nodes added.id = none := by
    rw [nodes_withChild_of_ne hne.symm]
    exact h.nodes_eq_none (ha.not_isNode h)
  rw [withNode_withChild hne]
  refine (hpushed.withNode hmem hfree hadded hempty).withScope ha.innermost ?_ ?_
  · rw [childIds_withNode hfree hempty]
    exact hmem
  · rw [nodes_withNode_self, isSome_some]

end Accepts

/-! ### The calls -/

theorem wp_insertLeaf (h : t.Wellformed) (parent : NodeId) (kind : WidgetKind)
    (eventId width height : ℤ) (stretch : Bool) :
    wp (insertLeaf parent kind eventId width height stretch) (fun _ t' => t'.Wellformed)
      (fun _ t' => t' = t) t := by
  refine wp_bind (wp_ensureParent (fun _ => rfl) fun hinnermost => ?_)
  refine wp_bind (wp_ensureChildCapacity (fun _ _ => rfl) fun node hnode hroom => ?_)
  refine wp_bind (wp_allocateId h.nextId (fun _ => rfl) fun id hid => ?_)
  have haccepts : t.Accepts parent node id := ⟨hinnermost, hnode, hroom, hid⟩
  refine wp_bind (wp_pushChild hnode hroom (wp_pure ?_))
  exact Accepts.withChild haccepts h ⟨clampDimension_mem (by decide) _,
    clampDimension_mem (by decide) _⟩

theorem wp_openContainer (h : t.Wellformed) (parent : NodeId) (kind : WidgetKind)
    (orientation : Orientation) (spec : ContainerSpec) :
    wp (openContainer parent kind orientation spec)
      (fun _ t' => t'.Wellformed ∧ ¬ t.Consumes parent)
      (fun _ t' => t.Consumes parent ∧ t' = t.allocated ∨ ¬ t.Consumes parent ∧ t' = t) t := by
  refine wp_bind (wp_ensureParent (fun hother => ?_) fun hinnermost => ?_)
  · exact .inr ⟨fun hconsumes => hother hconsumes.innermost, rfl⟩
  refine wp_bind (wp_ensureChildCapacity (fun hfull e => ?_) fun pnode hpnode hroom => ?_)
  · refine .inr ⟨fun hconsumes => ?_, rfl⟩
    obtain ⟨node, hnode, hlt⟩ := hconsumes.room
    exact absurd hlt (not_lt.mpr (hfull node hnode))
  refine wp_bind (wp_get (wp_bind (wp_failIf (fun hdeep => ?_) fun hscopes => ?_)))
  · exact .inr ⟨fun hconsumes => absurd hconsumes.scopes (not_lt.mpr hdeep), rfl⟩
  refine wp_bind (wp_allocateId h.nextId (fun hlast => ?_) fun id hid => ?_)
  · exact .inr ⟨fun hconsumes => absurd hconsumes.next (not_le.mpr hlast), rfl⟩
  -- from here on the id is taken
  have hle : t.nextId ≤ maxNodeId := hid ▸ id.le
  refine wp_bind (wp_insertContainer (fun hfull => ?_) fun hfree => ?_)
  · exact .inl ⟨⟨hinnermost, ⟨pnode, hpnode, hroom⟩, not_le.mp hscopes, hle, hfull⟩, rfl⟩
  have haccepts : t.Accepts parent pnode id := ⟨hinnermost, hpnode, hroom, hid⟩
  have hne : parent ≠ id := fun heq => absurd (haccepts.lt h) (heq ▸ lt_irrefl _)
  have hkept : ∀ added : NodeSpec, added.id = id →
      (t.allocated.withNode added).nodes parent = some pnode := by
    intro added hadded
    rw [nodes_withNode_of_ne (hadded ▸ hne)]
    exact hpnode
  refine wp_bind (wp_pushChild (hkept _ rfl) hroom (wp_bind ?_))
  refine wp_pushScope (not_le.mp hscopes) (wp_pure ⟨?_, ?_⟩)
  · refine Accepts.withContainer (NodeSpec.new id kind _ orientation spec.normalized) haccepts h
      NodeSpec.fits_new rfl rfl ?_
    exact ⟨clampDimension_mem (by decide) _, clampDimension_mem (by decide) _⟩
  · exact fun hconsumes => absurd hfree (not_lt.mpr hconsumes.full)

theorem wp_beginRoot (h : t.Wellformed) :
    wp beginRoot (fun _ t' => t'.Wellformed) (fun _ t' => t' = t) t := by
  refine wp_bind (wp_get (wp_bind (wp_failIf (fun _ => rfl) fun hroot => ?_)))
  have hnone : t.root = none := not_isSome_iff_eq_none.mp hroot
  obtain ⟨hcount, hstack, -⟩ := h.empty hnone
  obtain ⟨hwidth, hwidth'⟩ := h.width
  obtain ⟨hheight, hheight'⟩ := h.height
  unfold minWindowWidth at hwidth
  unfold maxWindowWidth at hwidth'
  unfold minWindowHeight at hheight
  unfold maxWindowHeight at hheight'
  have hmargin : rootMargin = 16 := rfl
  refine wp_bind (wp_demand (checkedI32_eq (by omega) (by omega)) ?_)
  refine wp_bind (wp_demand (checkedI32_eq (by omega) (by omega)) ?_)
  refine wp_bind (wp_allocateId h.nextId (fun _ => rfl) fun id hid => ?_)
  refine wp_bind (wp_insertContainer (fun hfull => ?_) fun _ => ?_)
  · exact absurd (hcount ▸ hfull) (by decide)
  refine wp_bind (wp_modify (wp_bind (wp_pushScope ?_ (wp_pure ?_))))
  · change t.stack.length < maxLayoutNodes
    rw [hstack]
    decide
  · have hpos : ∀ n : ℕ, 0 ≤ (n : ℤ) := Int.natCast_nonneg
    refine h.rooted hnone hid ?_ rfl
    exact
      { x := ⟨hpos 16, Int.le_refl 16⟩
        y := ⟨hpos 16, Int.le_refl 16⟩
        width := clampDimension_mem (by decide) _
        height := clampDimension_mem (by decide) _
        padding := ⟨hpos 16, Int.ofNat_le.mpr (show 16 ≤ 128 by decide)⟩
        gap := ⟨hpos 12, Int.ofNat_le.mpr (show 12 ≤ 128 by decide)⟩
        length := Nat.zero_le _
        children := fun _ hc => absurd hc not_mem_nil }

theorem wp_endNode (h : t.Wellformed) (node : NodeId) :
    wp (endNode node) (fun _ t' => t'.Wellformed) (fun _ t' => t' = t) t :=
  wp_bind (wp_get (wp_bind (wp_failIf (fun _ => rfl) fun _ => wp_modify h.tail)))

end LayoutTree

end Jadren.Ui

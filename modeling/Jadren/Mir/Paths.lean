import Jadren.Mir.Syntax

/-!
# What a path through a function does to its places

An analysis sees `xs[_]`, with one `Projection.index` for every element.  A path
evaluates the index operands, so on a path an access denotes a definite element.
`ConcretePlace` is a place with its indices evaluated; `ConcretePlace.place`
forgets them.  Concrete places that overlap have overlapping places
(`overlaps_place`), which is why a static check is safe.  The converse fails, and
so does its analogue for assignments: writing `xs[i]` overlaps every `xs[_]` the
analysis knows, but restores only the element `i`.

An `Execution` is one action together with the places its accesses and its
destination denote.  `movedAfter` is the path's own account of the places moved
out so far: a consuming access adds a place, and only an assignment whose
destination covers a place restores it.
-/

namespace Jadren.Mir

/-- One step from a place to a part of it, with the index evaluated. -/
inductive Segment
  | field (name : String)
  | element (index : ℕ)
  | dereference
  deriving DecidableEq, Repr

def Segment.projection : Segment → Projection
  | .field name => .field name
  | .element _ => .index
  | .dereference => .dereference

/-- A place as a path denotes it. -/
structure ConcretePlace where
  root : LocalId
  path : List Segment
  deriving DecidableEq, Repr

namespace ConcretePlace

/-- The place an analysis sees. -/
def place (c : ConcretePlace) : Place := ⟨c.root, c.path.map Segment.projection⟩

def ofLocal (root : LocalId) : ConcretePlace := ⟨root, []⟩

/-- The other place is this one or a part of it. -/
def covers (c d : ConcretePlace) : Bool := c.root == d.root && c.path.isPrefixOf d.path

/-- One of the two places is a part of the other. -/
def overlaps (c d : ConcretePlace) : Bool := c.covers d || d.covers c

variable {c d : ConcretePlace}

theorem covers_iff : c.covers d = true ↔ c.root = d.root ∧ c.path <+: d.path := by
  simp [covers]

theorem place_root (c : ConcretePlace) : c.place.root = c.root := rfl

/-- Places that overlap at run time overlap for the analysis. -/
theorem overlaps_place (h : c.overlaps d = true) : c.place.overlaps d.place = true := by
  rw [Place.overlaps_iff]
  rcases (Bool.or_eq_true _ _).mp h with hcovers | hcovers
  · obtain ⟨hroot, hpath⟩ := covers_iff.mp hcovers
    exact ⟨hroot, Or.inr (hpath.map _)⟩
  · obtain ⟨hroot, hpath⟩ := covers_iff.mp hcovers
    exact ⟨hroot.symm, Or.inl (hpath.map _)⟩

theorem overlaps_of_covers (h : c.covers d = true) : c.overlaps d = true := by
  simp [overlaps, h]

end ConcretePlace

/-- The access that takes a borrow. -/
def BorrowKind.access : BorrowKind → AccessKind
  | .read => .borrowRead
  | .write => .borrowWrite

/-- The accesses that evaluate operands or take a borrow. -/
def Action.operandAccesses : Action → List PlaceAccess
  | .statement (.assign _ _ _ accesses _) => accesses
  | .statement (.borrow _ source kind _ span) => [⟨source, kind.access, span⟩]
  | .statement (.evaluate _ accesses _) => accesses
  | .statement _ => []
  | .terminator last => terminatorAccesses last

/-- The place an assignment writes. -/
def Action.destination? : Action → Option Place
  | .statement (.assign destination _ _ _ _) => some destination
  | _ => none

/-- One execution of an action: the place each access denotes, in order, and the
place an assignment writes. -/
structure Execution where
  action : Action
  accessed : List ConcretePlace
  written : ConcretePlace

namespace Execution

/-- The accesses with the places they denote. -/
def accesses (x : Execution) : List (PlaceAccess × ConcretePlace) :=
  x.action.operandAccesses.zip x.accessed

/-- The denoted places are instances of the accessed ones. -/
structure Resolves (x : Execution) : Prop where
  accessed : x.accessed.map ConcretePlace.place = x.action.operandAccesses.map PlaceAccess.place
  written : ∀ destination ∈ x.action.destination?, x.written.place = destination

variable {x : Execution}

theorem Resolves.length_eq (resolves : x.Resolves) :
    x.accessed.length = x.action.operandAccesses.length := by
  simpa using congrArg List.length resolves.accessed

/-- The accesses of an execution, as an analysis sees them. -/
theorem Resolves.map_fst (resolves : x.Resolves) :
    x.accesses.map Prod.fst = x.action.operandAccesses :=
  List.map_fst_zip (Nat.le_of_eq resolves.length_eq.symm)

theorem Resolves.place_eq (resolves : x.Resolves) :
    ∀ access ∈ x.accesses, access.2.place = access.1.place := by
  intro access hmem
  obtain ⟨i, hi, rfl⟩ := List.mem_iff_getElem.mp hmem
  have hi' : i < x.action.operandAccesses.length ∧ i < x.accessed.length := by
    simpa [accesses, Nat.lt_min] using hi
  have hplaces := congrArg (fun l : List Place => l[i]?) resolves.accessed
  simpa [accesses, List.getElem?_eq_getElem, hi'.1, hi'.2] using hplaces

/-- An action without operands accesses nothing. -/
theorem accesses_eq_nil (h : x.action.operandAccesses = []) : x.accesses = [] := by
  simp [accesses, h]

theorem Resolves.borrow_accesses (resolves : x.Resolves) {destination : LocalId} {source : Place}
    {kind : BorrowKind} {preserveValue : Bool} {span : Span}
    (haction : x.action = .statement (.borrow destination source kind preserveValue span)) :
    ∃ c, x.accesses = [(⟨source, kind.access, span⟩, c)] ∧ c.place = source := by
  have hplaces := resolves.accessed
  rw [haction] at hplaces
  obtain ⟨c, hc, hplace⟩ := List.map_eq_singleton_iff.mp hplaces
  exact ⟨c, by simp [accesses, haction, Action.operandAccesses, hc], hplace⟩

end Execution

/-- The concrete place in which every index is zero. -/
def Place.atZero (place : Place) : ConcretePlace :=
  ⟨place.root, place.projection.map fun
    | .field name => .field name
    | .index => .element 0
    | .dereference => .dereference⟩

@[simp] theorem Place.place_atZero (place : Place) : place.atZero.place = place := by
  obtain ⟨root, projection⟩ := place
  simp only [atZero, ConcretePlace.place, List.map_map, Place.mk.injEq, true_and]
  conv_rhs => rw [← List.map_id projection]
  exact List.map_congr_left fun step _ => by cases step <;> rfl

/-- The execution of an action in which every index is zero. -/
def Action.atZero (action : Action) : Execution where
  action := action
  accessed := action.operandAccesses.map fun access => access.place.atZero
  written := (action.destination?.getD (.ofLocal 0)).atZero

theorem Action.atZero_resolves (action : Action) : action.atZero.Resolves where
  accessed := by simp [atZero]
  written destination h := by
    have hdestination : action.destination? = some destination := h
    simp [atZero, hdestination]

theorem Action.atZero_accesses (action : Action) :
    action.atZero.accesses =
      action.operandAccesses.map fun access => (access, access.place.atZero) := by
  unfold Execution.accesses atZero
  generalize action.operandAccesses = accesses
  induction accesses with
  | nil => rfl
  | cons access rest ih => simpa using ih

/-- The places moved out after the given accesses. -/
def takeOut (consumes : AccessKind → Bool) (accesses : List (PlaceAccess × ConcretePlace))
    (moved : List ConcretePlace) : List ConcretePlace :=
  accesses.foldl (fun current access =>
    if consumes access.1.kind then access.2 :: current else current) moved

/-- Some access uses a place that overlaps a place moved out before it. -/
def UsesMoved (consumes : AccessKind → Bool) :
    List (PlaceAccess × ConcretePlace) → List ConcretePlace → Prop
  | [], _ => False
  | access :: rest, moved =>
      (∃ place ∈ moved, place.overlaps access.2 = true) ∨
        UsesMoved consumes rest (takeOut consumes [access] moved)

/-- The places moved out after an execution. -/
def movedAfter (consumes : AccessKind → Bool) (x : Execution) (moved : List ConcretePlace) :
    List ConcretePlace :=
  match x.action with
  | .statement (.storageLive slot _) | .statement (.storageDead slot _)
  | .statement (.regionEnter slot _) | .statement (.regionExit slot _) =>
      moved.filter fun place => place.root ≠ slot
  | .statement (.assign _ _ _ _ _) =>
      (takeOut consumes x.accesses moved).filter fun place => ¬ x.written.covers place
  | .statement (.borrow destination _ _ preserveValue _) =>
      if preserveValue then takeOut consumes x.accesses moved
      else (takeOut consumes x.accesses moved).filter fun place => place.root ≠ destination
  | _ => takeOut consumes x.accesses moved

/-- The execution restores no place by halves: an assignment covers each place
moved out that its destination overlaps, and a value-preserving borrow is stored
beside a value that is still there. -/
def RestoresWhole (consumes : AccessKind → Bool) (x : Execution) (moved : List ConcretePlace) :
    Prop :=
  match x.action with
  | .statement (.assign destination _ _ _ _) =>
      ∀ place ∈ takeOut consumes x.accesses moved,
        place.place.overlaps destination = true → x.written.covers place = true
  | .statement (.borrow destination _ _ true _) =>
      ∀ place ∈ moved, place.root ≠ destination
  | _ => True

instance (consumes : AccessKind → Bool) :
    ∀ accesses moved, Decidable (UsesMoved consumes accesses moved)
  | [], _ => inferInstanceAs (Decidable False)
  | access :: rest, moved =>
      haveI := instDecidableUsesMoved consumes rest (takeOut consumes [access] moved)
      inferInstanceAs (Decidable ((∃ place ∈ moved, place.overlaps access.2 = true) ∨
        UsesMoved consumes rest (takeOut consumes [access] moved)))

instance (consumes : AccessKind → Bool) (x : Execution) (moved : List ConcretePlace) :
    Decidable (RestoresWhole consumes x moved) := by
  unfold RestoresWhole
  split <;> infer_instance

@[simp] theorem takeOut_nil (consumes : AccessKind → Bool) (moved : List ConcretePlace) :
    takeOut consumes [] moved = moved := rfl

theorem takeOut_cons (consumes : AccessKind → Bool) (access : PlaceAccess × ConcretePlace)
    (rest : List (PlaceAccess × ConcretePlace)) (moved : List ConcretePlace) :
    takeOut consumes (access :: rest) moved =
      takeOut consumes rest (takeOut consumes [access] moved) := rfl

/-- Accesses that consume nothing move nothing out. -/
theorem takeOut_eq_self {consumes : AccessKind → Bool}
    {accesses : List (PlaceAccess × ConcretePlace)} {moved : List ConcretePlace}
    (h : ∀ access ∈ accesses, consumes access.1.kind = false) :
    takeOut consumes accesses moved = moved := by
  induction accesses generalizing moved with
  | nil => rfl
  | cons access rest ih =>
      rw [takeOut_cons, ih fun other hother => h other (List.mem_cons_of_mem _ hother)]
      simp [takeOut, h access (List.mem_cons_self ..)]

end Jadren.Mir

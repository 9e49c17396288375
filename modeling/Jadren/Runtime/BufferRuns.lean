import Jadren.Library.Transition
import Jadren.Runtime.BufferMoves

/-!
# Runs of buffer operations

A program calls the operations on one header in any order, with any arguments and whatever
the allocator does.  The header stays well formed, and each call is the list operation of
its name on the elements, or fails and has changed nothing; no call faults.

What a caller owes is that a pointer for an element is null or a slot of its own, and that
a view is one that a call has returned for memory as it still is (`Operation.Permitted`).
-/

namespace Jadren.Runtime

open Program Chunks List Option

variable {size align : ℕ}

/-! ## Well-formed headers -/

/-- The header's allocation holds as many elements as it says. -/
structure Buffer.WellFormed (size align : ℕ) (m : Memory) (buffer : Buffer) : Prop where
  length_le : buffer.length ≤ buffer.capacity
  null_iff : buffer.capacity = 0 ↔ buffer.pointer.isNull
  block : buffer.capacity ≠ 0 → buffer.pointer.offset = 0 ∧ align ∣ buffer.pointer.base ∧
    ∃ object, m buffer.pointer.base = some object ∧
      bufferLayout size align buffer.capacity = .ok object.layout

variable {buffer : Buffer} {spare : List Element}

theorem Holds.wellFormed {m : Memory} {elements : List Element}
    (h : Holds m size align buffer elements spare) : buffer.WellFormed size align m :=
  ⟨h.length_le, h.isNull_iff, fun hcapacity =>
    have ⟨hoffset, _, hblock⟩ := h.block hcapacity
    ⟨hoffset, hblock⟩⟩

theorem Pointer.eq_null {p : Pointer} (h : p.isNull) : p = .null := by
  obtain ⟨hbase, hoffset⟩ := Nat.add_eq_zero_iff.mp h
  cases p
  obtain rfl := hbase
  obtain rfl := hoffset
  rfl

/-- The block of a well-formed header is a list of slots. -/
theorem Buffer.WellFormed.exists_holds {m : Memory} (h : buffer.WellFormed size align m) :
    ∃ elements spare, Holds m size align buffer elements spare := by
  have hnull : buffer.capacity = 0 → buffer.pointer = .null := fun hzero =>
    Pointer.eq_null (h.null_iff.mp hzero)
  by_cases hcapacity : buffer.capacity = 0
  · have hlength : buffer.length = 0 := Nat.le_zero.mp (hcapacity ▸ h.length_le)
    exact ⟨[], [], hlength, hcapacity, hnull, fun hne => absurd hcapacity hne,
      fun hne => absurd hcapacity hne⟩
  · obtain ⟨hoffset, hdvd, object, hobject, hlayout⟩ := h.block hcapacity
    have hbase : buffer.pointer.base ≠ 0 := fun hzero =>
      hcapacity (h.null_iff.mpr (Nat.add_eq_zero_iff.mpr ⟨hzero, hoffset⟩))
    have hblock := (bufferLayout_checked ..).of_eq_ok hlayout
    have hbytes : object.bytes.length = buffer.capacity * size := by
      rw [object.length_bytes, hblock.eq]
      exact Nat.mul_comm ..
    obtain ⟨slots, huniform, hslots, hflatten⟩ := exists_uniform hbytes
    refine ⟨slots.take buffer.length, slots.drop buffer.length, ?_, ?_, hnull,
      fun _ => ⟨hoffset, hbase, hdvd, object, hobject, hlayout⟩, fun _ => ?_⟩
    · rw [length_take, hslots, Nat.min_eq_left h.length_le]
    · rw [take_append_drop, hslots]
    · rw [take_append_drop]
      refine ⟨huniform, object, [], [], hobject, ?_, hoffset.symm⟩
      rw [nil_append, append_nil, hflatten]

/-- The header of the world, if there is one, is well formed. -/
def World.WellFormed (size align : ℕ) (w : World) : Prop :=
  ∀ buffer, w.header = some buffer → buffer.WellFormed size align w.memory

/-- The elements of the header, the first one first. -/
def World.elements (size : ℕ) (w : World) : List Element :=
  match w.header with
  | none => []
  | some buffer => (range buffer.length).map fun i =>
      (w.memory.read (buffer.pointer.plus (i * size)) size).getD []

variable {w : World}

theorem Holds.elements_eq {elements : List Element} (hheader : w.header = some buffer)
    (h : Holds w.memory size align buffer elements spare) : w.elements size = elements := by
  unfold World.elements
  rw [hheader]
  apply ext_getElem
  · rw [length_map, length_range, h.length_eq]
  intro i _ hi
  rw [getElem_map, getElem_range]
  have hlt : i < buffer.length := h.length_eq ▸ hi
  have hslots : i + 1 ≤ (elements ++ spare).length :=
    h.capacity_eq ▸ Nat.lt_of_lt_of_le hlt h.length_le
  have hread := (h.stores (h.capacity_ne_zero (Nat.zero_lt_of_lt hlt))).read hslots
  rw [Nat.one_mul, drop_eq_getElem_cons hslots, getElem_append_left hi] at hread
  rw [hread]
  exact flatten_singleton

variable {w' : World}

theorem Becomes.wellFormed {slot : Option ℕ} {elements : List Element}
    (h : Becomes size align slot w w' buffer elements spare) : w'.WellFormed size align := by
  intro buffer' hbuffer'
  obtain rfl := some.inj (h.header.symm.trans hbuffer')
  exact h.holds.wellFormed

theorem Becomes.elements_eq {slot : Option ℕ} {elements : List Element}
    (h : Becomes size align slot w w' buffer elements spare) :
    w'.elements size = elements := h.holds.elements_eq h.header

/-! ## Operations -/

/-- An operation and its arguments. -/
inductive Operation
  | create (capacity : ℕ)
  | reserve (minimumCapacity : ℕ)
  | resize (newLength : ℕ)
  | insertMoveFrom (index : ℕ) (source : Pointer)
  | removeMoveInto (index : ℕ) (output : Pointer)
  | popMoveInto (output : Pointer)
  | pop (nestedElementSize nestedAlignment : ℕ)
  | removeMove (index nestedElementSize nestedAlignment : ℕ)
  | removeDrop (index : ℕ)
  | slice (start count : ℕ)
  | subslice (view : Option Slice) (start count : ℕ)

/-- What a call returns besides its status. -/
inductive Returned
  | nothing
  | buffer (buffer : Buffer)
  | slice (slice : Slice)

namespace Operation

/-- The call; a created buffer becomes the header. -/
def call (A : Allocator) (size align : ℕ) : Operation → Call Returned
  | create capacity => do
    let buffer ← bufferCreate A size align capacity
    setHeader buffer
    pure (.buffer buffer)
  | reserve minimumCapacity => do
    bufferReserve A size align minimumCapacity
    pure .nothing
  | resize newLength => do
    bufferResize newLength
    pure .nothing
  | insertMoveFrom index source => do
    bufferInsertMoveFrom A index source size align
    pure .nothing
  | removeMoveInto index output => do
    bufferRemoveMoveInto index output size align
    pure .nothing
  | popMoveInto output => do
    bufferPopMoveInto output size align
    pure .nothing
  | pop nestedElementSize nestedAlignment => do
    let buffer ← bufferPop size align nestedElementSize nestedAlignment
    pure (.buffer buffer)
  | removeMove index nestedElementSize nestedAlignment => do
    let buffer ← bufferRemoveMove index size align nestedElementSize nestedAlignment
    pure (.buffer buffer)
  | removeDrop index => do
    bufferRemoveDrop index size align
    pure .nothing
  | slice start count => do
    let part ← bufferSlice size align start count
    pure (.slice part)
  | subslice view start count => do
    let part ← sliceSubslice view size align start count
    pure (.slice part)

/-- The caller's storage, if the operation moves an element there or takes it from there. -/
def slot : Operation → Option Pointer
  | insertMoveFrom _ source => some source
  | removeMoveInto _ output => some output
  | popMoveInto output => some output
  | _ => none

/-- The documented contract of the pointers: storage for one element, apart from the
buffer; a view of elements. -/
def Permitted (size align : ℕ) (w : World) : Operation → Prop
  | subslice view _ _ => ∀ s, view = some s → ∃ elements, Views w.memory size align s elements
  | op => ∀ p, op.slot = some p → ¬ p.isNull → ∃ x, w.Slot p size x

/-- What the operation of this name does to a list. -/
def Effect (size align : ℕ) (w w' : World) (returned : Returned) : Operation → Prop
  | create _ => w'.elements size = []
  | reserve minimumCapacity => w'.elements size = w.elements size ∧
      ∃ buffer, w'.header = some buffer ∧ minimumCapacity ≤ buffer.capacity
  | resize newLength => (w'.elements size).length = newLength ∧
      (w'.elements size <+: w.elements size ∨ w.elements size <+: w'.elements size)
  | insertMoveFrom index source => index ≤ (w.elements size).length ∧
      ∃ x, w.memory.read source size = some x ∧
        w'.elements size = (w.elements size).insertIdx index x ∧
        w'.memory.read source size = some (replicate size 0)
  | removeMoveInto index output => ∃ x, (w.elements size)[index]? = some x ∧
      w'.elements size = (w.elements size).eraseIdx index ∧ w'.memory.read output size = some x
  | popMoveInto output => ∃ x, (w.elements size).getLast? = some x ∧
      w'.elements size = (w.elements size).dropLast ∧ w'.memory.read output size = some x
  | pop _ _ => ∃ x, (w.elements size).getLast? = some x ∧
      w'.elements size = (w.elements size).dropLast ∧ returned = .buffer (.ofBytes x)
  | removeMove index _ _ => ∃ x, (w.elements size)[index]? = some x ∧
      w'.elements size = (w.elements size).eraseIdx index ∧ returned = .buffer (.ofBytes x)
  | removeDrop index => index < (w.elements size).length ∧
      w'.elements size = (w.elements size).eraseIdx index
  | slice start count => w' = w ∧ start + count ≤ (w.elements size).length ∧
      ∃ part, returned = .slice part ∧
        Views w.memory size align part (((w.elements size).drop start).take count)
  | subslice view start count => w' = w ∧ ∀ s elements, view = some s →
      Views w.memory size align s elements → start + count ≤ elements.length ∧
      ∃ part, returned = .slice part ∧
        Views w.memory size align part ((elements.drop start).take count)

/-- Objects that are neither the buffer's nor the caller's slot are as they were. -/
def Frame (w w' : World) (op : Operation) : Prop :=
  ∀ base, w.memory base ≠ none → w.Apart base → op.slot.map Pointer.base ≠ some base →
    w'.memory base = w.memory base

/-- A successful call. -/
structure Done (size align : ℕ) (w : World) (op : Operation) (returned : Returned) (w' : World) :
    Prop where
  wellFormed : w'.WellFormed size align
  effect : op.Effect size align w w' returned
  frame : op.Frame w w'

end Operation

section Calls

variable {A : Allocator} {w : World}

/-- A created buffer is empty, and in nothing that was there before. -/
theorem bufferCreate_spec {capacity : ℕ} :
    wp (bufferCreate A size align capacity)
      (fun buffer w' => ∃ m spare, w' = { w with memory := m } ∧
        Holds m size align buffer [] spare ∧
        ∀ base, w.memory base ≠ none → m base = w.memory base)
      (Unchanged w) w := by
  have hempty : Holds w.memory size align .empty [] [] :=
    ⟨rfl, rfl, fun _ => rfl, fun h => absurd rfl h, fun h => absurd rfl h⟩
  unfold bufferCreate
  refine wp_bind (wp_requireInitialized fun _ => ?_)
  split
  next =>
    refine wp_bind (wp_checked (validateElementLayout_checked ..) unchanged fun _ _ _ => ?_)
    exact wp_pure ⟨w.memory, [], rfl, hempty, fun _ _ => rfl⟩
  next =>
    refine wp_bind (wp_checked (bufferLayout_checked ..) unchanged fun _ hlayout _ => ?_)
    refine wp_then wp_alloc ?_
    rintro _ _ (⟨rfl, rfl⟩ | ⟨pointer, m, rfl, rfl, hgrown⟩)
    · exact wp_bind (wp_orFail (fun _ => unchanged _ BufferStatus.noConfusion) nofun)
    obtain ⟨spare, hholds⟩ := hempty.grow (Nat.zero_le _) hlayout hgrown
    refine wp_bind (wp_some rfl (wp_pure ⟨m, spare, rfl, hholds, fun base hsome => ?_⟩))
    exact (hgrown.elsewhere base hsome id).2

/-- A call that begins by looking at the header fails if there is none. -/
theorem wp_noHeader {α : Type} {f : Buffer → Call α} {Q : α → World → Prop}
    (hheader : w.header = none) :
    wp (do
        requireInitialized
        let buffer ← liveHeader
        f buffer) Q (Unchanged w) w := by
  refine wp_bind (wp_requireInitialized fun _ => wp_bind (wp_liveHeader fun buffer h => ?_))
  exact absurd (hheader.symm.trans h) (Option.some_ne_none _).symm

namespace Operation

/-- The operation looks at the header. -/
def NeedsHeader : Operation → Prop
  | create _ => False
  | subslice _ _ _ => False
  | _ => True

variable {op : Operation}

theorem call_noHeader (hop : op.NeedsHeader) (hheader : w.header = none)
    {Q : Returned → World → Prop} : wp (op.call A size align) Q (Unchanged w) w := by
  cases op with
  | create => exact hop.elim
  | subslice => exact hop.elim
  | pop | removeMove => exact wp_bind (wp_bind (wp_noHeader hheader))
  | _ => exact wp_bind (wp_noHeader hheader)

theorem create_spec {capacity : ℕ} :
    wp ((create capacity).call A size align) ((create capacity).Done size align w)
      (Unchanged w) w := by
  refine wp_then bufferCreate_spec ?_
  rintro buffer _ ⟨m, spare, rfl, hholds, hframe⟩
  refine wp_bind (wp_modify (wp_pure ⟨fun buffer' hbuffer' => ?_, ?_, ?_⟩))
  · obtain rfl := some.inj hbuffer'
    exact hholds.wellFormed
  · exact hholds.elements_eq rfl
  · exact fun base hsome _ _ => hframe base hsome

theorem subslice_spec {view : Option Slice} {start count : ℕ} (hw : w.WellFormed size align)
    (hop : (subslice view start count).Permitted size align w) :
    wp ((subslice view start count).call A size align)
      ((subslice view start count).Done size align w) (Unchanged w) w := by
  cases view with
  | none =>
    refine wp_bind (wp_bind (wp_requireInitialized fun _ => ?_))
    exact wp_bind (wp_orFail (fun _ => unchanged _ BufferStatus.noConfusion) nofun)
  | some s =>
    obtain ⟨elements, hviews⟩ := hop s rfl
    have hnonempty : Nonempty { elements // Views w.memory size align s elements } :=
      ⟨elements, hviews⟩
    refine wp_then (wp_forall fun viewed : { elements // Views w.memory size align s elements } =>
      sliceSubslice_spec viewed.1 fun s' hs' => ?_) ?_
    · obtain rfl := some.inj hs'
      exact viewed.2
    intro part w' hpart
    obtain ⟨rfl, -⟩ := hpart ⟨elements, hviews⟩
    refine wp_pure ⟨hw, ⟨rfl, fun s' elements' hs' hviews' => ?_⟩, fun _ _ _ _ => rfl⟩
    obtain rfl := some.inj hs'
    obtain ⟨-, hle, hpart⟩ := hpart ⟨elements', hviews'⟩
    exact ⟨hle, part, rfl, hpart⟩

/-- The storage that an operation is given, unless its pointer is null. -/
theorem exists_slot {p : Pointer} (hslot : op.slot = some p)
    (hop : ∀ p, op.slot = some p → ¬ p.isNull → ∃ x, w.Slot p size x) :
    ∃ x, ¬ p.isNull → w.Slot p size x := by
  by_cases hnull : p.isNull
  · exact ⟨[], fun h => absurd hnull h⟩
  · exact (hop p hslot hnull).imp fun x hx _ => hx

section Header

variable {buffer : Buffer} {elements spare : List Element} (hheader : w.header = some buffer)
  (hholds : Holds w.memory size align buffer elements spare)
include hheader hholds

theorem reserve_spec {minimumCapacity : ℕ} :
    wp ((reserve minimumCapacity).call A size align)
      ((reserve minimumCapacity).Done size align w) (Unchanged w) w := by
  refine wp_then (bufferReserve_spec hheader hholds) ?_
  intro _ w' ⟨buffer', spare', hbecomes, hle⟩
  have helements := hbecomes.elements_eq.trans (hholds.elements_eq hheader).symm
  exact wp_pure ⟨hbecomes.wellFormed, ⟨helements, buffer', hbecomes.header, hle⟩, hbecomes.frame⟩

theorem resize_spec {newLength : ℕ} :
    wp ((resize newLength).call A size align) ((resize newLength).Done size align w)
      (Unchanged w) w := by
  refine wp_then (bufferResize_spec hheader hholds) ?_
  intro _ w' ⟨hle, hbecomes⟩
  refine wp_pure ⟨hbecomes.wellFormed, ?_, hbecomes.frame⟩
  unfold Effect
  rw [hbecomes.elements_eq, hholds.elements_eq hheader]
  refine ⟨?_, ?_⟩
  · rw [length_take, ← hholds.capacity_eq, Nat.min_eq_left hle]
  · obtain hless | hmore := Nat.le_total newLength elements.length
    · rw [take_append_of_le_length hless]
      exact .inl <| take_prefix ..
    · rw [take_append, take_of_length_le hmore]
      exact .inr (prefix_append ..)

variable {index : ℕ}

theorem insertMoveFrom_spec {source : Pointer}
    (hop : (insertMoveFrom index source).Permitted size align w) :
    wp ((insertMoveFrom index source).call A size align)
      ((insertMoveFrom index source).Done size align w) (Unchanged w) w := by
  obtain ⟨x, hx⟩ := exists_slot rfl hop
  refine wp_then (bufferInsertMoveFrom_spec hheader hholds hx) ?_
  intro _ w' ⟨hnull, hindex, ⟨buffer', spare', hbecomes⟩, hcleared⟩
  refine wp_pure ⟨hbecomes.wellFormed, ?_, hbecomes.frame⟩
  unfold Effect
  rw [hbecomes.elements_eq, hholds.elements_eq hheader]
  exact ⟨hindex, x, (hx hnull).stores.read_one, take_append_cons_drop hindex, hcleared.read_one⟩

theorem removeMoveInto_spec {output : Pointer}
    (hop : (removeMoveInto index output).Permitted size align w) :
    wp ((removeMoveInto index output).call A size align)
      ((removeMoveInto index output).Done size align w) (Unchanged w) w := by
  obtain ⟨y, hy⟩ := exists_slot rfl hop
  refine wp_then (bufferRemoveMoveInto_spec hheader hholds hy) ?_
  intro _ w' ⟨x, hx, hmoved, buffer', spare', hbecomes⟩
  refine wp_pure ⟨hbecomes.wellFormed, ?_, hbecomes.frame⟩
  unfold Effect
  rw [hbecomes.elements_eq, hholds.elements_eq hheader]
  exact ⟨x, hx, rfl, hmoved.read_one⟩

theorem popMoveInto_spec {output : Pointer}
    (hop : (popMoveInto output).Permitted size align w) :
    wp ((popMoveInto output).call A size align) ((popMoveInto output).Done size align w)
      (Unchanged w) w := by
  obtain ⟨y, hy⟩ := exists_slot rfl hop
  refine wp_then (bufferPopMoveInto_spec hheader hholds hy) ?_
  intro _ w' ⟨x, hx, hmoved, buffer', spare', hbecomes⟩
  refine wp_pure ⟨hbecomes.wellFormed, ?_, hbecomes.frame⟩
  unfold Effect
  rw [hbecomes.elements_eq, hholds.elements_eq hheader]
  exact ⟨x, hx, rfl, hmoved.read_one⟩

variable {nestedElementSize nestedAlignment : ℕ}

theorem pop_spec :
    wp ((pop nestedElementSize nestedAlignment).call A size align)
      ((pop nestedElementSize nestedAlignment).Done size align w) (Unchanged w) w := by
  refine wp_then (bufferPop_spec hheader hholds) ?_
  intro value w' ⟨x, hx, hvalue, buffer', spare', hbecomes⟩
  refine wp_pure ⟨hbecomes.wellFormed, ?_, hbecomes.frame⟩
  unfold Effect
  rw [hbecomes.elements_eq, hholds.elements_eq hheader]
  exact ⟨x, hx, rfl, congrArg Returned.buffer hvalue⟩

theorem removeMove_spec :
    wp ((removeMove index nestedElementSize nestedAlignment).call A size align)
      ((removeMove index nestedElementSize nestedAlignment).Done size align w)
      (Unchanged w) w := by
  refine wp_then (bufferRemoveMove_spec hheader hholds) ?_
  intro value w' ⟨x, hx, hvalue, buffer', spare', hbecomes⟩
  refine wp_pure ⟨hbecomes.wellFormed, ?_, hbecomes.frame⟩
  unfold Effect
  rw [hbecomes.elements_eq, hholds.elements_eq hheader]
  exact ⟨x, hx, rfl, congrArg Returned.buffer hvalue⟩

theorem removeDrop_spec :
    wp ((removeDrop index).call A size align) ((removeDrop index).Done size align w)
      (Unchanged w) w := by
  refine wp_then (bufferRemoveDrop_spec hheader hholds) ?_
  intro _ w' ⟨hindex, buffer', spare', hbecomes⟩
  refine wp_pure ⟨hbecomes.wellFormed, ?_, hbecomes.frame⟩
  unfold Effect
  rw [hbecomes.elements_eq, hholds.elements_eq hheader]
  exact ⟨hindex, rfl⟩

theorem slice_spec {start count : ℕ} (hw : w.WellFormed size align) :
    wp ((slice start count).call A size align) ((slice start count).Done size align w)
      (Unchanged w) w := by
  refine wp_then (bufferSlice_spec hheader hholds) ?_
  rintro part _ ⟨rfl, hle, hviews⟩
  refine wp_pure ⟨hw, ?_, fun _ _ _ _ => rfl⟩
  unfold Effect
  rw [hholds.elements_eq hheader]
  exact ⟨rfl, hle, part, rfl, hviews⟩

end Header

/-- Every call does what its name says to the list of elements, or fails and changes
nothing. -/
theorem call_spec (hw : w.WellFormed size align) (hop : op.Permitted size align w) :
    wp (op.call A size align) (op.Done size align w) (Unchanged w) w := by
  cases hheader : w.header with
  | none =>
    cases op with
    | create => exact create_spec
    | subslice => exact subslice_spec hw hop
    | _ =>
      refine call_noHeader ?_ hheader
      exact trivial
  | some buffer =>
    obtain ⟨elements, spare, hholds⟩ := (hw buffer hheader).exists_holds
    cases op with
    | create => exact create_spec
    | reserve => exact reserve_spec hheader hholds
    | resize => exact resize_spec hheader hholds
    | insertMoveFrom => exact insertMoveFrom_spec hheader hholds hop
    | removeMoveInto => exact removeMoveInto_spec hheader hholds hop
    | popMoveInto => exact popMoveInto_spec hheader hholds hop
    | pop => exact pop_spec hheader hholds
    | removeMove => exact removeMove_spec hheader hholds
    | removeDrop => exact removeDrop_spec hheader hholds
    | slice => exact slice_spec hheader hholds hw
    | subslice => exact subslice_spec hw hop

end Operation

end Calls

/-! ## Runs -/

/-- The runs of a program that calls the operations for elements of one layout. -/
def calls (size align : ℕ) : System Unit where
  State := World
  initial w := w.WellFormed size align
  step w _ w' := ∃ A op result, Operation.Permitted size align w op ∧
    op.call A size align w = some (result, w')

theorem wellFormed_of_step {event : Option Unit} (hw : w.WellFormed size align)
    (hstep : (calls size align).step w event w') : w'.WellFormed size align := by
  obtain ⟨A, op, result, hop, hcall⟩ := hstep
  have hspec := op.call_spec (A := A) hw hop
  unfold wp at hspec
  rw [hcall] at hspec
  cases result with
  | ok => exact hspec.wellFormed
  | error =>
    obtain ⟨-, rfl⟩ := hspec
    exact hw

/-- Wherever a program has got to, its next call does to the elements what its name says and
leaves the header well formed, or fails and changes nothing; it does not fault. -/
theorem wp_call_of_reachable {w : World} (hw : (calls size align).Reachable w) {A : Allocator}
    {op : Operation} (hop : op.Permitted size align w) :
    wp (op.call A size align) (op.Done size align w) (Unchanged w) w :=
  op.call_spec (hw.invariant (fun _ h => h) fun _ _ _ => wellFormed_of_step) hop

namespace Sample

/-- An allocator with room for one object. -/
def allocator : Allocator where
  alloc m layout :=
    if (m 4096).isNone ∧ layout.align ∣ 4096 then
      some ⟨4096, ⟨layout, replicate layout.size 0, length_replicate⟩⟩
    else none
  realloc _ _ _ _ := none
  alloc_fresh h := by
    obtain ⟨⟨hnone, -⟩, hsome⟩ := Option.ite_none_right_eq_some.mp h
    obtain rfl := some.inj hsome
    exact Option.isNone_iff_eq_none.mp hnone
  alloc_placed h := by
    obtain ⟨⟨-, hdvd⟩, hsome⟩ := Option.ite_none_right_eq_some.mp h
    obtain rfl := some.inj hsome
    exact ⟨Nat.succ_ne_zero _, hdvd⟩
  alloc_layout h := by
    obtain ⟨-, hsome⟩ := Option.ite_none_right_eq_some.mp h
    obtain rfl := some.inj hsome
    rfl
  realloc_fresh := nofun
  realloc_placed := nofun
  realloc_layout := nofun
  realloc_bytes := nofun

def header : Buffer := ⟨⟨4096, 0⟩, 1, 2⟩

def source : Pointer := ⟨8192, 0⟩

def block : Object := ⟨⟨2, 1⟩, [7, 0], rfl⟩

def storage : Object := ⟨⟨1, 1⟩, [9], rfl⟩

/-- A buffer of bytes with one element and room for another, and a byte to insert. -/
def world : World where
  initialized := true
  header := some header
  memory := fun base => if base = 4096 then some block else if base = 8192
    then some storage else none

theorem world_wellFormed : world.WellFormed 1 1 := by
  intro buffer hbuffer
  obtain rfl := some.inj hbuffer
  exact ⟨by decide, by decide, fun _ => ⟨rfl, one_dvd _, block, rfl, rfl⟩⟩

theorem slot_source : world.Slot source 1 [9] := by
  refine ⟨⟨uniform_singleton rfl, storage, [], [], rfl, rfl, rfl⟩, fun buffer hbuffer _ => ?_⟩
  obtain rfl := some.inj hbuffer
  decide

end Sample

theorem wp_call_of_reachable_insert :
    wp ((Operation.insertMoveFrom 0 Sample.source).call Sample.allocator 1 1)
      ((Operation.insertMoveFrom 0 Sample.source).Done 1 1 Sample.world)
      (Unchanged Sample.world) Sample.world :=
  wp_call_of_reachable ⟨[], .start Sample.world_wellFormed⟩ fun p hp _ => by
    obtain rfl := some.inj hp
    exact ⟨[9], Sample.slot_source⟩

example : ((Operation.insertMoveFrom 0 Sample.source).call Sample.allocator 1 1 Sample.world).map
    (fun result => result.2.elements 1) = some [[9], [7]] := by decide

end Jadren.Runtime

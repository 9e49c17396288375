import Jadren.Runtime.Buffer
import Mathlib.Tactic.Linarith

/-!
# Buffers as lists

`Holds` says that the block of a header holds `elements` and, up to the capacity, spare
slots.  Every operation keeps it, does to the elements what the list operation of its name
does, and leaves every object alone that is not its own; an operation that fails has
changed nothing.

After the checks of a call the offsets are those of whole slots, so that its copies are
rewritings of the list of slots (`Memory.Stores.read`, `Memory.Stores.write`).
-/

namespace Jadren.Runtime

open Program Chunks BufferStatus List Option

/-- The bytes of an element. -/
abbrev Element := List Byte

/-! ## Checks -/

variable {a : ℕ}

theorem eq_of_tryFrom {b : ℕ} (h : tryFrom a = some b) : b = a :=
  (some.inj (Option.ite_none_right_eq_some.mp h).2).symm

theorem eq_of_checkedMul {b c : ℕ} (h : checkedMul a b = some c) : c = a * b :=
  (some.inj (Option.ite_none_right_eq_some.mp h).2).symm

theorem mapAllocatorStatus_ne_ok {status : AllocatorStatus} (h : status ≠ .ok) :
    mapAllocatorStatus status ≠ .ok := by
  cases status with
  | ok => exact absurd rfl h
  | _ => exact noConfusion

/-- The layouts the allocator accepts. -/
structure Layout.Accepted (size alignment : ℕ) (layout : Layout) : Prop where
  eq : layout = ⟨size, alignment⟩
  size_pos : 0 < size
  align_pos : 0 < alignment
  size_le : size ≤ 2 ^ 63 - alignment

theorem pos_of_isPowerOfTwo (h : isPowerOfTwo a) : 0 < a :=
  h ▸ Nat.two_pow_pos a.log2

theorem allocatorLayoutInitialized_checked (size alignment : ℕ) :
    Checked (allocatorLayoutInitialized size alignment) (Layout.Accepted size alignment)
      (· ≠ .ok) := by
  unfold allocatorLayoutInitialized
  refine checked_bind (P := fun n => n = size ∧ 0 < size) ?_ fun n hn => ?_
  · refine checked_unless AllocatorStatus.noConfusion fun hzero => ?_
    refine checked_elim AllocatorStatus.noConfusion fun n hn => ?_
    exact ⟨eq_of_tryFrom hn, Nat.pos_of_ne_zero hzero⟩
  obtain ⟨rfl, hpos⟩ := hn
  refine checked_bind (P := fun a => a = alignment) ?_ fun a ha => ?_
  · exact checked_elim AllocatorStatus.noConfusion fun a ha => eq_of_tryFrom ha
  obtain rfl := ha
  refine checked_ite (fun hpower => ?_) fun _ => checked_error AllocatorStatus.noConfusion
  refine checked_elim AllocatorStatus.noConfusion fun layout hlayout => ?_
  obtain ⟨hle, hlayout⟩ := Option.ite_none_right_eq_some.mp hlayout
  exact ⟨(some.inj hlayout).symm, hpos, pos_of_isPowerOfTwo hpower, hle⟩

/-- The layouts an element may have. -/
structure ElementLayout (elementSize alignment : ℕ) : Prop where
  size_pos : 0 < elementSize
  align_pos : 0 < alignment
  align_dvd : alignment ∣ elementSize

theorem validateElementLayout_checked (elementSize alignment : ℕ) :
    Checked (validateElementLayout elementSize alignment)
      (fun layout => layout = ⟨elementSize, alignment⟩ ∧ ElementLayout elementSize alignment)
      (· ≠ .ok) := by
  refine checked_unless noConfusion fun _ => ?_
  refine checked_bind (checked_mapError (allocatorLayoutInitialized_checked ..)
    fun _ => mapAllocatorStatus_ne_ok) fun layout hlayout => ?_
  refine checked_ite (fun hdvd => ?_) fun _ => checked_error noConfusion
  obtain rfl := hlayout.eq
  exact checked_ok ⟨rfl, hlayout.size_pos, hlayout.align_pos, hdvd⟩

/-- The layouts a block of elements may have. -/
structure BlockLayout (elementSize alignment capacity : ℕ) (layout : Layout) : Prop
    extends ElementLayout elementSize alignment where
  eq : layout = ⟨elementSize * capacity, alignment⟩
  size_le : elementSize * capacity ≤ 2 ^ 63 - alignment
  capacity_pos : 0 < capacity

theorem bufferLayout_checked (elementSize alignment capacity : ℕ) :
    Checked (bufferLayout elementSize alignment capacity)
      (BlockLayout elementSize alignment capacity) (· ≠ .ok) := by
  refine checked_bind (validateElementLayout_checked ..) fun elementLayout helement => ?_
  obtain ⟨rfl, helement⟩ := helement
  refine checked_bind (P := fun bytes => bytes = elementSize * capacity) ?_ fun bytes hbytes => ?_
  · exact checked_elim noConfusion fun bytes hbytes => eq_of_checkedMul hbytes
  obtain rfl := hbytes
  refine checked_unless noConfusion fun hzero => ?_
  refine checked_bind (checked_mapError (allocatorLayoutInitialized_checked ..)
    fun _ => mapAllocatorStatus_ne_ok) fun layout hlayout => ?_
  refine checked_ite (fun _ => ?_) fun _ => checked_error noConfusion
  exact checked_ok ⟨helement, hlayout.eq, hlayout.size_le,
    Nat.pos_of_ne_zero (right_ne_zero_of_mul hzero)⟩

theorem validateBuffer_checked (buffer : Buffer) :
    Checked (validateBuffer buffer)
      (fun _ => buffer.length ≤ buffer.capacity ∧ (buffer.capacity = 0 ↔ buffer.pointer.isNull))
      (· ≠ .ok) := by
  refine checked_unless noConfusion fun hlength => ?_
  have hle := Nat.le_of_not_lt hlength
  refine checked_ite (fun hzero => ?_) fun hzero => ?_
  · refine checked_ite (fun hnull => ?_) fun _ => checked_error noConfusion
    exact checked_ok ⟨hle, fun _ => hnull, fun _ => hzero⟩
  · refine checked_unless noConfusion fun hnull => ?_
    exact checked_ok ⟨hle, fun h => absurd h hzero, fun h => absurd h hnull⟩

/-! ## The list of a buffer -/

/-- The block of the header holds the elements and the spare slots. -/
structure Holds (m : Memory) (size align : ℕ) (buffer : Buffer) (elements spare : List Element) :
    Prop where
  length_eq : buffer.length = elements.length
  capacity_eq : buffer.capacity = (elements ++ spare).length
  null : buffer.capacity = 0 → buffer.pointer = .null
  block : buffer.capacity ≠ 0 → buffer.pointer.offset = 0 ∧ buffer.pointer.base ≠ 0 ∧
    align ∣ buffer.pointer.base ∧ ∃ object, m buffer.pointer.base = some object ∧
      bufferLayout size align buffer.capacity = .ok object.layout
  stores : buffer.capacity ≠ 0 → m.Stores buffer.pointer size (elements ++ spare)

namespace Holds

variable {m : Memory} {size align : ℕ} {buffer : Buffer} {elements spare : List Element}

variable (h : Holds m size align buffer elements spare)
include h

theorem length_le :
    buffer.length ≤ buffer.capacity := by
  rw [h.length_eq, h.capacity_eq, length_append]
  exact Nat.le_add_right ..

theorem isNull_iff :
    buffer.capacity = 0 ↔ buffer.pointer.isNull := by
  constructor
  · intro hzero
    rw [h.null hzero]
    rfl
  · intro hnull
    by_contra hcapacity
    obtain ⟨-, hbase, -⟩ := h.block hcapacity
    exact hbase (Nat.eq_zero_of_add_eq_zero_right hnull)

theorem slots_eq_nil (hzero : buffer.capacity = 0) :
    elements ++ spare = [] :=
  eq_nil_of_length_eq_zero (h.capacity_eq.symm.trans hzero)

theorem uniform :
    Uniform size (elements ++ spare) := by
  by_cases hzero : buffer.capacity = 0
  · rw [h.slots_eq_nil hzero]
    exact fun _ hx => absurd hx not_mem_nil
  · exact (h.stores hzero).uniform

theorem capacity_ne_zero
    (hlength : 0 < buffer.length) : buffer.capacity ≠ 0 :=
  Nat.ne_zero_of_lt (Nat.lt_of_lt_of_le hlength h.length_le)

theorem blockLayout (hcapacity : buffer.capacity ≠ 0) :
    ElementLayout size align ∧ size * buffer.capacity ≤ 2 ^ 63 - align := by
  obtain ⟨-, -, -, object, -, hlayout⟩ := h.block hcapacity
  have hblock := (bufferLayout_checked ..).of_eq_ok hlayout
  exact ⟨hblock.toElementLayout, hblock.size_le⟩

theorem capacity_lt : buffer.capacity < u64Max := by
  by_cases hcapacity : buffer.capacity = 0
  · rw [hcapacity]
    decide
  · obtain ⟨helement, hsize⟩ := h.blockLayout hcapacity
    have hle : buffer.capacity ≤ size * buffer.capacity :=
      Nat.le_mul_of_pos_left _ helement.size_pos
    unfold u64Max
    omega

theorem exists_object
    (hcapacity : buffer.capacity ≠ 0) :
    ∃ object, m buffer.pointer.base = some object ∧
      bufferLayout size align buffer.capacity = .ok object.layout ∧
      (elements ++ spare).flatten = object.bytes := by
  obtain ⟨hoffset, -, -, object, hobject, hlayout⟩ := h.block hcapacity
  obtain ⟨huniform, object', before, after, hobject', hbytes, hbefore⟩ := h.stores hcapacity
  obtain rfl := some.inj (hobject.symm.trans hobject')
  have hblock := (bufferLayout_checked ..).of_eq_ok hlayout
  have hlength := object.length_bytes
  rw [hbytes, hblock.eq, length_append, length_append, huniform.length_flatten, hbefore,
    hoffset, ← h.capacity_eq] at hlength
  change 0 + buffer.capacity * size + after.length = size * buffer.capacity at hlength
  have hafter : after = [] := eq_nil_of_length_eq_zero (by
    rw [Nat.mul_comm size] at hlength
    omega)
  refine ⟨object, hobject, hlayout, ?_⟩
  rw [hbytes, hafter, eq_nil_of_length_eq_zero (hbefore.trans hoffset), nil_append,
    append_nil]

theorem checkedMul_eq
    (hcapacity : buffer.capacity ≠ 0) {i : ℕ} (hi : i ≤ buffer.capacity) :
    checkedMul i size = some (i * size) := by
  have hle : i * size ≤ buffer.capacity * size := Nat.mul_le_mul_right size hi
  have hblock := (h.blockLayout hcapacity).2
  rw [Nat.mul_comm] at hblock
  exact if_pos (by unfold u64Max; omega)

theorem checkedMul_next {i : ℕ}
    (hi : i < buffer.capacity) :
    ((checkedAdd i 1).bind fun next => checkedMul next size) = some ((i + 1) * size) := by
  have hadd : checkedAdd i 1 = some (i + 1) :=
    if_pos (Nat.le_of_lt (Nat.lt_of_le_of_lt hi h.capacity_lt))
  rw [hadd]
  exact h.checkedMul_eq (Nat.ne_zero_of_lt hi) hi

end Holds

theorem drop_take_gap {α : Type*} {xs ys zs : List α} {x : α} :
    ((xs ++ x :: ys ++ zs).drop (xs.length + 1)).take ys.length = ys := by
  rw [append_assoc, drop_length_add_append]
  exact take_left

/-! ## Rules for the parts of a call -/

/-- A call that fails has changed nothing. -/
def Unchanged (w : World) (status : BufferStatus) (w' : World) : Prop := status ≠ .ok ∧ w' = w

variable {w : World}

theorem unchanged (status : BufferStatus) (h : status ≠ .ok) : Unchanged w status w :=
  ⟨h, rfl⟩

section Rules

variable {w : World} {size : ℕ} {ε : Type} {E : ε → World → Prop}

variable {Q : Unit → World → Prop}

theorem wp_requireInitialized (h : w.initialized = true → Q () w) :
    wp requireInitialized Q (Unchanged w) w := by
  refine wp_then (wp_get (Q := fun s s' => s = w ∧ s' = w) ⟨rfl, rfl⟩) ?_
  rintro _ _ ⟨rfl, rfl⟩
  refine wp_failIf (fun _ => unchanged _ noConfusion) fun hinitialized => ?_
  exact h (Bool.eq_true_of_not_eq_false hinitialized)

theorem wp_liveHeader {Q : Buffer → World → Prop}
    (h : ∀ buffer, w.header = some buffer → Q buffer w) :
    wp liveHeader Q (Unchanged w) w :=
  wp_bind (wp_orFail (fun _ => unchanged _ noConfusion) h)

theorem wp_header {E : BufferStatus → World → Prop} {Q : Buffer → World → Prop} {buffer : Buffer}
    (hheader : w.header = some buffer)
    (h : Q buffer w) : wp liveHeader Q E w := by
  refine wp_bind (wp_orFail (fun hnone => ?_) fun buffer' hbuffer' => ?_)
  · exact absurd (hheader.symm.trans hnone) (Option.some_ne_none _)
  · obtain rfl := some.inj (hheader.symm.trans hbuffer')
    exact h

variable {p : Pointer} {slots : List Element} {i : ℕ}

theorem wp_ptrAdd {Q : Pointer → World → Prop} (hstores : w.memory.Stores p size slots)
    (hi : i ≤ slots.length) (h : Q (p.plus (i * size)) w) : wp (ptrAdd p (i * size)) Q E w :=
  wp_bind (wp_demand (hstores.add hi) h)

theorem wp_ptrRead {Q : List Byte → World → Prop} {k : ℕ} (hstores : w.memory.Stores p size slots)
    (hk : i + k ≤ slots.length) (h : Q ((slots.drop i).take k).flatten w) :
    wp (ptrRead (p.plus (i * size)) (k * size)) Q E w :=
  wp_bind (wp_demand (hstores.read hk) h)

theorem wp_ptrWrite {entries : List Element} (hstores : w.memory.Stores p size slots)
    (hentries : Uniform size entries) (hfit : i + entries.length ≤ slots.length)
    (h : ∀ m', w.memory.Rewritten m' p size (overwrite slots i entries) →
      Q () { w with memory := m' }) : wp (ptrWrite (p.plus (i * size)) entries.flatten) Q E w := by
  obtain ⟨m', hwrite, hrewritten⟩ := hstores.write hentries hfit
  exact wp_bind (wp_bind (wp_demand hwrite (h m' hrewritten)))

variable {q : Pointer}

/-- The rule for copying entries, from one place to another or within one. -/
theorem wp_ptrCopy {slots' : List Element} {j k : ℕ} (hp : w.memory.Stores p size slots)
    (hq : w.memory.Stores q size slots') (hi : i + k ≤ slots.length) (hj : j + k ≤ slots'.length)
    (h : ∀ m', w.memory.Rewritten m' q size (overwrite slots' j ((slots.drop i).take k)) →
      Q () { w with memory := m' }) :
    wp (ptrCopy (p.plus (i * size)) (q.plus (j * size)) (k * size)) Q E w := by
  have huniform : Uniform size ((slots.drop i).take k) :=
    hp.uniform.subset fun x hx => mem_of_mem_drop (mem_of_mem_take hx)
  have hlength : ((slots.drop i).take k).length = k := by
    rw [length_take, length_drop]
    omega
  exact wp_bind (wp_ptrRead hp hi (wp_ptrWrite hq huniform (hlength.symm ▸ hj) h))

theorem wp_ptrAdd_next {Q : Pointer → World → Prop} (hstores : w.memory.Stores p size slots)
    (hi : i < slots.length) (h : Q (p.plus ((i + 1) * size)) w) :
    wp (ptrAdd (p.plus (i * size)) size) Q E w :=
  wp_bind (wp_demand (hstores.add_next hi) h)

/-- Copying one entry from a place of its own. -/
theorem wp_ptrCopy_of {x : Element} {j : ℕ} (hp : w.memory.Stores p size [x])
    (hq : w.memory.Stores q size slots) (hj : j < slots.length)
    (h : ∀ m', w.memory.Rewritten m' q size (overwrite slots j [x]) →
      Q () { w with memory := m' }) : wp (ptrCopy p (q.plus (j * size)) size) Q E w := by
  have hcopy := wp_ptrCopy (E := E) (i := 0) (k := 1) hp hq (Nat.le_refl 1) hj h
  rw [Nat.zero_mul, Nat.one_mul] at hcopy
  exact hcopy

theorem wp_ptrCopy_to {x y : Element} (hp : w.memory.Stores p size slots)
    (hq : w.memory.Stores q size [y]) (hi : slots[i]? = some x)
    (h : ∀ m', w.memory.Rewritten m' q size [x] → Q () { w with memory := m' }) :
    wp (ptrCopy (p.plus (i * size)) q size) Q E w := by
  obtain ⟨hlt, hget⟩ := List.getElem?_eq_some_iff.mp hi
  have hx : (slots.drop i).take 1 = [x] := by
    rw [drop_eq_getElem_cons hlt, hget]
    rfl
  have hcopy := wp_ptrCopy (Q := Q) (E := E) (j := 0) (k := 1) hp hq hlt (Nat.le_refl 1) (by
    rw [hx]
    exact h)
  rw [Nat.zero_mul, Nat.one_mul] at hcopy
  exact hcopy

theorem wp_ptrWriteBytes {byte : Byte} (hstores : w.memory.Stores p size slots)
    (hi : i < slots.length)
    (h : ∀ m', w.memory.Rewritten m' p size (overwrite slots i [replicate size byte]) →
      Q () { w with memory := m' }) : wp (ptrWriteBytes (p.plus (i * size)) byte size) Q E w := by
  have hentries : Uniform size [replicate size byte] :=
    uniform_singleton length_replicate
  have hwrite := wp_ptrWrite (E := E) hstores hentries hi h
  rw [flatten_singleton] at hwrite
  exact hwrite

theorem wp_ptrWriteBytes_slot {y : Element} {byte : Byte} (hstores : w.memory.Stores p size [y])
    (h : ∀ m', w.memory.Rewritten m' p size [replicate size byte] →
      Q () { w with memory := m' }) : wp (ptrWriteBytes p byte size) Q E w := by
  have hfill := wp_ptrWriteBytes (Q := Q) (E := E) (i := 0) hstores Nat.zero_lt_one h
  rw [Nat.zero_mul] at hfill
  exact hfill

end Rules

/-! ## Reserving -/

/-- No part of the buffer lies at `base`. -/
def World.Apart (w : World) (base : ℕ) : Prop :=
  ∀ buffer, w.header = some buffer → buffer.capacity ≠ 0 → base ≠ buffer.pointer.base

/-- The header of `w'` has these elements, and objects apart from the buffer of `w` and from
`slot` are as they were. -/
structure Becomes (size align : ℕ) (slot : Option ℕ) (w w' : World) (buffer : Buffer)
    (elements spare : List Element) : Prop where
  initialized : w'.initialized = w.initialized
  header : w'.header = some buffer
  holds : Holds w'.memory size align buffer elements spare
  frame : ∀ base, w.memory base ≠ none → w.Apart base → slot ≠ some base →
    w'.memory base = w.memory base
  apart : ∀ base, w.memory base ≠ none → w.Apart base → w'.Apart base

/-- A block at `pointer` that begins with the bytes of `slots`, and nothing else changed. -/
structure Grown (m m' : Memory) (old : ℕ → Prop) (layout : Layout) (slots : List Element)
    (pointer : Pointer) : Prop where
  offset : pointer.offset = 0
  base : pointer.base ≠ 0
  align : layout.align ∣ pointer.base
  object : ∃ object, m' pointer.base = some object ∧ object.layout = layout ∧
    slots.flatten <+: object.bytes
  elsewhere : ∀ base, m base ≠ none → ¬ old base → base ≠ pointer.base ∧ m' base = m base

variable {A : Allocator} {layout : Layout} {E : BufferStatus → World → Prop}

theorem wp_alloc :
    wp (alloc A layout) (fun o w' => (o = none ∧ w' = w) ∨ ∃ pointer m', o = some pointer ∧
      w' = { w with memory := m' } ∧ Grown w.memory m' (fun _ => False) layout [] pointer) E w := by
  unfold alloc
  refine wp_bind (wp_get ?_)
  cases halloc : A.alloc w.memory layout with
  | none => exact wp_pure (.inl ⟨rfl, rfl⟩)
  | some a =>
    refine wp_bind (wp_modify (wp_pure (.inr ⟨_, _, rfl, rfl, ?_⟩)))
    obtain ⟨hbase, halign⟩ := A.alloc_placed halloc
    refine ⟨rfl, hbase, halign, ⟨a.object, Function.update_self .., A.alloc_layout halloc,
      nil_prefix⟩, fun base hsome _ => ?_⟩
    have hne : base ≠ a.address := by
      rintro rfl
      exact hsome (A.alloc_fresh halloc)
    exact ⟨hne, Function.update_of_ne hne ..⟩

theorem wp_realloc {p : Pointer} {newSize : ℕ} {object : Object} {slots : List Element}
    (hoffset : p.offset = 0) (hobject : w.memory p.base = some object)
    (hlayout : object.layout = layout) (hslots : slots.flatten = object.bytes)
    (hle : layout.size ≤ newSize) :
    wp (realloc A p layout newSize) (fun o w' => (o = none ∧ w' = w) ∨ ∃ pointer m',
      o = some pointer ∧ w' = { w with memory := m' } ∧
      Grown w.memory m' (· = p.base) ⟨newSize, layout.align⟩ slots pointer) E w := by
  unfold realloc
  have hallocated : w.memory.allocated p layout = some object := by
    unfold Memory.allocated
    rw [hobject]
    exact Option.filter_some_pos (decide_eq_true ⟨hoffset, hlayout⟩)
  refine wp_bind (wp_get (wp_bind (wp_demand hallocated ?_)))
  cases hrealloc : A.realloc w.memory p.base layout newSize with
  | none => exact wp_pure (.inl ⟨rfl, rfl⟩)
  | some a =>
    refine wp_bind (wp_modify (wp_pure (.inr ⟨_, _, rfl, rfl, ?_⟩)))
    obtain ⟨hbase, halign⟩ := A.realloc_placed hrealloc
    refine ⟨rfl, hbase, halign, ⟨a.object, Function.update_self .., A.realloc_layout hrealloc,
      hslots ▸ A.realloc_bytes hrealloc hobject hlayout hle⟩, fun base hsome hold => ?_⟩
    have hne : base ≠ a.address := by
      rintro rfl
      obtain hsame | hfresh := A.realloc_fresh hrealloc
      · exact hold hsame
      · exact hsome hfresh
    exact ⟨hne, (Function.update_of_ne hne ..).trans (Function.update_of_ne hold ..)⟩

variable {size align : ℕ} {buffer : Buffer} {elements spare : List Element}

/-- The grown block holds the old slots and new spare ones. -/
theorem Holds.grow {m m' : Memory} {old : ℕ → Prop} {capacity : ℕ} {pointer : Pointer}
    (h : Holds m size align buffer elements spare) (hcapacity : buffer.capacity ≤ capacity)
    (hlayout : bufferLayout size align capacity = .ok layout)
    (hgrown : Grown m m' old layout (elements ++ spare) pointer) :
    ∃ spare', Holds m' size align { buffer with pointer, capacity } elements spare' := by
  have hblock := (bufferLayout_checked ..).of_eq_ok hlayout
  obtain ⟨object, hobject, hobjectLayout, rest, hrest⟩ := hgrown.object
  have huniform := h.uniform
  have hlength : rest.length = (capacity - buffer.capacity) * size := by
    have hbytes := object.length_bytes
    rw [hobjectLayout, hblock.eq, ← hrest, length_append, huniform.length_flatten,
      ← h.capacity_eq] at hbytes
    change _ = size * capacity at hbytes
    rw [Nat.sub_mul, Nat.mul_comm capacity, ← hbytes, Nat.add_sub_cancel_left]
  obtain ⟨fresh, hfresh, hfreshLength, rfl⟩ := exists_uniform hlength
  have hcapacityEq : capacity = (elements ++ (spare ++ fresh)).length := by
    rw [← append_assoc, length_append, ← h.capacity_eq, hfreshLength]
    omega
  have halign : align ∣ pointer.base := by
    have hdvd := hgrown.align
    rw [hblock.eq] at hdvd
    exact hdvd
  refine ⟨spare ++ fresh, h.length_eq, hcapacityEq, fun hzero => ?_, fun _ => ?_, fun _ => ?_⟩
  · exact absurd hzero (Nat.ne_of_gt hblock.capacity_pos)
  · exact ⟨hgrown.offset, hgrown.base, halign, object, hobject, by rw [hobjectLayout, hlayout]⟩
  · rw [← append_assoc]
    refine ⟨huniform.append hfresh, object, [], [], hobject, ?_, hgrown.offset.symm⟩
    rw [nil_append, append_nil, ← hrest]
    exact flatten_append.symm

/-- Reserving keeps the elements. -/
theorem bufferReserve_spec {minimumCapacity : ℕ} (hheader : w.header = some buffer)
    (hholds : Holds w.memory size align buffer elements spare) :
    wp (bufferReserve A size align minimumCapacity)
      (fun _ w' => ∃ buffer' spare', Becomes size align none w w' buffer' elements spare' ∧
        minimumCapacity ≤ buffer'.capacity) (Unchanged w) w := by
  unfold bufferReserve
  refine wp_bind (wp_requireInitialized fun _ => ?_)
  refine wp_bind (wp_header hheader ?_)
  refine wp_bind (wp_checked (validateBuffer_checked buffer) unchanged fun _ _ _ => ?_)
  refine wp_bind (wp_checked (validateElementLayout_checked ..) unchanged fun _ _ _ => ?_)
  split
  next hle =>
    exact wp_pure ⟨buffer, spare, ⟨rfl, hheader, hholds, fun _ _ _ _ => rfl, fun _ _ h => h⟩, hle⟩
  next hle =>
  have hlt := Nat.lt_of_not_le hle
  refine wp_bind (wp_checked (bufferLayout_checked ..) unchanged fun newLayout hnew hblock => ?_)
  -- whichever way, the new block begins with the old slots
  refine wp_then (Q := fun o w' => (o = none ∧ w' = w) ∨ ∃ pointer m', o = some pointer ∧
    w' = { w with memory := m' } ∧ Grown w.memory m'
      (fun base => buffer.capacity ≠ 0 ∧ base = buffer.pointer.base) newLayout
      (elements ++ spare) pointer) (wp_choose (fun hzero => ?_) fun hcapacity => ?_) ?_
  · refine wp_mono wp_alloc ?_ fun _ _ h => h
    rintro o w' (⟨rfl, rfl⟩ | ⟨pointer, m', rfl, rfl, hgrown⟩)
    · exact .inl ⟨rfl, rfl⟩
    · refine .inr ⟨pointer, m', rfl, rfl, hgrown.offset, hgrown.base, hgrown.align, ?_, ?_⟩
      · rw [hholds.slots_eq_nil hzero]
        exact hgrown.object
      · exact fun base hsome _ => hgrown.elsewhere base hsome id
  · refine wp_bind (wp_checked (bufferLayout_checked ..) unchanged fun oldLayout hold hblock' => ?_)
    obtain ⟨object, hobject, hlayout, hbytes⟩ := hholds.exists_object hcapacity
    have hobjectLayout : object.layout = oldLayout := Except.ok.inj (hlayout.symm.trans hold)
    have hsize : oldLayout.size ≤ newLayout.size := by
      rw [hblock.eq, hblock'.eq]
      exact Nat.mul_le_mul_left size (Nat.le_of_lt hlt)
    have hnewLayout : (⟨newLayout.size, oldLayout.align⟩ : Layout) = newLayout := by
      rw [hblock.eq, hblock'.eq]
    refine wp_mono (wp_realloc (hholds.block hcapacity).1 hobject hobjectLayout hbytes hsize) ?_
      fun _ _ h => h
    rintro o w' (⟨rfl, rfl⟩ | ⟨pointer, m', rfl, rfl, hgrown⟩)
    · exact .inl ⟨rfl, rfl⟩
    · rw [hnewLayout] at hgrown
      refine .inr ⟨pointer, m', rfl, rfl, hgrown.offset, hgrown.base, hgrown.align, hgrown.object,
        fun base hsome hold => ?_⟩
      exact hgrown.elsewhere base hsome fun hbase => hold ⟨hcapacity, hbase⟩
  · rintro o w' (⟨rfl, rfl⟩ | ⟨pointer, m', rfl, rfl, hgrown⟩)
    · exact wp_bind (wp_orFail (fun _ => unchanged _ noConfusion) nofun)
    obtain ⟨spare', hholds'⟩ := hholds.grow (Nat.le_of_lt hlt) hnew hgrown
    refine wp_bind (wp_orFail nofun fun pointer' hpointer => ?_)
    obtain rfl := some.inj hpointer
    have helsewhere : ∀ base, w.memory base ≠ none → w.Apart base →
        base ≠ pointer.base ∧ m' base = w.memory base := fun base hsome hapart =>
      hgrown.elsewhere base hsome fun ⟨hcapacity, hbase⟩ => hapart buffer hheader hcapacity hbase
    refine wp_modify ⟨_, spare', ⟨rfl, rfl, hholds', ?_, ?_⟩, Nat.le_refl _⟩
    · exact fun base hsome hapart _ => (helsewhere base hsome hapart).2
    · intro base hsome hapart buffer' hbuffer' _
      obtain rfl := some.inj hbuffer'
      exact (helsewhere base hsome hapart).1

/-! ## Operations on the elements -/

/-- Changing the length moves the border between elements and spare slots. -/
theorem bufferResize_spec {newLength : ℕ} (hheader : w.header = some buffer)
    (hholds : Holds w.memory size align buffer elements spare) :
    wp (bufferResize newLength)
      (fun _ w' => newLength ≤ buffer.capacity ∧
        Becomes size align none w w' { buffer with length := newLength }
          ((elements ++ spare).take newLength) ((elements ++ spare).drop newLength))
      (Unchanged w) w := by
  unfold bufferResize
  refine wp_bind (wp_requireInitialized fun _ => ?_)
  refine wp_bind (wp_header hheader ?_)
  refine wp_bind (wp_checked (validateBuffer_checked buffer) unchanged fun _ _ _ => ?_)
  refine wp_check (unchanged _ noConfusion) fun hlt => ?_
  have hle := Nat.le_of_not_lt hlt
  have hlength : newLength = ((elements ++ spare).take newLength).length := by
    rw [length_take, ← hholds.capacity_eq, Nat.min_eq_left hle]
  have hslots := take_append_drop newLength (elements ++ spare)
  refine wp_modify ⟨hle, rfl, rfl, ⟨hlength, ?_, hholds.null, hholds.block, fun hcapacity => ?_⟩,
    fun _ _ _ _ => rfl, ?_⟩
  · exact hholds.capacity_eq.trans (congrArg _ hslots.symm)
  · exact hslots.symm ▸ hholds.stores hcapacity
  · intro base _ hapart buffer' hbuffer' hcapacity
    obtain rfl := some.inj hbuffer'
    exact hapart buffer hheader hcapacity

end Jadren.Runtime

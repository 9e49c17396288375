import Jadren.Library.Chunks
import Jadren.Library.Program

/-!
# The memory of the runtime

Objects are sequences of bytes at a base address; a pointer is the base address of its
object and an offset.  Reading, writing and moving a pointer have a meaning only inside the
object.  The system allocator is a parameter: it may refuse, and when it does not the
object it gives is new and has the requested size and alignment.
-/

namespace Jadren.Runtime

open Chunks Nat List

abbrev Byte := UInt8

/-- Size and alignment of an allocation. -/
structure Layout where
  size : ℕ
  align : ℕ
  deriving DecidableEq, Repr

/-- An object in memory. -/
structure Object where
  layout : Layout
  bytes : List Byte
  length_bytes : bytes.length = layout.size

/-- The object with some of its bytes overwritten. -/
def Object.write (o : Object) (offset : ℕ) (bytes : List Byte)
    (h : offset + bytes.length ≤ o.bytes.length) : Object where
  layout := o.layout
  bytes := overwrite o.bytes offset bytes
  length_bytes := (length_overwrite h).trans o.length_bytes

/-- A pointer into the object at `base`. -/
structure Pointer where
  base : ℕ
  offset : ℕ
  deriving DecidableEq, Repr

namespace Pointer

def null : Pointer := ⟨0, 0⟩

/-- The address. -/
def addr (p : Pointer) : ℕ := p.base + p.offset

def isNull (p : Pointer) : Prop := p.addr = 0

instance (p : Pointer) : Decidable p.isNull := inferInstanceAs (Decidable (_ = _))

/-- The pointer `n` bytes further. -/
def plus (p : Pointer) (n : ℕ) : Pointer := ⟨p.base, p.offset + n⟩

end Pointer

/-- The objects by their base addresses. -/
def Memory := ℕ → Option Object

namespace Memory

/-- The memory with the object `o` at `base`. -/
def insert (m : Memory) (base : ℕ) (o : Object) : Memory := Function.update m base (some o)

/-- The memory without an object at `base`. -/
def erase (m : Memory) (base : ℕ) : Memory := Function.update m base none

/-- The bytes at a pointer, if they lie in its object. -/
def read (m : Memory) (p : Pointer) (count : ℕ) : Option (List Byte) := do
  let object ← m p.base
  if p.offset + count ≤ object.bytes.length then
    some ((object.bytes.drop p.offset).take count)
  else none

/-- The memory with new bytes at a pointer, if they lie in its object. -/
def write (m : Memory) (p : Pointer) (bytes : List Byte) : Option Memory := do
  let object ← m p.base
  if h : p.offset + bytes.length ≤ object.bytes.length then
    some (m.insert p.base (object.write p.offset bytes h))
  else none

/-- The pointer moved by `count` bytes, if it stays in its object. -/
def add (m : Memory) (p : Pointer) (count : ℕ) : Option Pointer := do
  let object ← m p.base
  if p.offset + count ≤ object.bytes.length then some (p.plus count) else none

/-- Entries of `size` bytes lie one after the other at `p`. -/
structure Stores (m : Memory) (p : Pointer) (size : ℕ) (slots : List (List Byte)) : Prop where
  uniform : Uniform size slots
  stored : ∃ object before after, m p.base = some object ∧
    object.bytes = before ++ slots.flatten ++ after ∧ before.length = p.offset

variable {m : Memory} {p : Pointer} {size : ℕ} {slots : List (List Byte)}

theorem Stores.add (h : m.Stores p size slots) {i : ℕ} (hi : i ≤ slots.length) :
    m.add p (i * size) = some (p.plus (i * size)) := by
  obtain ⟨object, before, after, hobject, hbytes, hbefore⟩ := h.stored
  have hfits : p.offset + i * size ≤ object.bytes.length := by
    have hsize : i * size ≤ slots.length * size := mul_le_mul_right size hi
    rw [hbytes, length_append, length_append, h.uniform.length_flatten]
    omega
  unfold Memory.add
  rw [hobject]
  exact if_pos hfits

theorem Stores.add_next (h : m.Stores p size slots) {i : ℕ} (hi : i < slots.length) :
    m.add (p.plus (i * size)) size = some (p.plus ((i + 1) * size)) := by
  have hnext := h.add hi
  unfold Memory.add Pointer.plus at hnext ⊢
  rw [succ_mul, ← add_assoc] at hnext
  rw [succ_mul, ← add_assoc]
  exact hnext

/-- Reading whole entries. -/
theorem Stores.read (h : m.Stores p size slots) {i k : ℕ} (hk : i + k ≤ slots.length) :
    m.read (p.plus (i * size)) (k * size) = some ((slots.drop i).take k).flatten := by
  obtain ⟨object, before, after, hobject, hbytes, hbefore⟩ := h.stored
  have hsize : (i + k) * size ≤ slots.length * size := mul_le_mul_right size hk
  have hfits : p.offset + i * size + k * size ≤ object.bytes.length := by
    rw [hbytes, length_append, length_append, h.uniform.length_flatten]
    rw [add_mul] at hsize
    omega
  have hdrop : object.bytes.drop (p.offset + i * size) = (slots.drop i).flatten ++ after := by
    rw [hbytes, ← hbefore, append_assoc, ← drop_drop, drop_left,
      drop_append_of_le_length, h.uniform.drop_flatten]
    rw [h.uniform.length_flatten]
    exact mul_le_mul_right size (by omega)
  have huniform : Uniform size (slots.drop i) := h.uniform.subset (drop_subset ..)
  unfold Memory.read Pointer.plus
  rw [hobject]
  refine (if_pos hfits).trans ?_
  rw [hdrop, take_append_of_le_length, huniform.take_flatten]
  rw [huniform.length_flatten, length_drop]
  exact mul_le_mul_right size (by omega)

theorem Stores.read_one {x : List Byte} (h : m.Stores p size [x]) : m.read p size = some x := by
  have hread := h.read (i := 0) (k := 1) (le_refl 1)
  rw [zero_mul, one_mul] at hread
  exact hread.trans (congrArg some flatten_singleton)

theorem Stores.congr {m' : Memory} (h : m.Stores p size slots) (hsame : m' p.base = m p.base) :
    m'.Stores p size slots := by
  refine ⟨h.uniform, ?_⟩
  rw [hsame]
  exact h.stored

/-- `m'` is `m` with other entries at `p`. -/
structure Rewritten (m m' : Memory) (p : Pointer) (size : ℕ) (slots : List (List Byte)) :
    Prop where
  stores : m'.Stores p size slots
  elsewhere : ∀ base, base ≠ p.base → m' base = m base
  layout : ∀ object, m p.base = some object →
    ∃ object', m' p.base = some object' ∧ object'.layout = object.layout

theorem Rewritten.refl (h : m.Stores p size slots) : m.Rewritten m p size slots :=
  ⟨h, fun _ _ => rfl, fun object hobject => ⟨object, hobject, rfl⟩⟩

theorem Rewritten.trans {m' m'' : Memory} {slots' : List (List Byte)}
    (h : m.Rewritten m' p size slots) (h' : m'.Rewritten m'' p size slots') :
    m.Rewritten m'' p size slots' := by
  refine ⟨h'.stores, fun base hbase => ?_, fun object hobject => ?_⟩
  · exact (h'.elsewhere base hbase).trans (h.elsewhere base hbase)
  · obtain ⟨object', hobject', hlayout⟩ := h.layout object hobject
    obtain ⟨object'', hobject'', hlayout'⟩ := h'.layout object' hobject'
    exact ⟨object'', hobject'', hlayout'.trans hlayout⟩

theorem Stores.write (h : m.Stores p size slots) {i : ℕ} {entries : List (List Byte)}
    (hentries : Uniform size entries) (hfit : i + entries.length ≤ slots.length) :
    ∃ m', m.write (p.plus (i * size)) entries.flatten = some m' ∧
      m.Rewritten m' p size (overwrite slots i entries) := by
  obtain ⟨object, before, after, hobject, hbytes, hbefore⟩ := h.stored
  have hsize : (i + entries.length) * size ≤ slots.length * size :=
    mul_le_mul_right size hfit
  have hfits : p.offset + i * size + entries.flatten.length ≤ object.bytes.length := by
    rw [hbytes, length_append, length_append, h.uniform.length_flatten,
      hentries.length_flatten]
    rw [add_mul] at hsize
    omega
  refine ⟨m.insert p.base (object.write (p.offset + i * size) entries.flatten hfits),
    ?_, ?_, ?_, ?_⟩
  · unfold Memory.write Pointer.plus
    rw [hobject]
    exact dif_pos hfits
  · refine ⟨h.uniform.overwrite hentries, _, before, after, Function.update_self .., ?_, hbefore⟩
    have hinside : i * size + entries.flatten.length ≤ slots.flatten.length := by
      rw [h.uniform.length_flatten, hentries.length_flatten, ← add_mul]
      exact hsize
    show overwrite object.bytes (p.offset + i * size) entries.flatten = _
    rw [hbytes, ← hbefore, overwrite_middle hinside, h.uniform.overwrite_flatten hentries]
  · intro base hbase
    exact Function.update_of_ne hbase ..
  · intro object' hobject'
    obtain rfl := Option.some.inj (hobject.symm.trans hobject')
    exact ⟨_, Function.update_self .., rfl⟩

/-- The object a pointer from the allocator stands for, if it has this layout. -/
def allocated (m : Memory) (p : Pointer) (layout : Layout) : Option Object :=
  (m p.base).filter fun object => p.offset = 0 ∧ object.layout = layout

end Memory

/-- A new object and its address. -/
structure Allocation where
  address : ℕ
  object : Object

/-- The address is one where an object of this alignment may lie. -/
def Allocation.Placed (a : Allocation) (align : ℕ) : Prop := a.address ≠ 0 ∧ align ∣ a.address

/-- The system allocator.  What it gives may depend on everything in memory. -/
structure Allocator where
  alloc : Memory → Layout → Option Allocation
  realloc : Memory → ℕ → Layout → ℕ → Option Allocation
  alloc_fresh : ∀ {m layout a}, alloc m layout = some a → m a.address = none
  alloc_placed : ∀ {m layout a}, alloc m layout = some a → a.Placed layout.align
  alloc_layout : ∀ {m layout a}, alloc m layout = some a → a.object.layout = layout
  realloc_fresh : ∀ {m base layout size a}, realloc m base layout size = some a →
    a.address = base ∨ m a.address = none
  realloc_placed : ∀ {m base layout size a}, realloc m base layout size = some a →
    a.Placed layout.align
  realloc_layout : ∀ {m base layout size a}, realloc m base layout size = some a →
    a.object.layout = ⟨size, layout.align⟩
  realloc_bytes : ∀ {m base layout size a object}, realloc m base layout size = some a →
    m base = some object → object.layout = layout → layout.size ≤ size →
    object.bytes <+: a.object.bytes

end Jadren.Runtime

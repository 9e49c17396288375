import Jadren.Runtime.Strings

/-!
# Strings as texts

`HoldsText` says that the block of a header is the bytes of a text, which are valid UTF-8,
and then spare bytes up to the capacity.  `Owns` is that of a header in memory.  Every
operation keeps it, does to the text what its name says, and leaves alone what is not the
string's; an operation that fails has changed nothing.
-/

namespace Jadren.Runtime

open Program Chunks StringStatus List Option

variable {m m' : Memory} {p : Pointer} {string string' : Utf8String}
  {text spare source : List Byte}

/-- Allocators whose addresses have 64 bits. -/
structure Heap extends Allocator where
  alloc_le : ∀ {m layout a}, alloc m layout = some a → a.address ≤ u64Max
  realloc_le : ∀ {m base layout size a}, realloc m base layout size = some a → a.address ≤ u64Max

/-! ## Checks -/

theorem mapStringAllocatorStatus_ne_ok {status : AllocatorStatus} (h : status ≠ .ok) :
    mapStringAllocatorStatus status ≠ .ok := by
  cases status with
  | ok => exact absurd rfl h
  | _ => exact noConfusion

theorem stringLayout_checked (capacity : ℕ) :
    Checked (stringLayout capacity) (Layout.Accepted capacity 1) (· ≠ .ok) := by
  refine checked_unless noConfusion fun _ => ?_
  exact checked_mapError (allocatorLayoutInitialized_checked ..)
    fun _ => mapStringAllocatorStatus_ne_ok

/-! ## The text of a header -/

/-- The block of the header is the text and the spare bytes. -/
structure HoldsText (m : Memory) (string : Utf8String) (text spare : List Byte) : Prop where
  storable : string.Storable
  length_eq : string.length = text.length
  capacity_eq : string.capacity = (text ++ spare).length
  null : string.capacity = 0 → string.pointer = .null
  block : string.capacity ≠ 0 → string.pointer.base ≠ 0 ∧ ∃ object,
    m string.pointer.base = some object ∧ object.bytes = text ++ spare ∧
    stringLayout string.capacity = .ok object.layout
  valid : IsUtf8 text

/-- The header at `p` owns its block, which is not where the header itself is. -/
structure Owns (m : Memory) (p : Pointer) (string : Utf8String) (text spare : List Byte) : Prop
    extends HoldsText m string text spare where
  header : m.read p bufferSize = some string.toBytes
  apart : string.capacity ≠ 0 → string.pointer.base ≠ p.base

theorem isUtf8_nil : IsUtf8 [] := ByteArray.isValidUTF8_empty

theorem isUtf8_append {left right : List Byte} (h : IsUtf8 left) (h' : IsUtf8 right) :
    IsUtf8 (left ++ right) := by
  unfold IsUtf8
  rw [toByteArray_append]
  exact ByteArray.IsValidUTF8.append h h'

theorem holdsText_empty (m : Memory) : HoldsText m .empty [] [] where
  storable := ⟨rfl, Nat.zero_le _, Nat.zero_le _, Nat.zero_le _⟩
  length_eq := rfl
  capacity_eq := rfl
  null _ := rfl
  block h := absurd rfl h
  valid := isUtf8_nil

namespace HoldsText

theorem length_le (h : HoldsText m string text spare) : string.length ≤ string.capacity := by
  rw [h.length_eq, h.capacity_eq, length_append]
  exact Nat.le_add_right ..

theorem congr (h : HoldsText m string text spare)
    (hsame : string.capacity ≠ 0 → m' string.pointer.base = m string.pointer.base) :
    HoldsText m' string text spare := by
  refine ⟨h.storable, h.length_eq, h.capacity_eq, h.null, fun hcapacity => ?_, h.valid⟩
  rw [hsame hcapacity]
  exact h.block hcapacity

/-- The header passes the check of every operation. -/
theorem validateStringHeader (h : HoldsText m string text spare) :
    validateStringHeader string = .ok () := by
  have hcapacity : tryFrom string.capacity = some string.capacity := if_pos h.storable.capacity
  have hlength : tryFrom string.length = some string.length := if_pos h.storable.length
  unfold Runtime.validateStringHeader
  rw [if_neg (Nat.not_lt.mpr h.length_le), hcapacity, hlength]
  by_cases hzero : string.capacity = 0
  · have hnull : string.pointer.isNull := by rw [h.null hzero]; rfl
    have hnone : string.length = 0 := Nat.le_zero.mp (hzero ▸ h.length_le)
    rw [if_pos hzero, if_pos ⟨hnull, hnone⟩]
  · have hnull : ¬ string.pointer.isNull := not_isNull (h.block hzero).1
    rw [if_neg hzero, if_neg]
    exact fun h => h.elim hnull fun h => h.elim nofun nofun

theorem read (h : HoldsText m string text spare) (hlength : string.length ≠ 0) :
    m.read string.pointer string.length = some text := by
  have hcapacity : string.capacity ≠ 0 := fun hzero =>
    hlength (Nat.le_zero.mp (hzero ▸ h.length_le))
  obtain ⟨-, object, hobject, hbytes, -⟩ := h.block hcapacity
  refine read_eq_some.mpr ⟨object, hobject, ?_, ?_⟩
  · rw [h.storable.offset, hbytes, ← h.capacity_eq, Nat.zero_add]
    exact h.length_le
  · rw [h.storable.offset, hbytes, h.length_eq, drop_zero, take_left]

/-- Adding to a text uses the first of the spare bytes. -/
theorem write (h : HoldsText m string text spare) (hsource : IsUtf8 source)
    (hne : source ≠ []) (hfit : source.length ≤ spare.length) :
    ∃ m', m.write (string.pointer.plus string.length) source = some m' ∧
      HoldsText m' { string with length := string.length + source.length } (text ++ source)
        (spare.drop source.length) ∧ ∀ b, b ≠ string.pointer.base → m' b = m b := by
  have hsum : string.length + source.length ≤ string.capacity := by
    rw [h.length_eq, h.capacity_eq, length_append]
    omega
  have hcapacity : string.capacity ≠ 0 := by
    have hpos := length_pos_of_ne_nil hne
    omega
  obtain ⟨hbase, object, hobject, hbytes, hlayout⟩ := h.block hcapacity
  have hoffset : (string.pointer.plus string.length).offset = text.length := by
    unfold Pointer.plus
    rw [h.storable.offset, Nat.zero_add, h.length_eq]
  have hroom : (string.pointer.plus string.length).offset + source.length ≤
      object.bytes.length := by
    rw [hoffset, hbytes, length_append]
    omega
  have hwritten : overwrite object.bytes text.length source =
      text ++ source ++ spare.drop source.length := by
    unfold overwrite
    rw [hbytes, take_left, drop_length_add_append]
  refine ⟨m.insert string.pointer.base (object.write _ source hroom), ?_, ?_, ?_⟩
  · unfold Memory.write
    rw [show (string.pointer.plus string.length).base = string.pointer.base from rfl, hobject]
    exact dif_pos hroom
  · refine ⟨⟨h.storable.offset, h.storable.pointer, hsum.trans h.storable.capacity,
      h.storable.capacity⟩, ?_, ?_, h.null, fun _ => ⟨hbase, _, Function.update_self .., ?_,
      hlayout⟩, isUtf8_append h.valid hsource⟩
    · rw [length_append, ← h.length_eq]
    · rw [length_append, length_append, length_drop]
      have hsize := h.capacity_eq
      rw [length_append] at hsize
      show string.capacity = _
      omega
    · show overwrite object.bytes _ source = _
      rw [hoffset, hwritten]
  · exact fun b hb => Function.update_of_ne hb ..

/-- A text that is cut off leaves its bytes as spare ones. -/
theorem clear (h : HoldsText m string text spare) :
    HoldsText m { string with length := 0 } [] (text ++ spare) :=
  ⟨⟨h.storable.offset, h.storable.pointer, Nat.zero_le _, h.storable.capacity⟩, rfl,
    h.capacity_eq, h.null, h.block, isUtf8_nil⟩

theorem grow {minimumCapacity : ℕ} {old : ℕ → Prop} {layout : Layout} {slots : List Element}
    {pointer : Pointer} (h : HoldsText m string text spare)
    (hlayout : stringLayout minimumCapacity = .ok layout)
    (hgrown : Grown m m' old layout slots pointer) (hpointer : pointer.base ≤ u64Max)
    (hslots : text <+: slots.flatten) :
    ∃ spare', HoldsText m' { string with pointer, capacity := minimumCapacity } text spare' := by
  obtain ⟨object, hobject, hobjectLayout, hprefix⟩ := hgrown.object
  obtain ⟨spare', hspare⟩ := hslots.trans hprefix
  have haccepted := (stringLayout_checked minimumCapacity).of_eq_ok hlayout
  have hsize : minimumCapacity = (text ++ spare').length := by
    rw [hspare, object.length_bytes, hobjectLayout, haccepted.eq]
  have hle : string.length ≤ minimumCapacity := by
    rw [h.length_eq, hsize, length_append]
    exact Nat.le_add_right ..
  have hmax : minimumCapacity ≤ u64Max := by
    have hle := haccepted.size_le
    unfold u64Max
    omega
  refine ⟨spare', ⟨hgrown.offset, hpointer, hle.trans hmax, hmax⟩, h.length_eq, hsize,
    fun hzero => absurd hzero (Nat.ne_of_gt haccepted.size_pos), fun _ => ⟨hgrown.base, object,
      hobject, hspare.symm, ?_⟩, h.valid⟩
  rw [hobjectLayout]
  exact hlayout

end HoldsText

/-! ## Rules for the parts of a call -/

/-- A call that fails has changed nothing. -/
def Untouched (w : World) (status : StringStatus) (w' : World) : Prop := status ≠ .ok ∧ w' = w

theorem untouched {w : World} (status : StringStatus) (h : status ≠ .ok) : Untouched w status w :=
  ⟨h, rfl⟩

/-- From `w` to `w'` nothing has changed but the header at `p` and blocks of the string, of
which the one after is the one before or new. -/
structure Changes (w w' : World) (p : Pointer) (string string' : Utf8String) : Prop where
  header : ChangedAt w.memory w'.memory p.base (p.Window bufferSize)
  others : ∀ b, w.memory b ≠ none → b ≠ p.base → (string.capacity ≠ 0 → b ≠ string.pointer.base) →
    w'.memory b = w.memory b
  block : string'.capacity ≠ 0 → w.memory string'.pointer.base ≠ none →
    string.capacity ≠ 0 ∧ string'.pointer.base = string.pointer.base

section Rules

variable {w : World} {E : StringStatus → World → Prop} {H : Heap}

variable {Q : Unit → World → Prop}

theorem wp_requireRuntime (h : Q () w) : wp requireRuntime Q (Untouched w) w := by
  refine wp_bind (wp_get (wp_failIf (fun _ => ?_) fun _ => h))
  exact untouched _ noConfusion

theorem wp_liveString {Q : Utf8String → World → Prop} (h : Owns w.memory p string text spare)
    (hQ : Q string w) : wp (liveString p) Q E w := by
  refine wp_bind (wp_loadBuffer h.header ?_)
  rw [h.storable.ofBytes_toBytes]
  exact wp_bind (wp_ofExcept_ok h.validateStringHeader (wp_pure hQ))

/-- The header at `p` becomes that of a text. -/
theorem wp_storeText {bytes : List Byte} (hread : w.memory.read p bufferSize = some bytes)
    (h : HoldsText w.memory string text spare)
    (hapart : string.capacity ≠ 0 → string.pointer.base ≠ p.base)
    (hQ : ∀ m', Owns m' p string text spare →
      ChangedAt w.memory m' p.base (p.Window bufferSize) →
      (∀ b, b ≠ p.base → m' b = w.memory b) → Q () { w with memory := m' }) :
    wp (storeBuffer p string) Q E w := by
  refine wp_storeBuffer hread fun m' hread' hchanged hothers => hQ m' ?_ hchanged hothers
  exact ⟨h.congr fun hcapacity => hothers _ (hapart hcapacity), hread', hapart⟩

theorem wp_allocBytes {layout : Layout} :
    wp (allocBytes H.toAllocator layout) (fun o w' => (o = none ∧ w' = w) ∨ ∃ pointer m',
      o = some pointer ∧ w' = { w with memory := m' } ∧
      Grown w.memory m' (fun _ => False) layout [] pointer ∧ pointer.base ≤ u64Max) E w := by
  have hbound : wp (alloc H.toAllocator layout)
      (fun o _ => ∀ pointer, o = some pointer → pointer.base ≤ u64Max) (fun _ => E .outOfMemory)
      w := by
    refine wp_bind (wp_get ?_)
    cases halloc : H.alloc w.memory layout with
    | none => exact wp_pure nofun
    | some =>
      refine wp_bind (wp_modify (wp_pure fun pointer hpointer => ?_))
      obtain rfl := some.inj hpointer
      exact H.alloc_le halloc
  refine wp_mapError (wp_mono (wp_and wp_alloc hbound) ?_ fun _ _ h => h)
  rintro o w' ⟨hnone | ⟨pointer, m', rfl, hw', hgrown⟩, hle⟩
  · exact .inl hnone
  · exact .inr ⟨pointer, m', rfl, hw', hgrown, hle pointer rfl⟩

theorem wp_reallocBytes {layout : Layout} {newSize : ℕ} {object : Object} {slots : List Element}
    (hoffset : p.offset = 0) (hobject : w.memory p.base = some object)
    (hlayout : object.layout = layout) (hslots : slots.flatten = object.bytes)
    (hle : layout.size ≤ newSize) :
    wp (reallocBytes H.toAllocator p layout newSize) (fun o w' => (o = none ∧ w' = w) ∨
      ∃ pointer m', o = some pointer ∧ w' = { w with memory := m' } ∧
      Grown w.memory m' (· = p.base) ⟨newSize, layout.align⟩ slots pointer ∧
      pointer.base ≤ u64Max) E w := by
  have hallocated : w.memory.allocated p layout = some object := by
    unfold Memory.allocated
    rw [hobject]
    exact Option.filter_some_pos (decide_eq_true ⟨hoffset, hlayout⟩)
  have hbound : wp (realloc H.toAllocator p layout newSize)
      (fun o _ => ∀ pointer, o = some pointer → pointer.base ≤ u64Max) (fun _ => E .outOfMemory)
      w := by
    refine wp_bind (wp_get (wp_bind (wp_demand hallocated ?_)))
    cases hrealloc : H.realloc w.memory p.base layout newSize with
    | none => exact wp_pure nofun
    | some =>
      refine wp_bind (wp_modify (wp_pure fun pointer hpointer => ?_))
      obtain rfl := some.inj hpointer
      exact H.realloc_le hrealloc
  have hrealloc := wp_realloc (A := H.toAllocator) (E := fun _ => E .outOfMemory) hoffset hobject
    hlayout hslots hle
  refine wp_mapError (wp_mono (wp_and hrealloc hbound) ?_ fun _ _ h => h)
  rintro o w' ⟨hnone | ⟨pointer, m', rfl, hw', hgrown⟩, hle⟩
  · exact .inl hnone
  · exact .inr ⟨pointer, m', rfl, hw', hgrown, hle pointer rfl⟩

end Rules

/-! ## Operations -/

section Operations

variable {w : World} {H : Heap} {bytes : Pointer} {length : ℕ}

theorem Changes.refl (h : Owns w.memory p string text spare) : Changes w w p string string := by
  obtain ⟨object, hobject, -⟩ := read_eq_some.mp h.header
  exact ⟨.refl hobject, fun _ _ _ _ => rfl, fun hcapacity _ => ⟨hcapacity, rfl⟩⟩

variable {minimumCapacity : ℕ} {E : StringStatus → World → Prop}

variable (h : Owns w.memory p string text spare)
include h

/-- The header of a block that has grown is stored. -/
theorem wp_storeGrown {old : ℕ → Prop} {layout : Layout} {slots : List Element}
    {pointer : Pointer}
    (hlayout : stringLayout minimumCapacity = .ok layout)
    (hgrown : Grown w.memory m' old layout slots pointer) (hpointer : pointer.base ≤ u64Max)
    (hslots : text <+: slots.flatten)
    (hold : ∀ b, old b → string.capacity ≠ 0 ∧ b = string.pointer.base) :
    wp (storeBuffer p { string with pointer, capacity := minimumCapacity })
      (fun _ w' => ∃ string' spare', Owns w'.memory p string' text spare' ∧
        minimumCapacity ≤ string'.capacity ∧ Changes w w' p string string') E
      { w with memory := m' } := by
  obtain ⟨object, hobject, -⟩ := read_eq_some.mp h.header
  obtain ⟨hne, hsame⟩ := hgrown.elsewhere p.base (hobject ▸ Option.some_ne_none _)
    fun hp => h.apart (hold _ hp).1 (hold _ hp).2.symm
  obtain ⟨spare', hgrow⟩ := h.toHoldsText.grow hlayout hgrown hpointer hslots
  refine wp_storeText ((read_congr hsame).trans h.header) hgrow (fun _ heq => hne heq.symm) ?_
  intro m'' howns hchanged hothers
  refine ⟨_, spare', howns, Nat.le_refl _, ?_, fun b hsome hb hblock => ?_, fun _ hsome => ?_⟩
  · exact (ChangedAt.of_eq hobject hsame).trans hchanged
  · have hapart : ¬ old b := fun hb => hblock (hold b hb).1 (hold b hb).2
    exact (hothers b hb).trans (hgrown.elsewhere b hsome hapart).2
  · by_contra hnew
    exact (hgrown.elsewhere _ hsome fun hb => hnew (hold _ hb)).1 rfl

theorem stringReserve_spec :
    wp (stringReserve H.toAllocator p minimumCapacity)
      (fun _ w' => ∃ string' spare', Owns w'.memory p string' text spare' ∧
        minimumCapacity ≤ string'.capacity ∧ Changes w w' p string string') (Untouched w) w := by
  unfold stringReserve
  refine wp_bind (wp_requireRuntime (wp_check ?_ fun _ => ?_))
  · exact untouched _ noConfusion
  refine wp_bind (wp_liveString h ?_)
  split
  next hle => exact wp_pure ⟨string, spare, h, hle, .refl h⟩
  next hlt =>
    refine wp_bind (wp_checked (stringLayout_checked _) untouched ?_)
    intro layout hlayout haccepted
    -- no block yet: a new one; else the block is moved with its bytes
    refine wp_then (Q := fun o w' => (o = none ∧ w' = w) ∨ ∃ pointer m' old slots,
      o = some pointer ∧ w' = { w with memory := m' } ∧
      Grown w.memory m' old layout slots pointer ∧ pointer.base ≤ u64Max ∧
      text <+: slots.flatten ∧ ∀ b, old b → string.capacity ≠ 0 ∧ b = string.pointer.base)
      (wp_choose (fun hzero => ?_) fun hcapacity => ?_) ?_
    · refine wp_mono wp_allocBytes ?_ fun _ _ h => h
      rintro o w' (hnone | ⟨pointer, m', rfl, hw', hgrown, hpointer⟩)
      · exact .inl hnone
      · have htext : text = [] := by
          have hlength := h.length_le
          rw [h.length_eq, hzero] at hlength
          exact eq_nil_of_length_eq_zero (Nat.le_zero.mp hlength)
        exact .inr ⟨pointer, m', _, _, rfl, hw', hgrown, hpointer, htext ▸ nil_prefix,
          fun _ => False.elim⟩
    · obtain ⟨-, object, hobject, hbytes, hobjectLayout⟩ := h.block hcapacity
      have hold := (stringLayout_checked _).of_eq_ok hobjectLayout
      refine wp_bind (wp_ofExcept_ok hobjectLayout ?_)
      refine wp_mono (wp_reallocBytes h.storable.offset hobject rfl
        flatten_singleton ?_) ?_ fun _ _ h => h
      · rw [hold.eq, haccepted.eq]
        exact Nat.le_of_lt (Nat.lt_of_not_le hlt)
      rintro o w' (hnone | ⟨pointer, m', rfl, hw', hgrown, hpointer⟩)
      · exact .inl hnone
      · rw [hold.eq, haccepted.eq] at hgrown
        refine .inr ⟨pointer, m', _, _, rfl, hw', haccepted.eq ▸ hgrown, hpointer, ?_,
          fun b hb => ⟨hcapacity, hb⟩⟩
        rw [flatten_singleton, hbytes]
        exact prefix_append ..
    · rintro o w' (⟨rfl, rfl⟩ | ⟨pointer, m', old, slots, rfl, rfl, hgrown, hpointer, hslots, hold⟩)
      · exact wp_bind (wp_none (untouched _ noConfusion))
      · exact wp_bind (wp_some rfl (wp_storeGrown h hlayout hgrown hpointer hslots hold))

omit h

/-- A range that a caller lends: readable, and apart from the string. -/
structure Borrowed (w : World) (p : Pointer) (string : Utf8String) (bytes : Pointer)
    (source : List Byte) : Prop where
  read : w.memory.read bytes source.length = some source
  block : string.capacity ≠ 0 → bytes.base ≠ string.pointer.base
  header : bytes.base = p.base → ∀ i, bytes.Window source.length i → ¬ p.Window bufferSize i

/-- A range is still lent after the string has moved. -/
theorem Borrowed.after {w' : World} (h : Borrowed w p string bytes source)
    (hchanges : Changes w w' p string string') : Borrowed w' p string' bytes source := by
  obtain ⟨object, hobject, -⟩ := read_eq_some.mp h.read
  have hsome : w.memory bytes.base ≠ none := hobject ▸ Option.some_ne_none _
  refine ⟨?_, fun hcapacity heq => ?_, h.header⟩
  · by_cases hbase : bytes.base = p.base
    · exact (ChangedAt.read (hbase ▸ hchanges.header) (h.header hbase)).trans h.read
    · exact (read_congr (hchanges.others _ hsome hbase h.block)).trans h.read
  · obtain ⟨hold, hblock⟩ := hchanges.block hcapacity (heq ▸ hsome)
    exact h.block hold (heq.trans hblock)

theorem wp_copyBehind {Q : Unit → World → Prop} {E : StringStatus → World → Prop}
    (h : HoldsText w.memory string text spare) (hsource : IsUtf8 source) (hne : source ≠ [])
    (hread : w.memory.read bytes source.length = some source)
    (hapart : bytes.base ≠ string.pointer.base) (hfit : source.length ≤ spare.length)
    (hQ : ∀ m', HoldsText m' { string with length := string.length + source.length }
      (text ++ source) (spare.drop source.length) →
      (∀ b, b ≠ string.pointer.base → m' b = w.memory b) → Q () { w with memory := m' }) :
    wp (ptrCopyNonoverlapping bytes (string.pointer.plus string.length) source.length) Q E w := by
  obtain ⟨m', hwrite, hholds, hothers⟩ := h.write hsource hne hfit
  refine wp_bind (wp_demand (a := ()) (if_neg fun hoverlap => hapart hoverlap.1) ?_)
  refine wp_bind (wp_bind (wp_get (wp_demand hread ?_)))
  exact wp_bind (wp_get (wp_bind (wp_demand hwrite (wp_modify (hQ m' hholds hothers)))))

theorem wp_borrowedRange {Q : List Byte → World → Prop} (hlength : source.length = length)
    (hread : length ≠ 0 → w.memory.read bytes length = some source) (hQ : Q source w) :
    wp (borrowedRange bytes length) Q E w := by
  refine wp_choose (fun hzero => wp_pure ?_) fun hne => ?_
  · rw [hzero] at hlength
    rw [← eq_nil_of_length_eq_zero hlength]
    exact hQ
  · exact wp_bind (wp_get (wp_demand (hread hne) hQ))

/-- The range is copied into the spare bytes, if it has any. -/
theorem wp_copyTail {n : ℕ} {E : StringStatus → World → Prop}
    (h : Owns w.memory p string text spare)
    (hutf8 : IsUtf8 source) (hlength : source.length = n)
    (hlent : n ≠ 0 → Borrowed w p string bytes source)
    (hroom : string.length + n ≤ string.capacity) :
    wp (onlyIf (n ≠ 0) do
        let tail ← ptrAdd string.pointer string.length
        ptrCopyNonoverlapping bytes tail n)
      (fun _ w' => w'.memory p.base = w.memory p.base ∧
        (∃ spare', HoldsText w'.memory { string with length := string.length + n }
          (text ++ source) spare') ∧
        ∀ b, (string.capacity ≠ 0 → b ≠ string.pointer.base) → w'.memory b = w.memory b) E w := by
  subst hlength
  refine wp_onlyIf (fun hne => ?_) fun hzero => ?_
  · -- the tail goes into the spare bytes behind the text
    have hcapacity : string.capacity ≠ 0 := by omega
    obtain ⟨-, object, hobject, hbytes, -⟩ := h.block hcapacity
    have hfits : string.pointer.offset + string.length ≤ object.bytes.length := by
      rw [h.storable.offset, hbytes, ← h.capacity_eq, Nat.zero_add]
      exact h.length_le
    have hadd : w.memory.add string.pointer string.length =
        some (string.pointer.plus string.length) := by
      unfold Memory.add
      rw [hobject]
      exact if_pos hfits
    have hspare : source.length ≤ spare.length := by
      have hsize := h.capacity_eq
      rw [length_append, ← h.length_eq] at hsize
      omega
    refine wp_bind (wp_bind (wp_get (wp_demand hadd ?_)))
    refine wp_copyBehind h.toHoldsText hutf8 (ne_nil_of_length_pos (Nat.pos_of_ne_zero hne))
      (hlent hne).read ((hlent hne).block hcapacity) hspare fun m' hholds hothers => ?_
    exact ⟨hothers p.base (h.apart hcapacity).symm, ⟨_, hholds⟩,
      fun b hb => hothers b (hb hcapacity)⟩
  · have hnone : source.length = 0 := not_not.mp hzero
    obtain rfl := eq_nil_of_length_eq_zero hnone
    refine ⟨rfl, ⟨spare, ?_⟩, fun _ _ => rfl⟩
    rw [append_nil]
    exact h.toHoldsText

include h

theorem stringAppendUtf8_spec
    (hlength : source.length = length)
    (hsource : length ≠ 0 → ¬ bytes.isNull → Borrowed w p string bytes source) :
    wp (stringAppendUtf8 H.toAllocator p bytes length)
      (fun _ w' => (length ≠ 0 → ¬ bytes.isNull) ∧
        ∃ string' spare', Owns w'.memory p string' (text ++ source) spare' ∧
          Changes w w' p string string') (Untouched w) w := by
  unfold stringAppendUtf8
  refine wp_bind (wp_requireRuntime (wp_check ?_ fun _ => ?_))
  · exact untouched _ noConfusion
  refine wp_bind (wp_orFail (fun _ => untouched _ noConfusion) fun n hn => ?_)
  obtain rfl := eq_of_tryFrom hn
  refine wp_check (untouched _ noConfusion) fun hnull => ?_
  have hgiven : n ≠ 0 → ¬ bytes.isNull := fun hne h => hnull ⟨hne, h⟩
  have hlent : n ≠ 0 → Borrowed w p string bytes source := fun hne => hsource hne (hgiven hne)
  refine wp_bind (wp_borrowedRange hlength (fun hne => hlength ▸ (hlent hne).read) ?_)
  refine wp_check (untouched _ noConfusion) fun hutf8 => ?_
  refine wp_bind (wp_liveString h ?_)
  refine wp_then (Q := fun _ w' => w = w') (wp_onlyIf (fun hne => ?_) fun _ => rfl) ?_
  · refine wp_bind (wp_bind (wp_get (wp_demand (h.toHoldsText.read hne) ?_)))
    exact wp_failIf (fun hinvalid => absurd h.valid hinvalid) fun _ => rfl
  rintro _ _ rfl
  refine wp_bind (wp_demand hn ?_)
  refine wp_bind (wp_orFail (fun _ => untouched _ noConfusion) fun sum hsum => ?_)
  obtain rfl := (some.inj (Option.ite_none_right_eq_some.mp hsum).2).symm
  -- the string, moved or not, has room for the range
  refine wp_then (Q := fun _ w' => ∃ string' spare', Owns w'.memory p string' text spare' ∧
    string.length + n ≤ string'.capacity ∧ Changes w w' p string string')
    (wp_onlyIf (fun _ => ?_) fun hroom => ?_) ?_
  · refine wp_mono (stringReserve_spec h) ?_ fun _ _ h => h
    rintro _ w' ⟨string', spare', howns, hle, hchanges⟩
    exact ⟨string', spare', howns, (le_max_right ..).trans hle, hchanges⟩
  · exact ⟨string, spare, h, Nat.le_of_not_lt hroom, .refl h⟩
  rintro _ w' ⟨string', spare', howns, hroom, hchanges⟩
  have hsame : string'.length = string.length := howns.length_eq.trans h.length_eq.symm
  refine wp_bind (wp_loadBuffer howns.header ?_)
  rw [howns.storable.ofBytes_toBytes]
  obtain ⟨header, hheader, -⟩ := read_eq_some.mp howns.header
  have hlater : n ≠ 0 → Borrowed w' p string' bytes source := fun hne =>
    (hlent hne).after hchanges
  rw [← hsame] at hroom ⊢
  refine wp_then (wp_copyTail howns (not_not.mp hutf8) hlength hlater hroom) ?_
  rintro _ w'' ⟨hplace, ⟨spare'', hholds⟩, hothers⟩
  refine wp_storeText ((read_congr hplace).trans howns.header) hholds howns.apart ?_
  intro m'' hdone hchanged helse
  refine ⟨hgiven, _, spare'', hdone, ?_, fun b hsome hb hblock => ?_, hchanges.block⟩
  · exact hchanges.header.trans ((ChangedAt.of_eq hheader hplace).trans hchanged)
  · have hnew : string'.capacity ≠ 0 → b ≠ string'.pointer.base := by
      rintro hcapacity rfl
      obtain ⟨hold, hsame⟩ := hchanges.block hcapacity hsome
      exact hblock hold hsame
    exact (helse b hb).trans ((hothers b hnew).trans (hchanges.others b hsome hb hblock))

theorem stringClear_spec :
    wp (stringClear p) (fun _ w' => ∃ string' spare', Owns w'.memory p string' [] spare' ∧
      Changes w w' p string string') (Untouched w) w := by
  refine wp_bind (wp_requireRuntime (wp_check ?_ fun _ => ?_))
  · exact untouched _ noConfusion
  refine wp_bind (wp_liveString h ?_)
  refine wp_storeText h.header h.toHoldsText.clear h.apart fun m' howns hchanged hothers => ?_
  exact ⟨_, _, howns, hchanged, fun b _ hb _ => hothers b hb,
    fun hcapacity _ => ⟨hcapacity, rfl⟩⟩

theorem stringDestroy_spec :
    wp (stringDestroy p) (fun _ w' => Owns w'.memory p .empty [] [] ∧
      (string.capacity ≠ 0 → w'.memory string.pointer.base = none) ∧
      Changes w w' p string .empty) (Untouched w) w := by
  obtain ⟨header, hheader, -⟩ := read_eq_some.mp h.header
  refine wp_bind (wp_get (wp_check ?_ fun _ => ?_))
  · exact untouched _ noConfusion
  refine wp_check (untouched _ noConfusion) fun _ => ?_
  refine wp_bind (wp_loadBuffer h.header ?_)
  rw [h.storable.ofBytes_toBytes]
  refine wp_bind (wp_ofExcept_ok h.validateStringHeader ?_)
  refine wp_then (Q := fun _ w' => w'.memory p.base = w.memory p.base ∧
    (string.capacity ≠ 0 → w'.memory string.pointer.base = none) ∧
    ∀ b, (string.capacity ≠ 0 → b ≠ string.pointer.base) → w'.memory b = w.memory b)
    (wp_onlyIf (fun hcapacity => ?_) fun hzero => ?_) ?_
  · obtain ⟨-, object, hobject, -, hlayout⟩ := h.block hcapacity
    refine wp_bind (wp_ofExcept_ok hlayout (wp_dealloc hobject h.storable.offset rfl ?_))
    exact ⟨Function.update_of_ne (h.apart hcapacity).symm .., fun _ => Function.update_self ..,
      fun b hb => Function.update_of_ne (hb hcapacity) ..⟩
  · exact ⟨rfl, fun hcapacity => absurd hcapacity hzero, fun _ _ => rfl⟩
  rintro _ w' ⟨hplace, hgone, hothers⟩
  refine wp_storeText ((read_congr hplace).trans h.header) (holdsText_empty _)
    (fun hne => absurd rfl hne) fun m' howns hchanged helse => ?_
  refine ⟨howns, fun hcapacity => ?_, ?_, fun b _ hb hblock => ?_, fun hne => absurd rfl hne⟩
  · exact (helse _ (h.apart hcapacity)).trans (hgone hcapacity)
  · exact (ChangedAt.of_eq hheader hplace).trans hchanged
  · exact (helse b hb).trans (hothers b hblock)

omit h

/-- A string is in nothing that was there before. -/
def Created (w : World) (string : Utf8String) (text : List Byte) (w' : World) : Prop :=
  ∃ m spare, w' = { w with memory := m } ∧ HoldsText m string text spare ∧
    ∀ b, w.memory b ≠ none → m b = w.memory b ∧ (string.capacity ≠ 0 → b ≠ string.pointer.base)

theorem created_empty (w : World) : Created w .empty [] w :=
  ⟨w.memory, [], rfl, holdsText_empty _, fun _ _ => ⟨rfl, fun h => absurd rfl h⟩⟩

theorem holdsText_alloc {capacity : ℕ} {layout : Layout} {pointer : Pointer}
    (hlayout : stringLayout capacity = .ok layout)
    (hgrown : Grown w.memory m' (fun _ => False) layout [] pointer)
    (hpointer : pointer.base ≤ u64Max) :
    ∃ spare, HoldsText m' ⟨pointer, 0, capacity⟩ [] spare ∧
      ∀ b, w.memory b ≠ none → m' b = w.memory b ∧ b ≠ pointer.base := by
  obtain ⟨spare, hholds⟩ := (holdsText_empty w.memory).grow hlayout hgrown hpointer
    nil_prefix
  exact ⟨spare, hholds, fun b hsome => (hgrown.elsewhere b hsome id).symm⟩

theorem stringCreate_spec {capacity : ℕ} :
    wp (stringCreate H.toAllocator capacity) (fun string w' => Created w string [] w')
      (Untouched w) w := by
  refine wp_bind (wp_requireRuntime ?_)
  split
  next => exact wp_pure (created_empty w)
  next =>
    refine wp_bind (wp_checked (stringLayout_checked _) untouched fun _ hlayout _ => ?_)
    refine wp_then wp_allocBytes ?_
    rintro _ _ (⟨rfl, rfl⟩ | ⟨pointer, m', rfl, rfl, hgrown, hpointer⟩)
    · exact wp_bind (wp_none (untouched _ noConfusion))
    · obtain ⟨spare, hholds, hothers⟩ := holdsText_alloc hlayout hgrown hpointer
      refine wp_bind (wp_some rfl (wp_pure ⟨m', spare, rfl, hholds, fun b hsome => ?_⟩))
      exact (hothers b hsome).imp_right fun hne _ => hne

theorem stringFromUtf8_spec (hlength : source.length = length)
    (hread : length ≠ 0 → ¬ bytes.isNull → w.memory.read bytes length = some source) :
    wp (stringFromUtf8 H.toAllocator bytes length)
      (fun string w' => (length ≠ 0 → ¬ bytes.isNull) ∧ Created w string source w')
      (Untouched w) w := by
  refine wp_bind (wp_requireRuntime ?_)
  refine wp_bind (wp_orFail (fun _ => untouched _ noConfusion) fun n hn => ?_)
  obtain rfl := eq_of_tryFrom hn
  split
  next hzero =>
    rw [eq_nil_of_length_eq_zero (hlength.trans hzero)]
    exact wp_pure ⟨fun hne => absurd hzero hne, created_empty w⟩
  next hne =>
    refine wp_check (untouched _ noConfusion) fun hnull => ?_
    have hsource := hread hne hnull
    refine wp_bind (wp_bind (wp_get (wp_demand hsource ?_)))
    refine wp_check (untouched _ noConfusion) fun hutf8 => ?_
    refine wp_bind (wp_demand hn ?_)
    refine wp_bind (wp_checked (stringLayout_checked _) untouched fun _ hlayout _ => ?_)
    refine wp_then wp_allocBytes ?_
    rintro _ _ (⟨rfl, rfl⟩ | ⟨pointer, m', rfl, rfl, hgrown, hpointer⟩)
    · exact wp_bind (wp_none (untouched _ noConfusion))
    refine wp_bind (wp_some rfl ?_)
    obtain ⟨spare, hholds, hothers⟩ := holdsText_alloc hlayout hgrown hpointer
    obtain ⟨object, hobject, -⟩ := read_eq_some.mp hsource
    obtain ⟨hsame, hapart⟩ := hothers bytes.base (hobject ▸ Option.some_ne_none _)
    have hspare : source.length ≤ spare.length := (hlength.trans hholds.capacity_eq).le
    subst hlength
    refine wp_bind (@wp_copyBehind ⟨pointer, 0, _⟩ _ _ _ _ _ _ _ hholds (not_not.mp hutf8)
      (ne_nil_of_length_pos (Nat.pos_of_ne_zero hne)) ((read_congr hsame).trans hsource)
      hapart hspare fun m'' hdone helse => wp_pure ?_)
    rw [Nat.zero_add] at hdone
    refine ⟨fun _ => hnull, m'', _, rfl, hdone, fun b hsome => ?_⟩
    obtain ⟨hsame, hapart⟩ := hothers b hsome
    exact ⟨(helse b hapart).trans hsame, fun _ => hapart⟩

/-- A created string becomes that of the header at `p`. -/
theorem wp_storeCreated {w' : World} {old : List Byte}
    (hread : w.memory.read p bufferSize = some old) (h : Created w string text w') :
    wp (storeBuffer p string) (fun _ w' => ∃ spare, Owns w'.memory p string text spare ∧
      Changes w w' p .empty string) E w' := by
  obtain ⟨m, spare, rfl, hholds, hothers⟩ := h
  obtain ⟨object, hobject, -⟩ := read_eq_some.mp hread
  obtain ⟨hsame, hapart⟩ := hothers p.base (hobject ▸ Option.some_ne_none _)
  refine wp_storeText ((read_congr hsame).trans hread) hholds
    (fun hcapacity heq => hapart hcapacity heq.symm) fun m' howns hchanged helse => ?_
  refine ⟨spare, howns, (ChangedAt.of_eq hobject hsame).trans hchanged, fun b hsome hb _ => ?_,
    fun hcapacity hsome => absurd rfl ((hothers _ hsome).2 hcapacity)⟩
  exact (helse b hb).trans (hothers b hsome).1

end Operations

end Jadren.Runtime

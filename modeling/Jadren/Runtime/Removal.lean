import Jadren.Runtime.Records

/-!
# Removing owned elements

Shrinking and clearing a buffer, and removing one element, give back what the elements that
go own; the elements that stay keep what they own, in their place or one slot further down.
Where a call fails, what has not been given back stays with its owner.

Both kinds of call destroy slots by the loop of `HeaderOwns.wp_forSlots`.  The two ways of closing a
gap have one specification (`ClosesGap`), from which the removals of all kinds of elements follow.
-/

namespace Jadren.Runtime

open Program Chunks Buffer List

variable {R : Resource} {sound : Bool} {m m' : Memory} {align : ℕ} {buffer : Buffer}
  {base : Option ℕ} {parts left right : List (List ℕ)} {p q : Pointer} {w : World}
  {first count : ℕ}

/-! ## A new length -/

theorem valueOfBytes_bytesOfValue (count : ℕ) {value : ℕ} (h : value < 256 ^ count) :
    valueOfBytes (bytesOfValue count value) = value := by
  induction count generalizing value with
  | zero =>
    rw [Nat.pow_zero] at h
    exact (Nat.lt_one_iff.mp h).symm
  | succ count ih =>
    have hrest : value / 256 < 256 ^ count := by
      rw [Nat.pow_succ] at h
      omega
    unfold bytesOfValue valueOfBytes
    rw [ih hrest, UInt8.toNat_ofNat']
    omega

/-- The headers that eight bytes for each field can hold. -/
structure Buffer.Storable (buffer : Buffer) : Prop where
  offset : buffer.pointer.offset = 0
  pointer : buffer.pointer.base ≤ u64Max
  length : buffer.length ≤ u64Max
  capacity : buffer.capacity ≤ u64Max

theorem Buffer.Storable.of_bytes (bytes : List Byte) : (ofBytes bytes).Storable :=
  ⟨rfl, valueOfBytes_le (length_take_le ..), valueOfBytes_le (length_take_le ..),
    valueOfBytes_le (length_take_le ..)⟩

theorem Buffer.Storable.ofBytes_toBytes (h : buffer.Storable) :
    ofBytes buffer.toBytes = buffer := by
  have hvalue : ∀ {value}, value ≤ u64Max → valueOfBytes (bytesOfValue 8 value) = value := by
    intro value hle
    apply valueOfBytes_bytesOfValue
    have heq : 256 ^ 8 = u64Max + 1 := rfl
    omega
  have haddr : buffer.pointer.addr = buffer.pointer.base := by
    unfold Pointer.addr
    rw [h.offset, Nat.add_zero]
  have hlength : ∀ value, (bytesOfValue 8 value).length = 8 := length_bytesOfValue 8
  obtain ⟨⟨address, offset⟩, length, capacity⟩ := buffer
  obtain ⟨hoffset, hpointer, hlen, hcapacity⟩ := h
  simp only at hoffset hpointer hlen hcapacity haddr
  subst hoffset
  unfold toBytes ofBytes
  simp only [haddr]
  rw [append_assoc, take_left' (hlength _), drop_left' (hlength _),
    take_left' (hlength _), ← append_assoc, drop_left' (by
      rw [length_append, hlength, hlength]), take_of_length_le (hlength _).le,
    hvalue hpointer, hvalue hlen, hvalue hcapacity]

variable {length : ℕ}

theorem validateBuffer_length (hvalid : validateBuffer buffer = .ok ())
    (hle : length ≤ buffer.length) : validateBuffer { buffer with length := length } = .ok () := by
  have hchecked := (validateBuffer_checked buffer).of_eq_ok hvalid
  unfold validateBuffer at hvalid ⊢
  rw [if_neg (by omega)] at hvalid
  rw [if_neg (by
    show ¬ buffer.capacity < length
    omega)]
  exact hvalid

/-- The block at `base`, if there is one, still has its layout. -/
def KeepsLayout (m m' : Memory) (base : Option ℕ) : Prop :=
  ∀ b ∈ base, ∀ object, m b = some object → ∃ object', m' b = some object' ∧
    object'.layout = object.layout

/-- A header with a new length, the slots of which are owned. -/
theorem HeaderOwns.with_length (h : HeaderOwns false m align R buffer base parts)
    (hlayout : KeepsLayout m m' base) (hvalid : validateBuffer buffer = .ok ())
    (hle : length ≤ buffer.length)
    (howners : Owners sound m' buffer.pointer (slots R 0 length) left) :
    HeaderOwns sound m' align R { buffer with length := length } base left := by
  cases h with
  | invalid _ hinvalid =>
    rw [hvalid] at hinvalid
    cases hinvalid
  | empty hempty =>
    subst hempty
    obtain rfl := Nat.le_zero.mp hle
    cases howners
    exact .empty rfl
  | block hblock =>
    obtain ⟨object, hobject, haccepted⟩ := hblock.object
    obtain ⟨object', hobject', hsame⟩ := hlayout _ rfl object hobject
    have hshort : Block sound m' align R { buffer with length := length } left := by
      refine ⟨validateBuffer_length hvalid hle, hblock.capacity_ne_zero, hblock.offset_eq_zero,
        ⟨object', hobject', ?_⟩, howners⟩
      rw [hsame]
      exact haccepted
    exact .block hshort

variable {E : BufferStatus → World → Prop}

theorem wp_storeLength {bytes : List Byte} (hread : w.memory.read p bufferSize = some bytes)
    (hheader : HeaderOwns false m align R (.ofBytes bytes) base parts)
    (hlayout : KeepsLayout m w.memory base) (hvalid : validateBuffer (.ofBytes bytes) = .ok ())
    (hle : length ≤ (ofBytes bytes).length)
    (howners : Owners sound w.memory (ofBytes bytes).pointer (slots R 0 length) left)
    (hbase : p.base ∉ owned base left) :
    wp (storeBuffer p { ofBytes bytes with length := length })
      (fun _ w' => Contains sound w'.memory p align R base left ∧
        Released w w' p.base (p.Window bufferSize) (owned base left) (owned base left)) E w := by
  have hstorable := Buffer.Storable.of_bytes bytes
  have hnew : ({ ofBytes bytes with length := length } : Buffer).Storable :=
    ⟨hstorable.offset, hstorable.pointer, hle.trans hstorable.length, hstorable.capacity⟩
  refine wp_storeBuffer hread fun m' hread' hchanged helse => ?_
  refine ⟨⟨_, hread', ?_⟩, rfl, rfl, hchanged, .refl _, fun b hb hnot => absurd hb hnot,
    fun b hb _ => helse b hb⟩
  rw [hnew.ofBytes_toBytes]
  exact (hheader.with_length hlayout hvalid hle howners).congr fun b hb =>
    helse b fun heq => hbase (heq ▸ hb)

/-! ## Shrinking -/

/-- A call that removes elements has failed.  Sound headers are a reason only where the call
itself is `outside` of what there is. -/
structure Failed (sound : Bool) (outside : Prop) (p : Pointer) (align : ℕ) (R : Resource)
    (w : World) (bs : List ℕ) (status : BufferStatus) (w' : World) : Prop where
  status_ne_ok : status ≠ .ok
  outside : sound = true → outside
  kept : ∃ base parts, Contains false w'.memory p align R base parts ∧
    Released w w' p.base (p.Window bufferSize) bs (owned base parts)

variable {outside : Prop}

theorem Failed.unchanged {status : BufferStatus} (hstatus : status ≠ .ok)
    (houtside : sound = true → outside) (hcontains : Contains sound w.memory p align R base parts) :
    Failed sound outside p align R w (owned base parts) status w := by
  obtain ⟨bytes, hread, hheader⟩ := hcontains
  obtain ⟨object, hobject, -⟩ := read_eq_some.mp hread
  exact ⟨hstatus, houtside, base, parts, ⟨bytes, hread, hheader.weaken⟩, .refl hobject⟩

/-- Calls that begin by looking at the header find it valid or invalid. -/
theorem wp_validHeader {outside : Prop} {f : Buffer → Call Unit} {Q : Unit → World → Prop}
    {bytes : List Byte} (hread : w.memory.read p bufferSize = some bytes)
    (hheader : HeaderOwns sound w.memory align R (.ofBytes bytes) base parts)
    (hf : validateBuffer (.ofBytes bytes) = .ok () → wp (f (.ofBytes bytes)) Q
      (Failed sound outside p align R w (owned base parts)) w) :
    wp (do
      let buffer ← loadBuffer p
      ofExcept (validateBuffer buffer)
      f buffer) Q (Failed sound outside p align R w (owned base parts)) w := by
  refine wp_bind (wp_loadBuffer hread ?_)
  refine wp_bind (wp_checked (validateBuffer_checked _).with_eq (fun status h => ?_)
    fun _ hvalid _ => hf hvalid)
  refine .unchanged h.2 (fun hsound => ?_) ⟨bytes, hread, hheader⟩
  rw [hheader.not_sound h.1] at hsound
  cases hsound

/-- Where the loop over the elements stops, the header is one of what is left. -/
theorem Failed.of_stopped {status : BufferStatus} {w' : World} {bytes : List Byte} {bs : List ℕ}
    {parts' : List (List ℕ)} (hread : w.memory.read p bufferSize = some bytes)
    (hstopped : Stopped sound status)
    (hheader : HeaderOwns false w'.memory align R (.ofBytes bytes) base parts')
    (hreleased : Released w w' p.base (fun _ => False) bs (owned base parts')) :
    Failed sound outside p align R w bs status w' := by
  refine ⟨hstopped.status_ne_ok, fun hsound => ?_, base, parts',
    ⟨bytes, (hreleased.changed.read fun _ _ h => h).trans hread, hheader⟩,
    hreleased.mono fun _ h => h.elim⟩
  rw [hstopped.not_sound] at hsound
  cases hsound

variable {checks : Except BufferStatus Unit} {D : Pointer → Call Unit}

/-- The elements from `newLength` on are destroyed; the others stay as they are. -/
theorem resizeMoveWith_spec {A : Allocator} {newLength elementSize alignment : ℕ} {after : Bool}
    (hD : Destroys R after D) (hsize : R.size = elementSize) (hchecks : checks = .ok ())
    (hw : w.initialized = true) (hp : p.base ≠ 0)
    (hcontains : Contains sound w.memory p align R base parts)
    (hshrink : ∀ bytes, w.memory.read p bufferSize = some bytes →
      newLength ≤ (ofBytes bytes).length) (hnodup : (owned base parts).Nodup)
    (hbase : p.base ∉ owned base parts) :
    wp (resizeMoveWith A checks p newLength elementSize alignment D)
      (fun _ w' => Contains sound w'.memory p align R base (parts.take newLength) ∧
        Released w w' p.base (p.Window bufferSize) (owned base parts)
          (owned base (parts.take newLength)))
      (Failed sound outside p align R w (owned base parts)) w := by
  subst hsize
  obtain ⟨bytes, hread, hheader⟩ := hcontains
  obtain ⟨object, hobject, -⟩ := read_eq_some.mp hread
  have hshrink := hshrink bytes hread
  refine wp_begin hw hp (wp_bind (wp_ofExcept_ok hchecks ?_))
  refine wp_validHeader hread hheader fun hvalid => ?_
  have hlength := hheader.length_eq hvalid
  refine wp_bind (wp_onlyIf (fun hgrow => absurd hgrow (by omega)) fun _ => ?_)
  have htake : (parts.take newLength).length = newLength := by
    rw [length_take]
    omega
  have hdrop : newLength + (parts.drop newLength).length = (ofBytes bytes).length := by
    rw [length_drop]
    omega
  have hsplit : parts.take newLength ++ (parts.drop newLength ++ []) = parts := by
    rw [append_nil, take_append_drop]
  -- the length is stored last, over what the loop has left
  have hlast : ∀ {w₁ : World} {parts₁},
      Owners sound w₁.memory (ofBytes bytes).pointer (slots R 0 newLength)
        (parts.take newLength) →
      HeaderOwns false w₁.memory align R (.ofBytes bytes) base parts₁ →
      Released w w₁ p.base (fun _ => False) (owned base parts) (owned base (parts.take newLength)) →
      wp (do
          let buffer ← loadBuffer p
          storeBuffer p { buffer with length := newLength })
        (fun _ w' => Contains sound w'.memory p align R base (parts.take newLength) ∧
          Released w w' p.base (p.Window bufferSize) (owned base parts)
            (owned base (parts.take newLength)))
        (Failed sound outside p align R w (owned base parts)) w₁ := by
    intro w₁ parts₁ howners hheader₁ hreleased
    have hread₁ := (hreleased.changed.read fun _ _ h => h).trans hread
    have hnot : p.base ∉ owned base (parts.take newLength) := fun h =>
      hbase (hreleased.kept.subset h)
    refine wp_bind (wp_loadBuffer hread₁ ?_)
    have hlayout : KeepsLayout w₁.memory w₁.memory base := fun _ _ object h => ⟨object, h, rfl⟩
    refine wp_mono (wp_storeLength hread₁ hheader₁ hlayout hvalid hshrink howners hnot)
      (fun _ w' h => ?_) fun _ _ h => h
    exact ⟨h.1, (hreleased.mono fun _ h => h.elim).trans h.2 hbase⟩
  -- the removed tail is destroyed slot by slot, unless nothing is removed
  refine wp_bind (wp_onlyIf (fun _ => ?_) fun hsame => ?_)
  · rw [← hsplit] at hheader hnodup hbase
    have hloop := hheader.wp_forSlots (fun _ => False) hD hw hvalid htake hdrop hnodup hbase hobject
    rw [hsplit, append_nil] at hloop
    refine wp_mono hloop (fun _ w₁ h => ?_) fun status w₁ h => ?_
    · obtain ⟨howners, -, hheader₁, hreleased⟩ := h
      rw [hsplit] at hbase
      rw [append_nil] at hreleased
      exact hlast howners hheader₁ hreleased
    · obtain ⟨hstopped, parts', hheader₁, hreleased⟩ := h
      exact .of_stopped hread hstopped hheader₁ hreleased
  · have hall : parts.take newLength = parts := take_of_length_le (by omega)
    have howners := hheader.owners hvalid
    rw [show (ofBytes bytes).length = newLength by omega] at howners
    rw [hall] at hlast ⊢
    exact hlast howners hheader.weaken (.refl hobject)

/-! ## Closing gaps -/

variable {size i : ℕ} {x : Element}

theorem Memory.Stores.read_slot {slots : List Element} (h : m.Stores p size slots)
    (hi : slots[i]? = some x) : m.read (p.plus (i * size)) size = some x := by
  obtain ⟨hlt, hget⟩ := List.getElem?_eq_some_iff.mp hi
  have hread := h.read (i := i) (k := 1) hlt
  rw [Nat.one_mul, drop_eq_getElem_cons hlt, hget] at hread
  exact hread.trans (congrArg some flatten_singleton)

/-- The bytes at the beginning of a block, in slots. -/
theorem exists_stores {object : Object} (hobject : m p.base = some object)
    (hoffset : p.offset = 0) (hroom : length * size ≤ object.bytes.length) :
    ∃ slots : List Element, m.Stores p size slots ∧ slots.length = length := by
  have hlength : (object.bytes.take (length * size)).length = length * size := by
    rw [length_take, Nat.min_eq_left hroom]
  obtain ⟨slots, huniform, hslots, hflatten⟩ := exists_uniform hlength
  refine ⟨slots, ⟨huniform, object, [], object.bytes.drop (length * size), hobject, ?_, ?_⟩, hslots⟩
  · rw [hflatten, nil_append, take_append_drop]
  · exact hoffset.symm

/-- The entry after a gap at `index` is moved to its place. -/
def afterGap (index i : ℕ) : ℕ := if i < index then i else i + 1

theorem getElem?_closed {xs ys : List Element} {z : Element} (hi : i < xs.length + ys.length) :
    (xs ++ ys ++ z :: [])[i]? = (xs ++ x :: ys)[afterGap xs.length i]? := by
  unfold afterGap
  rw [getElem?_append_left (by rw [length_append]; exact hi)]
  split
  next hlt => rw [getElem?_append_left hlt, getElem?_append_left hlt]
  next hge =>
    rw [getElem?_append_right (by omega), getElem?_append_right (by omega),
      Nat.succ_sub (by omega), getElem?_cons_succ]

/-- The gap in the block is closed: what reads in the slots after it is moved. -/
structure Closed (w : World) (p : Pointer) (size index length : ℕ) (w' : World) : Prop where
  memory : ∃ m, w' = { w with memory := m }
  layout : ∀ object, w.memory p.base = some object →
    ∃ object', w'.memory p.base = some object' ∧ object'.layout = object.layout
  elsewhere : ∀ b, b ≠ p.base → w'.memory b = w.memory b
  moved : ∀ i, i < length - 1 → w'.memory.read (p.plus (i * size)) size =
    w.memory.read (p.plus (afterGap index i * size)) size

theorem Closed.of_rewritten {xs ys : List Element} {z : Element}
    (hstores : w.memory.Stores p size (xs ++ x :: ys))
    (hrewritten : w.memory.Rewritten m p size (xs ++ ys ++ z :: [])) :
    Closed w p size xs.length (xs ++ x :: ys).length { w with memory := m } := by
  refine ⟨⟨m, rfl⟩, hrewritten.layout, hrewritten.elsewhere, fun i hi => ?_⟩
  rw [length_append, length_cons] at hi
  have hlt : i < xs.length + ys.length := by omega
  have hsame := getElem?_closed (x := x) (z := z) hlt
  cases hget : (xs ++ ys ++ z :: [])[i]? with
  | none =>
    rw [getElem?_eq_none_iff, length_append, length_append] at hget
    omega
  | some =>
    rw [hget] at hsame
    exact (hrewritten.stores.read_slot hget).trans (hstores.read_slot hsame.symm).symm

/-- What both ways of closing a gap do. -/
def ClosesGap (size index : ℕ) (closeGap : Buffer → Call Unit) : Prop :=
  ∀ ⦃w : World⦄ ⦃buffer : Buffer⦄ ⦃object : Object⦄ ⦃E : BufferStatus → World → Prop⦄,
    w.memory buffer.pointer.base = some object → buffer.pointer.offset = 0 →
    index < buffer.length → buffer.length * size ≤ object.bytes.length →
    buffer.length < u64Max → buffer.length * size ≤ u64Max →
    wp (closeGap buffer)
      (fun _ w' => Closed w buffer.pointer size index buffer.length w') E w

theorem closesGap_closeDescriptorGap (index : ℕ) :
    ClosesGap bufferSize index (closeDescriptorGap index) := by
  intro w buffer object E hobject hoffset hindex hroom _ _
  obtain ⟨slots, hstores, hlength⟩ := exists_stores hobject hoffset hroom
  obtain ⟨xs, x, ys, rfl, rfl⟩ := exists_parts (hlength.symm ▸ hindex)
  have hcount : buffer.length - 1 - xs.length = ys.length := by
    rw [← hlength, length_append, length_cons]
    omega
  unfold closeDescriptorGap
  rw [hcount, ← hlength]
  rw [← append_nil (xs ++ x :: ys)] at hstores
  refine wp_mono (forEach_moveDescriptor_spec hstores) (fun _ w' h => ?_) fun _ _ h => h
  obtain ⟨m, z, rfl, hrewritten⟩ := h
  rw [append_nil] at hstores
  exact .of_rewritten hstores hrewritten

theorem closesGap_closeRecordGap (size index : ℕ) :
    ClosesGap size index (closeRecordGap index size) := by
  intro w buffer object E hobject hoffset hindex hroom hlimit hfits
  obtain ⟨slots, hstores, hlength⟩ := exists_stores hobject hoffset hroom
  obtain ⟨xs, x, ys, rfl, rfl⟩ := exists_parts (hlength.symm ▸ hindex)
  have hslots : (xs ++ x :: ys).length = xs.length + (ys.length + 1) := by
    rw [length_append, length_cons]
  have hcount : buffer.length - (xs.length + 1) = ys.length := by omega
  have hmul : ∀ {i}, i ≤ buffer.length → checkedMul i size = some (i * size) := by
    intro i hi
    have hle : i * size ≤ buffer.length * size := Nat.mul_le_mul_right size hi
    exact if_pos (by omega)
  have hnext : ((checkedAdd xs.length 1).bind fun next => checkedMul next size) =
      some ((xs.length + 1) * size) := by
    have hadd : checkedAdd xs.length 1 = some (xs.length + 1) := if_pos (by omega)
    rw [hadd]
    exact hmul hindex
  refine wp_bind (wp_demand (if_pos hindex) ?_)
  rw [hcount]
  -- what lies behind the slot moves down by one
  refine wp_then (Q := fun _ w' => ∃ m, w' = { w with memory := m } ∧
    w.memory.Rewritten m buffer.pointer size (overwrite (xs ++ x :: ys) xs.length ys)) ?_ ?_
  · refine wp_onlyIf (fun _ => ?_) fun hzero => ?_
    · refine wp_bind (wp_some (hmul (by omega)) ?_)
      refine wp_bind (wp_some hnext ?_)
      refine wp_bind (wp_some (hmul (by omega)) ?_)
      refine wp_bind (wp_ptrAdd hstores (by omega) ?_)
      refine wp_bind (wp_ptrAdd hstores (by omega) ?_)
      refine wp_ptrCopy hstores hstores (by omega) (by omega) fun m hrewritten => ?_
      have hgap : ((xs ++ x :: ys ++ []).drop (xs.length + 1)).take ys.length = ys := drop_take_gap
      rw [append_nil] at hgap
      rw [hgap] at hrewritten
      exact ⟨m, rfl, hrewritten⟩
    · have hnil : ys = [] := eq_nil_of_length_eq_zero (not_not.mp hzero)
      subst hnil
      rw [overwrite_nil]
      exact ⟨w.memory, rfl, .refl hstores⟩
  intro _ w₁ h
  obtain ⟨m, rfl, hshifted⟩ := h
  have hlast : buffer.length - 1 = xs.length + ys.length := by omega
  have hwithin : xs.length + ys.length ≤ (xs ++ x :: ys).length := by omega
  have hshiftedLength := length_overwrite hwithin
  refine wp_bind (wp_demand (if_pos (by omega)) ?_)
  rw [hlast]
  refine wp_bind (wp_some (hmul (by omega)) ?_)
  refine wp_bind (wp_ptrAdd hshifted.stores (by omega) ?_)
  refine wp_ptrWriteBytes hshifted.stores (by omega) fun m' hcleared => ?_
  -- the last slot, now held twice, is cleared
  have hclosed : overwrite (overwrite (xs ++ x :: ys ++ []) xs.length ys) (xs.length + ys.length)
      [replicate size 0] = xs ++ ys ++ replicate size 0 :: [] := overwrite_close
  rw [append_nil] at hclosed
  rw [hclosed] at hcleared
  rw [← hlength]
  exact .of_rewritten hstores (hshifted.trans hcleared)

/-! ## Removing one element -/

theorem Owners.shift (h : Owners sound m p (slots R (i + 1) count) parts)
    (hread : ∀ j, i ≤ j → j < i + count →
      m'.read (p.plus (j * R.size)) R.size = m.read (p.plus ((j + 1) * R.size)) R.size)
    (hsame : ∀ b ∈ parts.flatten, m' b = m b) : Owners sound m' p (slots R i count) parts := by
  induction count generalizing i parts with
  | zero =>
    cases h
    exact .nil
  | succ count ih =>
    obtain ⟨part, rest, hpart, hrest, rfl⟩ := forall₂_cons_left_iff.mp h
    rw [flatten_cons] at hsame
    refine .cons ?_ ?_
    · exact R.congr hpart (hread i (Nat.le_refl i) (by omega)) fun b hb =>
        hsame b (mem_append_left _ hb)
    · exact ih hrest (fun j hle hlt => hread j (by omega) (by omega)) fun b hb =>
        hsame b (mem_append_right _ hb)

variable {index : ℕ}

theorem Closed.owners {w' : World} {x : List ℕ}
    (hclosed : Closed w p R.size index (left ++ x :: right).length w')
    (hindex : left.length = index) (hleft : Owners sound w.memory p (slots R 0 index) left)
    (hright : Owners sound w.memory p (slots R (index + 1) right.length) right)
    (hbase : p.base ∉ (left ++ right).flatten) :
    Owners sound w'.memory p (slots R 0 (index + right.length)) (left ++ right) := by
  have hlength : (left ++ x :: right).length = index + right.length + 1 := by
    rw [length_append, length_cons, hindex, Nat.add_assoc]
  rw [flatten_append] at hbase
  rw [← slots_append R 0 index, Nat.zero_add]
  apply rel_append
  · apply hleft.congr
    · intro site hsite
      obtain ⟨i, hi, rfl⟩ := mem_map.mp hsite
      have hlt := (mem_range'_1.mp hi).2
      have hmoved := hclosed.moved i (by omega)
      unfold afterGap at hmoved
      rw [if_pos (by omega)] at hmoved
      exact hmoved
    · exact fun b hb => hclosed.elsewhere b fun heq => hbase (mem_append_left _ (heq ▸ hb))
  · apply Owners.shift hright
    · intro j hle hlt
      have hmoved := hclosed.moved j (by omega)
      unfold afterGap at hmoved
      rw [if_neg (by omega)] at hmoved
      exact hmoved
    · exact fun b hb => hclosed.elsewhere b fun heq => hbase (mem_append_right _ (heq ▸ hb))

theorem Closed.released {q : Pointer} {length : ℕ} {object : Object} {bs : List ℕ}
    (h : Closed w p size index length { w with memory := m })
    (hobject : w.memory q.base = some object) (hne : q.base ≠ p.base) (hmem : p.base ∈ bs) :
    Released w { w with memory := m } q.base (fun _ => False) bs bs :=
  ⟨rfl, rfl, .of_eq hobject (h.elsewhere q.base hne), .refl _, fun _ hb hnot => absurd hb hnot,
    fun b _ hb => h.elsewhere b fun heq => hb (heq ▸ hmem)⟩

theorem wp_slot {Q : Unit → World → Prop} (h : wp (forSlots p size index (index + 1) D) Q E w) :
    wp (ptrAdd p (index * size)) (fun slot => wp (D slot) Q E) E w := by
  unfold forSlots at h
  rw [Nat.add_sub_cancel_left] at h
  exact wp_bind_iff.mp (wp_bind_iff.mp h)

theorem HeaderOwns.block_of_pos (h : HeaderOwns sound m align R buffer base parts)
    (hvalid : validateBuffer buffer = .ok ()) (hpos : 0 < buffer.length) :
    base = some buffer.pointer.base ∧ Block sound m align R buffer parts := by
  cases h with
  | invalid _ hinvalid =>
    rw [hvalid] at hinvalid
    cases hinvalid
  | empty hempty =>
    subst hempty
    cases hpos
  | block hblock => exact ⟨rfl, hblock⟩

/-- The sizes that occur in a block fit into 64 bits. -/
theorem Block.limits (h : Block sound m align R buffer parts) :
    buffer.length < u64Max ∧ buffer.length * R.size ≤ u64Max := by
  obtain ⟨object, -, hlayout⟩ := h.object
  have hblock := (bufferLayout_checked R.size align buffer.capacity).of_eq_ok hlayout
  have hvalid := (validateBuffer_checked buffer).of_eq_ok h.valid
  have hle := hblock.size_le
  have hlength : buffer.length * R.size ≤ R.size * buffer.capacity := by
    rw [Nat.mul_comm R.size]
    exact Nat.mul_le_mul_right R.size hvalid.1
  have hone : buffer.capacity ≤ R.size * buffer.capacity :=
    Nat.le_mul_of_pos_left _ hblock.size_pos
  unfold u64Max
  omega

/-- The element is destroyed; those after it are moved down. -/
theorem removeDropWith_spec {elementSize : ℕ} {after : Bool} {closeGap : Buffer → Call Unit}
    (hD : Destroys R after D) (hsize : R.size = elementSize)
    (hgap : ClosesGap elementSize index closeGap) (hchecks : checks = .ok ())
    (houtside : parts.length ≤ index → outside) (hw : w.initialized = true) (hp : p.base ≠ 0)
    (hcontains : Contains sound w.memory p align R base parts) (hnodup : (owned base parts).Nodup)
    (hbase : p.base ∉ owned base parts) :
    wp (removeDropWith checks p index elementSize D closeGap)
      (fun _ w' => Contains sound w'.memory p align R base (parts.eraseIdx index) ∧
        Released w w' p.base (p.Window bufferSize) (owned base parts)
          (owned base (parts.eraseIdx index)))
      (Failed sound outside p align R w (owned base parts)) w := by
  subst hsize
  obtain ⟨bytes, hread, hheader⟩ := hcontains
  obtain ⟨object, hobject, -⟩ := read_eq_some.mp hread
  refine wp_begin hw hp (wp_bind (wp_ofExcept_ok hchecks ?_))
  refine wp_validHeader hread hheader fun hvalid => ?_
  have hlength := hheader.length_eq hvalid
  refine wp_bind (wp_failIf (fun hle => ?_) fun hindex => ?_)
  · exact .unchanged BufferStatus.noConfusion (fun _ => houtside (hlength ▸ hle))
      ⟨bytes, hread, hheader⟩
  have hindex := Nat.lt_of_not_le hindex
  obtain ⟨rfl, hblock⟩ := hheader.block_of_pos hvalid (Nat.zero_lt_of_lt hindex)
  obtain ⟨hlimit, hfits⟩ := hblock.limits
  obtain ⟨left, x, right, rfl, rfl⟩ := exists_parts (hlength ▸ hindex : index < parts.length)
  have herase : (left ++ x :: right).eraseIdx left.length = left ++ right := by
    rw [eraseIdx_append_of_length_le (Nat.le_refl _), Nat.sub_self]
    rfl
  have hoffset : left.length * R.size ≤ (ofBytes bytes).length * R.size :=
    Nat.mul_le_mul_right R.size (Nat.le_of_lt hindex)
  have hheader' : HeaderOwns sound w.memory align R (.ofBytes bytes)
      (some (ofBytes bytes).pointer.base) (left ++ ([x] ++ right)) := hheader
  rw [herase]
  refine wp_bind (wp_some (if_pos (by omega)) ?_)
  -- destroying one element is the loop over its slot
  have hloop := hheader'.wp_forSlots (fun _ => False) hD hw hvalid rfl rfl hnodup hbase hobject
  refine wp_bind (wp_mono (wp_slot hloop) (fun selected w' h => ?_) fun status w' h => ?_)
  · refine wp_bind (wp_mono h (fun _ w₁ h => ?_) fun status w₁ h => ?_)
    · obtain ⟨hleft, hright, hheader₁, hreleased⟩ := h
      obtain ⟨-, hblock₁⟩ := hheader₁.block_of_pos hvalid (Nat.zero_lt_of_lt hindex)
      obtain ⟨object₁, hobject₁, -⟩ := hblock₁.object
      have hread₁ := (hreleased.changed.read fun _ _ h => h).trans hread
      obtain ⟨hkeptNodup, hkeptBase⟩ :
          (owned (some (ofBytes bytes).pointer.base) (left ++ right)).Nodup ∧
          p.base ∉ owned (some (ofBytes bytes).pointer.base) (left ++ right) :=
        ⟨hnodup.sublist hreleased.kept, fun h => hbase (hreleased.kept.subset h)⟩
      -- the header lies outside the block, so that closing the gap leaves it as it is
      have hne : p.base ≠ (ofBytes bytes).pointer.base := fun heq =>
        hkeptBase (heq ▸ mem_cons_self)
      refine wp_bind (wp_mono (hgap hobject₁ hblock₁.offset_eq_zero hindex
        ((Nat.le_add_left ..).trans (hblock₁.length_le hobject₁)) hlimit hfits)
          (fun _ w₂ hclosed => ?_) fun _ _ h => h)
      obtain ⟨m₂, rfl⟩ := hclosed.memory
      have hsame₂ : m₂ p.base = w₁.memory p.base := hclosed.elsewhere _ hne
      obtain ⟨object₀, hobject₀, -⟩ := read_eq_some.mp hread₁
      have hmoved := hclosed.released hobject₀ hne (show (ofBytes bytes).pointer.base ∈
        owned (some (ofBytes bytes).pointer.base) (left ++ right) from mem_cons_self)
      have howners := Closed.owners (x := x) (hlength ▸ hclosed) rfl hleft hright
        (nodup_cons.mp hkeptNodup).1
      have hlast : (ofBytes bytes).length - 1 = left.length + right.length := by
        rw [← hlength, length_append, length_cons]
        rfl
      rw [← hlast] at howners
      -- what the slots own now is what the shorter header owns
      have hlayout : KeepsLayout w₁.memory m₂ (some (ofBytes bytes).pointer.base) := by
        intro b hb
        obtain rfl := Option.some.inj hb
        exact hclosed.layout
      refine wp_mono (wp_storeLength ((read_congr hsame₂).trans hread₁) hheader₁ hlayout hvalid
        (Nat.sub_le ..) howners hkeptBase) (fun _ w₃ h => ?_) fun _ _ h => h
      have htwo := hreleased.trans hmoved hbase
      exact ⟨h.1, (htwo.mono fun _ h => h.elim).trans h.2 hbase⟩
    · obtain ⟨hstopped, middle', hheader₁, hreleased⟩ := h
      exact .of_stopped hread hstopped hheader₁ hreleased
  · obtain ⟨hstopped, middle', hheader₁, hreleased⟩ := h
    exact .of_stopped hread hstopped hheader₁ hreleased

end Jadren.Runtime

import Jadren.Runtime.BufferLists

/-!
# Moving elements in and out of buffers

Inserting and removing are rewritings of the list of slots (`Chunks.overwrite_open`,
`Chunks.overwrite_close`); what moves in or out lies in a slot of the caller, apart from
the buffer, or is a header that the call returns.
-/

namespace Jadren.Runtime

open Program Chunks BufferStatus List Buffer

/-- The caller's storage for one element, apart from the buffer. -/
structure World.Slot (w : World) (p : Pointer) (size : ℕ) (x : Element) : Prop where
  stores : w.memory.Stores p size [x]
  apart : w.Apart p.base

variable {w : World} {p : Pointer} {size : ℕ} {x : Element}

theorem World.Slot.memory_ne_none (h : w.Slot p size x) : w.memory p.base ≠ none := by
  obtain ⟨object, -, -, hobject, -⟩ := h.stores.stored
  exact Option.ne_none_iff_exists'.mpr ⟨object, hobject⟩

/-- `m'` is `m` with other entries at `p` and anything in the caller's slot. -/
structure Moved (m m' : Memory) (p : Pointer) (slot : Option ℕ) (size : ℕ)
    (slots : List Element) : Prop where
  stores : m'.Stores p size slots
  layout : ∀ object, m p.base = some object →
    ∃ object', m' p.base = some object' ∧ object'.layout = object.layout
  elsewhere : ∀ base, base ≠ p.base → slot ≠ some base → m' base = m base

theorem Becomes.refl {size align : ℕ} {w : World} {buffer : Buffer} {elements spare : List Element}
    (hheader : w.header = some buffer)
    (hholds : Holds w.memory size align buffer elements spare) :
    Becomes size align none w w buffer elements spare :=
  ⟨rfl, hheader, hholds, fun _ _ _ _ => rfl, fun _ _ h => h⟩

variable {align : ℕ} {buffer : Buffer} {elements spare : List Element}

/-- Rewriting the slots of a buffer that is there. -/
theorem Becomes.rewrite {w₁ : World} {m : Memory} {elements' spare' : List Element}
    {slot : Option ℕ} (h : Becomes size align none w w₁ buffer elements spare)
    (hcapacity : buffer.capacity ≠ 0)
    (hmoved : Moved w₁.memory m buffer.pointer slot size (elements' ++ spare'))
    (hlength : (elements' ++ spare').length = (elements ++ spare).length) :
    Becomes size align slot w
      { w₁ with memory := m, header := some { buffer with length := elements'.length } }
      { buffer with length := elements'.length } elements' spare' := by
  obtain ⟨hoffset, hbase, hdvd, object, hobject, hlayout⟩ := h.holds.block hcapacity
  obtain ⟨object', hobject', hlayout'⟩ := hmoved.layout object hobject
  refine ⟨h.initialized, rfl, ⟨rfl, h.holds.capacity_eq.trans hlength.symm, h.holds.null, ?_,
    fun _ => hmoved.stores⟩, fun base hsome hapart hslot => ?_, fun base hsome hapart => ?_⟩
  · exact fun _ => ⟨hoffset, hbase, hdvd, object', hobject', by rw [hlayout', hlayout]⟩
  · have hne := h.apart base hsome hapart buffer h.header hcapacity
    exact (hmoved.elsewhere base hne hslot).trans
      (h.frame base hsome hapart (Option.some_ne_none _).symm)
  · intro buffer' hbuffer' _
    obtain rfl := Option.some.inj hbuffer'
    exact h.apart base hsome hapart buffer h.header hcapacity

variable {index : ℕ}

theorem bufferInsertMoveFrom_spec {A : Allocator} {source : Pointer}
    (hheader : w.header = some buffer) (hholds : Holds w.memory size align buffer elements spare)
    (hsource : ¬ source.isNull → w.Slot source size x) :
    wp (bufferInsertMoveFrom A index source size align)
      (fun _ w' => ¬ source.isNull ∧ index ≤ elements.length ∧ (∃ buffer' spare',
        Becomes size align (some source.base) w w' buffer'
          (elements.take index ++ x :: elements.drop index) spare') ∧
        w'.memory.Stores source size [replicate size 0])
      (Unchanged w) w := by
  unfold bufferInsertMoveFrom
  refine wp_bind (wp_requireInitialized fun _ => ?_)
  refine wp_bind (wp_header hheader ?_)
  refine wp_check (unchanged _ noConfusion) fun hnull => ?_
  refine wp_bind (wp_checked (validateElementLayout_checked ..) unchanged fun _ _ hlayout => ?_)
  refine wp_bind (wp_orFail (fun _ => unchanged _ noConfusion) fun a ha => ?_)
  obtain rfl := eq_of_tryFrom ha
  refine wp_check (unchanged _ noConfusion) fun _ => ?_
  refine wp_bind (wp_checked (validateBuffer_checked buffer) unchanged fun _ _ _ => ?_)
  refine wp_check (unchanged _ noConfusion) fun hindex => ?_
  refine wp_check (unchanged _ noConfusion) fun hmax => ?_
  have hindex := Nat.le_of_not_lt hindex
  have hlt := Nat.lt_of_le_of_lt hholds.length_le hholds.capacity_lt
  refine wp_bind (wp_demand (if_pos hindex) ?_)
  refine wp_bind (wp_orFail (fun _ => unchanged _ noConfusion) fun n hn => ?_)
  obtain rfl := eq_of_checkedMul hn
  refine wp_bind (wp_demand (if_pos hlt) ?_)
  refine wp_then (bufferReserve_spec hheader hholds) ?_
  intro _ w₁ ⟨buffer₁, spare₁, hbecomes, hcapacity₁⟩
  -- from here on the checks pass
  have hsource := hsource hnull
  have hsource₁ := hsource.stores.congr
    (hbecomes.frame _ hsource.memory_ne_none hsource.apart (Option.some_ne_none _).symm)
  have hholds₁ := hbecomes.holds
  have hlength₁ := hholds₁.length_eq
  have hcapacity : buffer₁.capacity ≠ 0 :=
    Nat.ne_of_gt (Nat.lt_of_lt_of_le (Nat.succ_pos _) hcapacity₁)
  have hapart := hbecomes.apart _ hsource.memory_ne_none hsource.apart buffer₁ hbecomes.header
    hcapacity
  have hlength := hholds.length_eq
  have hcapacityEq := hholds₁.capacity_eq
  have hstores := hholds₁.stores hcapacity
  obtain ⟨z, zs, rfl⟩ : ∃ z zs, spare₁ = z :: zs := by
    refine exists_cons_of_length_pos ?_
    rw [length_append] at hcapacityEq
    omega
  obtain ⟨xs, ys, rfl, rfl⟩ : ∃ xs ys, elements = xs ++ ys ∧ index = xs.length := by
    refine ⟨elements.take index, elements.drop index, (take_append_drop ..).symm, ?_⟩
    rw [length_take]
    omega
  rw [length_append] at hlength
  have hcount : buffer.length - xs.length = ys.length := by omega
  have hslots : (xs ++ ys ++ z :: zs).length = xs.length + (ys.length + 1) + zs.length := by
    simp only [length_append, length_cons]
    omega
  refine wp_bind (wp_header hbecomes.header ?_)
  refine wp_bind (wp_some (hholds₁.checkedMul_eq hcapacity (by omega)) ?_)
  refine wp_bind (wp_ptrAdd hstores (by omega) ?_)
  refine wp_then (Q := fun _ w' => ∃ m, w' = { w₁ with memory := m } ∧
    w₁.memory.Rewritten m buffer₁.pointer size
      (overwrite (xs ++ ys ++ z :: zs) (xs.length + 1) ys)) ?_ ?_
  · rw [hcount]
    refine wp_onlyIf (fun _ => ?_) fun hzero => ?_
    · have hys : ((xs ++ ys ++ z :: zs).drop xs.length).take ys.length = ys := by
        rw [append_assoc, drop_left, take_left]
      refine wp_bind (wp_ptrAdd_next hstores (by omega) ?_)
      refine wp_ptrCopy hstores hstores (by omega) (by omega) fun m hrewritten => ?_
      rw [hys] at hrewritten
      exact ⟨m, rfl, hrewritten⟩
    · have hnil : ys = [] := eq_nil_of_length_eq_zero
        ((Nat.mul_eq_zero.mp (not_not.mp hzero)).resolve_right (Nat.ne_of_gt hlayout.2.size_pos))
      subst hnil
      rw [overwrite_nil]
      exact ⟨w₁.memory, rfl, .refl hstores⟩
  rintro _ _ ⟨m₂, rfl, hshifted⟩
  have hsource₂ := hsource₁.congr (hshifted.elsewhere _ hapart)
  refine wp_bind (wp_ptrCopy_of hsource₂ hshifted.stores ?_ fun m₃ hinserted => ?_)
  · rw [length_overwrite (by omega)]
    omega
  rw [overwrite_open] at hinserted
  have hsource₃ := hsource₂.congr (hinserted.elsewhere _ hapart)
  refine wp_bind (wp_ptrWriteBytes_slot hsource₃ fun m₄ hcleared => ?_)
  have hlt₁ := Nat.lt_of_le_of_lt hholds₁.length_le hholds₁.capacity_lt
  refine wp_bind (wp_demand (if_pos hlt₁) ?_)
  have hblock : m₄ buffer₁.pointer.base = m₃ buffer₁.pointer.base :=
    hcleared.elsewhere _ (Ne.symm hapart)
  have hmoved : Moved w₁.memory m₄ buffer₁.pointer (some source.base) size
      (xs ++ x :: ys ++ zs) := by
    refine ⟨hinserted.stores.congr hblock, ?_, fun base hbase hslot => ?_⟩
    · rw [hblock]
      exact (hshifted.trans hinserted).layout
    · have hne : base ≠ source.base := fun h => hslot (congrArg some h.symm)
      exact (hcleared.elsewhere base hne).trans ((hshifted.trans hinserted).elsewhere base hbase)
  have hnewLength : buffer₁.length + 1 = (xs ++ x :: ys).length := by
    rw [hlength₁, length_append, length_append, length_cons, Nat.add_assoc]
  have hslotsLength : (xs ++ x :: ys ++ zs).length = (xs ++ ys ++ z :: zs).length := by
    simp only [length_append, length_cons]
    omega
  rw [take_left, drop_left, hnewLength]
  refine wp_modify ⟨hnull, ?_, ⟨_, zs, hbecomes.rewrite hcapacity hmoved hslotsLength⟩,
    hcleared.stores⟩
  rw [length_append]
  exact Nat.le_add_right ..

/-- The end of a removal: once the gap is closed, the last slot is cleared and given up. -/
theorem wp_giveUpLast {size align : ℕ} {slot : Option ℕ} {w w₁ : World} {m : Memory}
    {buffer : Buffer} {xs ys spare : List Element} {x : Element}
    {E : BufferStatus → World → Prop}
    (hbecomes : Becomes size align none w w₁ buffer (xs ++ x :: ys) spare)
    (hmoved : Moved w₁.memory m buffer.pointer slot size
      (overwrite (xs ++ x :: ys ++ spare) xs.length ys)) :
    wp (do
        let last ← demand (checkedSub buffer.length 1)
        let tailOffset ← orFail (checkedMul last size) .sizeOverflow
        let tail ← ptrAdd buffer.pointer tailOffset
        ptrWriteBytes tail 0 size
        setHeader { buffer with length := last })
      (fun _ w' => ∃ m' buffer', (∀ base, base ≠ buffer.pointer.base → m' base = m base) ∧
        w' = { w₁ with memory := m', header := some buffer' } ∧
        Becomes size align slot w w' buffer' (xs ++ ys) (replicate size 0 :: spare)) E
      { w₁ with memory := m } := by
  have hlength := hbecomes.holds.length_eq
  have hcapacityEq := hbecomes.holds.capacity_eq
  have hslots : (xs ++ x :: ys ++ spare).length = xs.length + (ys.length + 1) + spare.length := by
    simp only [length_append, length_cons]
  have hlast : buffer.length - 1 = (xs ++ ys).length := by
    rw [hlength, length_append, length_append, length_cons, ← Nat.add_assoc,
      Nat.add_sub_cancel]
  have hlastEq : (xs ++ ys).length = xs.length + ys.length := length_append
  have hpos : 0 < buffer.length := by
    rw [hlength, length_append]
    exact Nat.lt_of_lt_of_le (Nat.succ_pos _) (Nat.le_add_left ..)
  have hcapacity := hbecomes.holds.capacity_ne_zero hpos
  have hwithin : xs.length + ys.length ≤ (xs ++ x :: ys ++ spare).length := by omega
  have hshiftedLength := length_overwrite hwithin
  refine wp_bind (wp_demand (if_pos hpos) ?_)
  rw [hlast]
  refine wp_bind (wp_some (hbecomes.holds.checkedMul_eq hcapacity (by omega)) ?_)
  refine wp_bind (wp_ptrAdd hmoved.stores (by omega) ?_)
  refine wp_bind (wp_ptrWriteBytes hmoved.stores (by omega) fun m' hcleared => ?_)
  rw [hlastEq, overwrite_close] at hcleared
  refine wp_modify ⟨m', _, hcleared.elsewhere, rfl, hbecomes.rewrite hcapacity ⟨hcleared.stores,
    fun object hobject => ?_, fun base hbase hslot => ?_⟩ ?_⟩
  · obtain ⟨object', hobject', hlayout⟩ := hmoved.layout object hobject
    obtain ⟨object'', hobject'', hlayout'⟩ := hcleared.layout object' hobject'
    exact ⟨object'', hobject'', hlayout'.trans hlayout⟩
  · exact (hcleared.elsewhere base hbase).trans (hmoved.elsewhere base hbase hslot)
  · simp only [length_append, length_cons]
    omega

theorem exists_parts {α : Type*} {elements : List α} (h : index < elements.length) :
    ∃ xs x ys, elements = xs ++ x :: ys ∧ index = xs.length := by
  refine ⟨elements.take index, elements.get ⟨index, h⟩, elements.drop (index + 1), ?_, ?_⟩
  · rw [get_eq_getElem, ← drop_eq_getElem_cons, take_append_drop]
  · rw [length_take, Nat.min_eq_left (Nat.le_of_lt h)]

theorem bufferRemoveMoveInto_spec {output : Pointer} {y : Element}
    (hheader : w.header = some buffer) (hholds : Holds w.memory size align buffer elements spare)
    (houtput : ¬ output.isNull → w.Slot output size y) :
    wp (bufferRemoveMoveInto index output size align)
      (fun _ w' => ∃ x, elements[index]? = some x ∧ w'.memory.Stores output size [x] ∧
        ∃ buffer' spare', Becomes size align (some output.base) w w' buffer'
          (elements.eraseIdx index) spare')
      (Unchanged w) w := by
  unfold bufferRemoveMoveInto
  refine wp_bind (wp_requireInitialized fun _ => ?_)
  refine wp_bind (wp_header hheader ?_)
  refine wp_check (unchanged _ noConfusion) fun hnull => ?_
  refine wp_bind (wp_checked (validateElementLayout_checked ..) unchanged fun _ _ hlayout => ?_)
  refine wp_bind (wp_orFail (fun _ => unchanged _ noConfusion) fun a ha => ?_)
  obtain rfl := eq_of_tryFrom ha
  refine wp_check (unchanged _ noConfusion) fun _ => ?_
  refine wp_bind (wp_checked (validateBuffer_checked buffer) unchanged fun _ _ _ => ?_)
  refine wp_check (unchanged _ noConfusion) fun _ => ?_
  refine wp_check (unchanged _ noConfusion) fun hindex => ?_
  have hindex := Nat.lt_of_not_le hindex
  have hcapacity := hholds.capacity_ne_zero (Nat.zero_lt_of_lt hindex)
  have houtput := houtput hnull
  have hapart := houtput.apart buffer hheader hcapacity
  obtain ⟨xs, x, ys, rfl, rfl⟩ := exists_parts (hholds.length_eq ▸ hindex)
  have hlength := hholds.length_eq
  have hcapacityEq := hholds.capacity_eq
  have hstores := hholds.stores hcapacity
  have hslots : (xs ++ x :: ys ++ spare).length = xs.length + (ys.length + 1) + spare.length := by
    simp only [length_append, length_cons]
  have hcount : buffer.length - (xs.length + 1) = ys.length := by
    rw [hlength, length_append, length_cons]
    omega
  refine wp_bind (wp_some (hholds.checkedMul_eq hcapacity (by omega)) ?_)
  refine wp_bind (wp_ptrAdd hstores (by omega) ?_)
  have hx : (xs ++ x :: ys ++ spare)[xs.length]? = some x := by simp
  refine wp_bind (wp_ptrCopy_to hstores houtput.stores hx fun m₁ hcopied => ?_)
  have hstores₁ := hstores.congr (hcopied.elsewhere _ (Ne.symm hapart))
  refine wp_bind (wp_demand (if_pos hindex) ?_)
  rw [hcount]
  -- those after the element are moved down by one, if there are any
  refine wp_then (Q := fun _ w' => ∃ m, w' = { w with memory := m } ∧
    m₁.Rewritten m buffer.pointer size (overwrite (xs ++ x :: ys ++ spare) xs.length ys)) ?_ ?_
  · refine wp_onlyIf (fun _ => ?_) fun hzero => ?_
    · refine wp_bind (wp_some (hholds.checkedMul_eq hcapacity (by omega)) ?_)
      refine wp_bind (wp_some (hholds.checkedMul_next (by omega)) ?_)
      refine wp_bind (wp_ptrAdd hstores₁ (by omega) ?_)
      refine wp_ptrCopy hstores₁ hstores₁ (by omega) (by omega) fun m hrewritten => ?_
      rw [drop_take_gap] at hrewritten
      exact ⟨m, rfl, hrewritten⟩
    · have hnil : ys = [] := eq_nil_of_length_eq_zero (not_not.mp hzero)
      subst hnil
      rw [overwrite_nil]
      exact ⟨m₁, rfl, .refl hstores₁⟩
  rintro _ _ ⟨m₂, rfl, hshifted⟩
  have hmoved : Moved w.memory m₂ buffer.pointer (some output.base) size
      (overwrite (xs ++ x :: ys ++ spare) xs.length ys) := by
    refine ⟨hshifted.stores, ?_, fun base hbase hslot => ?_⟩
    · rw [← hcopied.elsewhere _ (Ne.symm hapart)]
      exact hshifted.layout
    · have hne : base ≠ output.base := fun h => hslot (congrArg some h.symm)
      exact (hshifted.elsewhere base hbase).trans (hcopied.elsewhere base hne)
  refine wp_mono (wp_giveUpLast (.refl hheader hholds) hmoved) ?_ fun _ _ h => h
  rintro _ _ ⟨m₃, buffer', hm₃, rfl, hbecomes⟩
  refine ⟨x, by simp, ?_, buffer', replicate size 0 :: spare, ?_⟩
  · have hoff := (hm₃ _ hapart).trans (hshifted.elsewhere _ hapart)
    exact hcopied.stores.congr hoff
  · rw [eraseIdx_append_of_length_le (Nat.le_refl _), Nat.sub_self]
    exact hbecomes

theorem bufferPopMoveInto_spec {output : Pointer} {y : Element} (hheader : w.header = some buffer)
    (hholds : Holds w.memory size align buffer elements spare)
    (houtput : ¬ output.isNull → w.Slot output size y) :
    wp (bufferPopMoveInto output size align)
      (fun _ w' => ∃ x, elements.getLast? = some x ∧ w'.memory.Stores output size [x] ∧
        ∃ buffer' spare', Becomes size align (some output.base) w w' buffer'
          elements.dropLast spare')
      (Unchanged w) w := by
  unfold bufferPopMoveInto
  refine wp_bind (wp_requireInitialized fun _ => ?_)
  refine wp_bind (wp_header hheader ?_)
  refine wp_check (unchanged _ noConfusion) fun hlength => ?_
  refine wp_bind (wp_demand (if_pos (Nat.pos_of_ne_zero hlength)) ?_)
  rw [hholds.length_eq]
  refine wp_mono (bufferRemoveMoveInto_spec hheader hholds houtput) ?_ fun _ _ h => h
  intro _ w' ⟨x, hx, hmoved, hrest⟩
  rw [eraseIdx_length_sub_one] at hrest
  exact ⟨x, getLast?_eq_getElem?.trans hx, hmoved, hrest⟩

theorem bufferRemoveDrop_spec (hheader : w.header = some buffer)
    (hholds : Holds w.memory size align buffer elements spare) :
    wp (bufferRemoveDrop index size align)
      (fun _ w' => index < elements.length ∧ ∃ buffer' spare',
        Becomes size align none w w' buffer' (elements.eraseIdx index) spare')
      (Unchanged w) w := by
  unfold bufferRemoveDrop
  refine wp_bind (wp_requireInitialized fun _ => ?_)
  refine wp_bind (wp_header hheader ?_)
  refine wp_bind (wp_checked (validateElementLayout_checked ..) unchanged fun _ _ _ => ?_)
  refine wp_bind (wp_checked (validateBuffer_checked buffer) unchanged fun _ _ _ => ?_)
  refine wp_check (unchanged _ noConfusion) fun hindex => ?_
  have hindex := Nat.lt_of_not_le hindex
  have hcapacity := hholds.capacity_ne_zero (Nat.zero_lt_of_lt hindex)
  obtain ⟨xs, x, ys, rfl, rfl⟩ := exists_parts (hholds.length_eq ▸ hindex)
  have hlength := hholds.length_eq
  have hcapacityEq := hholds.capacity_eq
  have hstores := hholds.stores hcapacity
  have hslots : (xs ++ x :: ys ++ spare).length = xs.length + (ys.length + 1) + spare.length := by
    simp only [length_append, length_cons]
  have hcount : buffer.length - (xs.length + 1) = ys.length := by
    rw [hlength, length_append, length_cons]
    omega
  refine wp_bind (wp_demand (if_pos hindex) ?_)
  rw [hcount]
  -- those after the element are moved down by one, if there are any
  refine wp_then (Q := fun _ w' => ∃ m, w' = { w with memory := m } ∧
    w.memory.Rewritten m buffer.pointer size (overwrite (xs ++ x :: ys ++ spare) xs.length ys)) ?_
      ?_
  · refine wp_onlyIf (fun _ => ?_) fun hzero => ?_
    · refine wp_bind (wp_some (hholds.checkedMul_eq hcapacity (by omega)) ?_)
      refine wp_bind (wp_some (hholds.checkedMul_next (by omega)) ?_)
      refine wp_bind (wp_some (hholds.checkedMul_eq hcapacity (by omega)) ?_)
      refine wp_bind (wp_ptrAdd hstores (by omega) ?_)
      refine wp_bind (wp_ptrAdd hstores (by omega) ?_)
      refine wp_ptrCopy hstores hstores (by omega) (by omega) fun m hrewritten => ?_
      rw [drop_take_gap] at hrewritten
      exact ⟨m, rfl, hrewritten⟩
    · have hnil : ys = [] := eq_nil_of_length_eq_zero (not_not.mp hzero)
      subst hnil
      rw [overwrite_nil]
      exact ⟨w.memory, rfl, .refl hstores⟩
  rintro _ _ ⟨m, rfl, hshifted⟩
  have hmoved : Moved w.memory m buffer.pointer none size
      (overwrite (xs ++ x :: ys ++ spare) xs.length ys) :=
    ⟨hshifted.stores, hshifted.layout, fun base hbase _ => hshifted.elsewhere base hbase⟩
  refine wp_mono (wp_giveUpLast (.refl hheader hholds) hmoved) ?_ fun _ _ h => h
  rintro _ _ ⟨m', buffer', -, rfl, hbecomes⟩
  rw [eraseIdx_append_of_length_le (Nat.le_refl _), Nat.sub_self]
  exact ⟨hlength ▸ hindex, buffer', _, hbecomes⟩

/-! ## Headers as elements -/

theorem bytesOfValue_valueOfBytes (bytes : List Byte) :
    bytesOfValue bytes.length (valueOfBytes bytes) = bytes := by
  induction bytes with
  | nil => rfl
  | cons byte bytes ih =>
    have hbyte : UInt8.ofNat (byte.toNat + 256 * valueOfBytes bytes) = byte := by
      apply UInt8.toNat_inj.mp
      rw [UInt8.toNat_ofNat', Nat.add_mul_mod_self_left]
      exact Nat.mod_eq_of_lt byte.toNat_lt
    have hrest : (byte.toNat + 256 * valueOfBytes bytes) / 256 = valueOfBytes bytes := by
      have hlt := byte.toNat_lt
      omega
    show UInt8.ofNat (byte.toNat + 256 * valueOfBytes bytes) ::
      bytesOfValue bytes.length ((byte.toNat + 256 * valueOfBytes bytes) / 256) = _
    rw [hbyte, hrest, ih]

theorem length_bytesOfValue (count value : ℕ) : (bytesOfValue count value).length = count := by
  induction count generalizing value with
  | zero => rfl
  | succ count ih => exact congrArg (· + 1) (ih (value / 256))

theorem Buffer.length_toBytes (buffer : Buffer) : buffer.toBytes.length = bufferSize := by
  unfold toBytes bufferSize
  rw [length_append, length_append, length_bytesOfValue, length_bytesOfValue,
    length_bytesOfValue]

/-- Reading a header and writing it back moves its bytes. -/
theorem Buffer.toBytes_ofBytes {bytes : List Byte} (h : bytes.length = bufferSize) :
    (ofBytes bytes).toBytes = bytes := by
  have hpart : ∀ i, i + 8 ≤ 24 →
      bytesOfValue 8 (valueOfBytes ((bytes.drop i).take 8)) = (bytes.drop i).take 8 := by
    intro i hi
    have hlength : ((bytes.drop i).take 8).length = 8 := by
      rw [length_take, length_drop, h]
      unfold bufferSize
      omega
    calc bytesOfValue 8 (valueOfBytes ((bytes.drop i).take 8))
        = bytesOfValue ((bytes.drop i).take 8).length (valueOfBytes ((bytes.drop i).take 8)) := by
          rw [hlength]
      _ = (bytes.drop i).take 8 := bytesOfValue_valueOfBytes _
  have hlast : (bytes.drop 16).take 8 = bytes.drop 16 := by
    refine take_of_length_le ?_
    rw [length_drop, h]
    exact Nat.le_refl 8
  calc (ofBytes bytes).toBytes
      = (bytes.drop 0).take 8 ++ (bytes.drop 8).take 8 ++ (bytes.drop 16).take 8 := by
        rw [← hpart 0 (by decide), ← hpart 8 (by decide), ← hpart 16 (by decide)]
        rfl
    _ = bytes := by
        rw [hlast, drop_zero, append_assoc, ← drop_drop (i := 8) (j := 8),
          take_append_drop, take_append_drop]

variable {nestedElementSize nestedAlignment : ℕ}

theorem nestedHeader_spec {elementSize alignment : ℕ} (hheader : w.header = some buffer) :
    wp (nestedHeader elementSize alignment nestedElementSize nestedAlignment)
      (fun buffer' w' => buffer' = buffer ∧ w' = w ∧ elementSize = bufferSize) (Unchanged w) w := by
  unfold nestedHeader
  refine wp_bind (wp_requireInitialized fun _ => ?_)
  refine wp_bind (wp_header hheader ?_)
  refine wp_check (unchanged _ noConfusion) fun hsize => ?_
  refine wp_check (unchanged _ noConfusion) fun _ => ?_
  refine wp_bind (wp_checked (validateElementLayout_checked ..) unchanged fun _ _ _ => ?_)
  refine wp_bind (wp_checked (validateBuffer_checked buffer) unchanged fun _ _ _ => ?_)
  exact wp_pure ⟨rfl, rfl, not_not.mp hsize⟩

variable {E : BufferStatus → World → Prop} {slots : List Element} {i : ℕ}

theorem wp_readHeader {Q : List Byte → World → Prop}
    (hstores : w.memory.Stores p bufferSize slots) (hi : slots[i]? = some x) (h : Q x w) :
    wp (ptrRead (p.plus (i * bufferSize)) bufferSize) Q E w := by
  obtain ⟨hlt, hget⟩ := List.getElem?_eq_some_iff.mp hi
  have hx : ((slots.drop i).take 1).flatten = x := by
    rw [drop_eq_getElem_cons hlt, hget]
    exact flatten_singleton
  have hread := wp_ptrRead (Q := Q) (E := E) (k := 1) hstores hlt (hx.symm ▸ h)
  rw [Nat.one_mul] at hread
  exact hread

theorem wp_writeHeader {Q : Unit → World → Prop} (hstores : w.memory.Stores p bufferSize slots)
    (hi : i < slots.length)
    (h : ∀ m', w.memory.Rewritten m' p bufferSize (overwrite slots i [buffer.toBytes]) →
      Q () { w with memory := m' }) :
    wp (ptrWrite (p.plus (i * bufferSize)) buffer.toBytes) Q E w := by
  have hwrite := wp_ptrWrite (Q := Q) (E := E) hstores
    (uniform_singleton buffer.length_toBytes) hi h
  rw [flatten_singleton] at hwrite
  exact hwrite

theorem bufferPop_spec (hheader : w.header = some buffer)
    (hholds : Holds w.memory size align buffer elements spare) :
    wp (bufferPop size align nestedElementSize nestedAlignment)
      (fun value w' => ∃ x, elements.getLast? = some x ∧ value = ofBytes x ∧
        ∃ buffer' spare', Becomes size align none w w' buffer' elements.dropLast spare')
      (Unchanged w) w := by
  unfold bufferPop
  refine wp_then (nestedHeader_spec hheader) ?_
  rintro buffer _ ⟨rfl, rfl, rfl⟩
  refine wp_check (unchanged _ noConfusion) fun hzero => ?_
  have hpos := Nat.pos_of_ne_zero hzero
  have hcapacity := hholds.capacity_ne_zero hpos
  have hstores := hholds.stores hcapacity
  have hlength := hholds.length_eq
  obtain ⟨xs, x, rfl⟩ : ∃ xs x, elements = xs ++ [x] := by
    have hne : elements ≠ [] := ne_nil_of_length_pos (hlength ▸ hpos)
    exact ⟨_, _, (dropLast_concat_getLast hne).symm⟩
  have hlast : buffer.length - 1 = xs.length := by
    rw [hlength, length_append]
    rfl
  have hslots : (xs ++ [x] ++ spare).length = xs.length + 1 + spare.length := by
    rw [length_append, length_append]
    rfl
  have hx : (xs ++ [x] ++ spare)[xs.length]? = some x := by simp
  refine wp_bind (wp_demand (if_pos hpos) ?_)
  rw [hlast]
  refine wp_bind (wp_ptrAdd hstores (by omega) ?_)
  refine wp_bind (wp_readHeader hstores hx ?_)
  refine wp_bind (wp_writeHeader hstores (by omega) fun m hwritten => ?_)
  rw [append_assoc, singleton_append, overwrite_one] at hwritten
  refine wp_bind (wp_modify (wp_pure ⟨x, by simp, rfl, { buffer with length := xs.length },
    empty.toBytes :: spare, ?_⟩))
  rw [dropLast_concat]
  refine (Becomes.refl hheader hholds).rewrite hcapacity ⟨hwritten.stores, hwritten.layout,
    fun base hbase _ => hwritten.elsewhere base hbase⟩ ?_
  simp only [length_append, length_cons, length_nil]
  omega

/-- The loop of `buffer_remove_move` closes the gap; what stays in the last slot is the
removed header if there was nothing to move, and the empty one otherwise. -/
theorem forEach_moveDescriptor_spec {xs ys zs : List Element}
    (hstores : w.memory.Stores p bufferSize (xs ++ x :: ys ++ zs)) :
    wp (forEach (moveDescriptor p) (range' xs.length ys.length))
      (fun _ w' => ∃ m z, w' = { w with memory := m } ∧
        w.memory.Rewritten m p bufferSize (xs ++ ys ++ z :: zs)) E w := by
  refine wp_mono (wp_forEach (I := fun i w' => ∃ m z, w' = { w with memory := m } ∧
    w.memory.Rewritten m p bufferSize (xs ++ ys.take i ++ z :: (ys.drop i ++ zs))) ?_ ?_) ?_
    fun _ _ h => h
  · rintro i j _ hj ⟨m, z, rfl, hrewritten⟩
    obtain ⟨hi, rfl⟩ := List.getElem?_eq_some_iff.mp hj
    rw [length_range'] at hi
    rw [getElem_range', Nat.one_mul]
    obtain ⟨y, rest, hrest⟩ : ∃ y rest, ys.drop i = y :: rest :=
      ⟨_, _, drop_eq_getElem_cons hi⟩
    have htake : ys.take (i + 1) = ys.take i ++ [y] := by
      rw [take_add, hrest]
      rfl
    have hdrop : ys.drop (i + 1) = rest := by
      rw [← drop_drop, hrest]
      rfl
    have hcurrent : (xs ++ ys.take i).length = xs.length + i := by
      rw [length_append, length_take, Nat.min_eq_left (Nat.le_of_lt hi)]
    have hslots := hrewritten.stores
    rw [hrest] at hrewritten hslots
    have hlength : (xs ++ ys.take i ++ z :: (y :: rest ++ zs)).length =
        xs.length + i + (rest.length + zs.length + 2) := by
      rw [length_append, hcurrent]
      simp only [length_cons, length_append]
      omega
    have hnext : (xs ++ ys.take i ++ z :: (y :: rest ++ zs))[xs.length + i + 1]? = some y := by
      rw [← hcurrent, getElem?_append_right (Nat.le_succ _)]
      simp
    have hy : y.length = bufferSize := hslots.uniform y (mem_of_getElem? hnext)
    refine wp_bind (wp_ptrAdd hslots (by omega) ?_)
    refine wp_bind (wp_ptrAdd hslots (by omega) ?_)
    refine wp_bind (wp_readHeader hslots hnext ?_)
    refine wp_bind (wp_writeHeader hslots (by omega) fun m₁ hmoved => ?_)
    -- the next header is copied down, and its old place emptied
    have hover : overwrite (xs ++ ys.take i ++ z :: (y :: rest ++ zs)) (xs.length + i)
        [(ofBytes y).toBytes] = xs ++ ys.take i ++ [y] ++ y :: (rest ++ zs) := by
      rw [Buffer.toBytes_ofBytes hy, ← hcurrent, overwrite_one, append_cons _ y]
      rfl
    rw [hover] at hmoved
    refine wp_writeHeader hmoved.stores ?_ fun m₂ hemptied => ?_
    · simp only [length_append, length_cons] at hlength ⊢
      omega
    have hover' : overwrite (xs ++ ys.take i ++ [y] ++ y :: (rest ++ zs)) (xs.length + i + 1)
        [empty.toBytes] =
          xs ++ ys.take (i + 1) ++ empty.toBytes :: (ys.drop (i + 1) ++ zs) := by
      have hnextLength : xs.length + i + 1 = (xs ++ ys.take i ++ [y]).length := by
        rw [length_append, hcurrent]
        rfl
      rw [hnextLength, overwrite_one, htake, hdrop, append_assoc xs]
    rw [hover'] at hemptied
    exact ⟨m₂, _, rfl, (hrewritten.trans hmoved).trans hemptied⟩
  · refine ⟨w.memory, x, rfl, .refl ?_⟩
    rw [take_zero, append_nil, drop_zero]
    rw [append_assoc] at hstores
    exact hstores
  · rintro _ _ ⟨m, z, rfl, hrewritten⟩
    rw [length_range', take_length, drop_length] at hrewritten
    exact ⟨m, z, rfl, hrewritten⟩

theorem bufferRemoveMove_spec (hheader : w.header = some buffer)
    (hholds : Holds w.memory size align buffer elements spare) :
    wp (bufferRemoveMove index size align nestedElementSize nestedAlignment)
      (fun value w' => ∃ x, elements[index]? = some x ∧ value = ofBytes x ∧
        ∃ buffer' spare', Becomes size align none w w' buffer' (elements.eraseIdx index) spare')
      (Unchanged w) w := by
  unfold bufferRemoveMove
  refine wp_then (nestedHeader_spec hheader) ?_
  rintro buffer _ ⟨rfl, rfl, rfl⟩
  refine wp_check (unchanged _ noConfusion) fun hindex => ?_
  have hindex := Nat.lt_of_not_le hindex
  have hcapacity := hholds.capacity_ne_zero (Nat.zero_lt_of_lt hindex)
  obtain ⟨xs, x, ys, rfl, rfl⟩ := exists_parts (hholds.length_eq ▸ hindex)
  have hstores := hholds.stores hcapacity
  have hlast : buffer.length - 1 = (xs ++ ys).length := by
    rw [hholds.length_eq, length_append, length_append, length_cons,
      ← Nat.add_assoc, Nat.add_sub_cancel]
  have hcount : (xs ++ ys).length - xs.length = ys.length := by
    rw [length_append, Nat.add_sub_cancel_left]
  have hlt : xs.length < (xs ++ x :: ys ++ spare).length := by
    rw [append_assoc, length_append]
    exact Nat.lt_add_of_pos_right (Nat.succ_pos _)
  have hx : (xs ++ x :: ys ++ spare)[xs.length]? = some x := by simp
  refine wp_bind (wp_ptrAdd hstores (Nat.le_of_lt hlt) ?_)
  refine wp_bind (wp_readHeader hstores hx ?_)
  refine wp_bind (wp_demand (if_pos (Nat.zero_lt_of_lt hindex)) ?_)
  rw [hlast, hcount]
  refine wp_then (forEach_moveDescriptor_spec hstores) ?_
  rintro _ _ ⟨m, z, rfl, hclosed⟩
  refine wp_bind (wp_modify (wp_pure ⟨x, by simp, rfl,
    { buffer with length := (xs ++ ys).length }, z :: spare, ?_⟩))
  rw [eraseIdx_append_of_length_le (Nat.le_refl _), Nat.sub_self]
  refine (Becomes.refl hheader hholds).rewrite hcapacity ⟨hclosed.stores, hclosed.layout,
    fun base hbase _ => hclosed.elsewhere base hbase⟩ ?_
  simp only [length_append, length_cons]
  omega

/-! ## Views -/

/-- The view is of these elements, in memory one after the other. -/
structure Views (m : Memory) (size align : ℕ) (slice : Slice) (elements : List Element) : Prop where
  length_eq : slice.length = elements.length
  null : elements = [] → slice = .empty
  stores : elements ≠ [] → m.Stores slice.pointer size elements ∧ align ∣ slice.pointer.addr

theorem Memory.Stores.part {m : Memory} {k : ℕ} (h : m.Stores p size slots)
    (hi : i ≤ slots.length) : m.Stores (p.plus (i * size)) size ((slots.drop i).take k) := by
  obtain ⟨huniform, object, before, after, hobject, hbytes, hbefore⟩ := h
  refine ⟨huniform.subset fun x hx => mem_of_mem_drop (mem_of_mem_take hx), object,
    before ++ (slots.take i).flatten, ((slots.drop i).drop k).flatten ++ after, hobject, ?_, ?_⟩
  · have hslots : slots = slots.take i ++ ((slots.drop i).take k ++ (slots.drop i).drop k) := by
      rw [take_append_drop, take_append_drop]
    calc object.bytes
        = before ++ slots.flatten ++ after := hbytes
      _ = before ++ (slots.take i ++ ((slots.drop i).take k ++ (slots.drop i).drop k)).flatten ++
            after := by rw [← hslots]
      _ = _ := by simp only [flatten_append, append_assoc]
  · rw [length_append, hbefore, (huniform.subset (take_subset ..)).length_flatten,
      length_take, Nat.min_eq_left hi]
    rfl

variable {start count : ℕ}

theorem sliceOf_spec (hcapacity : buffer.capacity = slots.length)
    (hstores : buffer.capacity ≠ 0 → w.memory.Stores buffer.pointer size slots) :
    wp (sliceOf buffer size align start count)
      (fun slice w' => w' = w ∧ start + count ≤ buffer.length ∧
        Views w.memory size align slice (((slots.take buffer.length).drop start).take count))
      (Unchanged w) w := by
  unfold sliceOf
  refine wp_bind (wp_checked (validateBuffer_checked buffer) unchanged fun _ _ hvalid => ?_)
  refine wp_bind (wp_checked (validateElementLayout_checked ..) unchanged fun _ _ hlayout => ?_)
  refine wp_check (unchanged _ noConfusion) fun hbounds => ?_
  obtain ⟨hstart, hcount⟩ := not_or.mp hbounds
  have hle : start + count ≤ buffer.length := by omega
  have hlength : (((slots.take buffer.length).drop start).take count).length = count := by
    rw [length_take, length_drop, length_take]
    omega
  split
  next hzero =>
    subst hzero
    exact wp_pure ⟨rfl, hle, hlength.symm, fun _ => rfl, fun h => absurd take_zero h⟩
  next hpos =>
  have hne : buffer.capacity ≠ 0 := by omega
  refine wp_bind (wp_checked (bufferLayout_checked ..) unchanged fun _ _ _ => ?_)
  refine wp_bind (wp_orFail (fun _ => unchanged _ noConfusion) fun n hn => ?_)
  obtain rfl := eq_of_checkedMul hn
  refine wp_bind (wp_orFail (fun _ => unchanged _ noConfusion) fun n hn => ?_)
  obtain rfl := eq_of_tryFrom hn
  rw [Nat.mul_comm size start]
  refine wp_bind (wp_ptrAdd (hstores hne) (by omega) ?_)
  refine wp_check (unchanged _ noConfusion) fun hdvd => ?_
  refine wp_pure ⟨rfl, hle, hlength.symm, fun hnil => ?_, fun _ => ⟨?_, not_not.mp hdvd⟩⟩
  · rw [hnil] at hlength
    exact absurd hlength.symm hpos
  · have hpart : ((slots.take buffer.length).drop start).take count =
        (slots.drop start).take count := by
      rw [drop_take, take_take, Nat.min_eq_left (by omega)]
    rw [hpart]
    exact (hstores hne).part (by omega)

theorem bufferSlice_spec (hheader : w.header = some buffer)
    (hholds : Holds w.memory size align buffer elements spare) :
    wp (bufferSlice size align start count)
      (fun slice w' => w' = w ∧ start + count ≤ elements.length ∧
        Views w.memory size align slice ((elements.drop start).take count))
      (Unchanged w) w := by
  unfold bufferSlice
  refine wp_bind (wp_requireInitialized fun _ => ?_)
  refine wp_bind (wp_header hheader ?_)
  refine wp_mono (sliceOf_spec hholds.capacity_eq hholds.stores) ?_ fun _ _ h => h
  intro slice w' ⟨hsame, hle, hviews⟩
  rw [hholds.length_eq, take_left] at hviews
  exact ⟨hsame, hholds.length_eq ▸ hle, hviews⟩

/-- A view of a part of a view. -/
theorem sliceSubslice_spec {slice : Option Slice} (elements : List Element)
    (hviews : ∀ s, slice = some s → Views w.memory size align s elements) :
    wp (sliceSubslice slice size align start count)
      (fun slice' w' => w' = w ∧ start + count ≤ elements.length ∧
        Views w.memory size align slice' ((elements.drop start).take count))
      (Unchanged w) w := by
  unfold sliceSubslice
  refine wp_bind (wp_requireInitialized fun _ => ?_)
  refine wp_bind (wp_orFail (fun _ => unchanged _ noConfusion) fun s hs => ?_)
  have hview := hviews s hs
  refine wp_mono (sliceOf_spec hview.length_eq fun hne => ?_) ?_ fun _ _ h => h
  · exact (hview.stores (ne_nil_of_length_pos
      (hview.length_eq ▸ Nat.pos_of_ne_zero hne))).1
  · intro slice' w' ⟨hsame, hle, hviews'⟩
    change start + count ≤ s.length at hle
    change Views w.memory size align slice' (((elements.take s.length).drop start).take count)
      at hviews'
    rw [hview.length_eq, take_length] at hviews'
    exact ⟨hsame, hview.length_eq ▸ hle, hviews'⟩

end Jadren.Runtime

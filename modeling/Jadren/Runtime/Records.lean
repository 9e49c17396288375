import Jadren.Runtime.Nesting

/-!
# Records with headers

A record owns what its headers own.  Which headers it has depends on tags in the record;
in a well-formed one the headers do not overlap and no tag that decides lies in a header.
Emptying the headers then does not change which they are, and the destructors give back
what each of them owns.
-/

namespace Jadren.Runtime

open Program Chunks BufferStatus Resource Pointer Option

/-! ## Tags -/

section Tags

variable {α β : Type} {size : ℕ}

/-- The computation reads tags inside `size` bytes only, and has a result where they can be
read. -/
def TagReader.Local (size : ℕ) (x : TagReader α) : Prop :=
  ∀ tags tags', (∀ offset, offset + 4 ≤ size →
    ∃ value, tags offset = some value ∧ tags' offset = some value) →
    ∃ result, result ≠ .error .ok ∧ x tags = some (result, tags) ∧ x tags' = some (result, tags')

namespace TagReader

theorem local_pure (a : α) : Local size (pure a) := fun _ _ _ => ⟨.ok a, nofun, rfl, rfl⟩

variable {f : α → TagReader β}

theorem local_bind {x : TagReader α} (hx : Local size x) (hf : ∀ a, Local size (f a)) :
    Local size (x >>= f) := by
  intro tags tags' hsame
  obtain ⟨e | a, hne, hx₁, hx₂⟩ := hx tags tags' hsame
  · exact ⟨.error e, fun h => hne (congrArg _ (Except.error.inj h)), bind_of_error hx₁,
      bind_of_error hx₂⟩
  · rw [bind_of_ok hx₁, bind_of_ok hx₂]
    exact hf a tags tags' hsame

theorem local_readTag {offset : ℕ} (h : offset + 4 ≤ size) : Local size (readTag offset) := by
  intro tags tags' hsame
  obtain ⟨value, hvalue, hvalue'⟩ := hsame offset h
  refine ⟨.ok value, nofun, ?_, ?_⟩
  · show (tags offset).map _ = _
    rw [hvalue]
    rfl
  · show (tags' offset).map _ = _
    rw [hvalue']
    rfl

theorem local_failIf {c : Prop} [Decidable c] {e : BufferStatus} {f : Unit → TagReader β}
    (he : e ≠ .ok) (hf : ¬ c → Local size (f ())) : Local size (failIf c e >>= f) := by
  by_cases hc : c
  · unfold failIf
    rw [if_pos hc]
    exact fun _ _ _ => ⟨.error e, fun h => he (Except.error.inj h), rfl, rfl⟩
  · unfold failIf
    rw [if_neg hc]
    exact hf hc

theorem local_orFail {o : Option α} {e : BufferStatus} (he : e ≠ .ok)
    (hf : ∀ a, o = some a → Local size (f a)) : Local size (orFail o e >>= f) := by
  cases o with
  | none => exact fun _ _ _ => ⟨.error e, fun h => he (Except.error.inj h), rfl, rfl⟩
  | some a => exact hf a rfl

theorem local_ite {c : Prop} [Decidable c] {x y : TagReader α} (hx : c → Local size x)
    (hy : ¬ c → Local size y) : Local size (if c then x else y) := by
  split
  next hc => exact hx hc
  next hc => exact hy hc

end TagReader

open TagReader

variable {field : CarrierDropField}

theorem tagPathMatches_local {tagCount : ℕ} (hfits : field.payloadOffset + bufferSize ≤ size)
    (indices : List ℕ) : Local size (tagPathMatches field tagCount indices) := by
  induction indices with
  | nil => exact local_pure true
  | cons index indices ih =>
    have hread : field.payloadOffset - 8 * (tagCount - index) + 4 ≤ size := by
      unfold bufferSize at hfits
      omega
    apply local_bind (local_readTag hread)
    intro actual
    apply local_ite
    · exact fun _ => local_pure false
    · exact fun _ => ih

/-- The tags that decide about a field lie before it. -/
theorem recordFieldIsActive_local (hfits : field.payloadOffset + bufferSize ≤ size) :
    Local size (recordFieldIsActive field) := by
  unfold bufferSize at hfits
  -- a branch for each tagged form of a field; every one reads inside the record
  apply local_ite
  · exact fun _ => local_pure true
  intro _
  apply local_ite
  · intro _
    apply local_failIf noConfusion
    intro hzero
    apply local_orFail noConfusion
    intro distance hdistance
    apply local_failIf noConfusion
    intro hlt
    have hdistance := eq_of_checkedMul hdistance
    refine local_bind (local_readTag ?_) fun tag => local_pure _
    omega
  intro _
  apply local_ite
  · intro _
    apply local_failIf noConfusion
    exact fun _ => tagPathMatches_local hfits _
  intro _
  apply local_ite
  · intro _
    apply local_failIf noConfusion
    intro hlt
    refine local_bind (local_readTag (by omega)) fun outerTag => ?_
    apply local_ite
    · exact fun _ => local_pure false
    intro _
    apply local_ite
    · exact fun _ => local_pure true
    · exact fun _ => local_bind (local_readTag (by omega)) fun innerTag => local_pure _
  · intro _
    apply local_failIf noConfusion
    intro hlt
    exact local_bind (local_readTag (by omega)) fun tag => local_pure _

end Tags

/-- The tags in the bytes of a record. -/
def recordTags (bytes : List Byte) (offset : ℕ) : Option ℕ :=
  if offset + 4 ≤ bytes.length then some (valueOfBytes ((bytes.drop offset).take 4)) else none

theorem tagAt_eq {m : Memory} {record : Pointer} {bytes : List Byte} {size : ℕ}
    (hread : m.read record size = some bytes) (offset : ℕ) (hoffset : offset + 4 ≤ size) :
    ∃ value, recordTags bytes offset = some value ∧ m.tagAt record offset = some value := by
  refine ⟨valueOfBytes ((bytes.drop offset).take 4), ?_, ?_⟩
  · unfold recordTags
    rw [length_read hread]
    exact if_pos hoffset
  · unfold Memory.tagAt
    rw [read_part hread hoffset]
    rfl

/-! ## Fields -/

/-- The fields that the checks let through in a record of `elementSize` bytes. -/
structure FieldAccepted (elementSize : ℕ) (field : CarrierDropField) : Prop where
  depth_ne_zero : field.depth ≠ 0
  leaf : leafLayout field.leafElementSize field.leafAlignment = .ok ()
  fits : field.payloadOffset + bufferSize ≤ elementSize

theorem validateField_checked (elementSize : ℕ) (earlier : List CarrierDropField)
    (field : CarrierDropField) :
    Checked (validateField elementSize earlier field) (fun _ => FieldAccepted elementSize field)
      (· ≠ .ok) := by
  refine checked_unless noConfusion fun hdepth => ?_
  refine checked_bind (checked_mono (validateElementLayout_checked _ _).with_eq (fun _ h => h)
    fun _ h => h.2) fun layout hlayout => ?_
  refine checked_unless noConfusion fun _ => ?_
  refine checked_unless noConfusion fun _ => ?_
  refine checked_bind (P := fun n => n = field.payloadOffset + bufferSize) ?_ fun n hn => ?_
  · refine checked_elim noConfusion fun n hn => ?_
    exact (some.inj (Option.ite_none_right_eq_some.mp hn).2).symm
  refine checked_unless noConfusion fun hplace => ?_
  refine checked_unless noConfusion fun _ => ?_
  refine checked_ok ⟨hdepth, ?_, ?_⟩
  · unfold leafLayout
    rw [hlayout.1]
    rfl
  · omega

theorem validateFieldsAfter_checked (elementSize : ℕ) (earlier fields : List CarrierDropField) :
    Checked (validateFieldsAfter elementSize earlier fields)
      (fun _ => ∀ field ∈ fields, FieldAccepted elementSize field) (· ≠ .ok) := by
  induction fields generalizing earlier with
  | nil => exact checked_ok fun _ h => (List.not_mem_nil h).elim
  | cons field fields ih =>
    refine checked_bind (validateField_checked _ _ _) fun _ hfield => ?_
    refine checked_mono (ih _) (fun _ hfields g hg => ?_) fun _ h => h
    obtain rfl | hg := List.mem_cons.mp hg
    · exact hfield
    · exact hfields g hg

theorem recordLayout_checked (elementSize alignment : ℕ) (table : FieldTable) :
    Checked (recordLayout elementSize alignment table)
      (fun _ => ∃ fields, table = some fields ∧
        ∀ field ∈ fields, FieldAccepted elementSize field) (· ≠ .ok) := by
  refine checked_bind (validateElementLayout_checked _ _) fun _ _ => ?_
  cases table with
  | none => exact checked_error noConfusion
  | some fields =>
    refine checked_unless noConfusion fun _ => ?_
    exact checked_mono (validateFieldsAfter_checked _ _ _) (fun _ h => ⟨fields, rfl, h⟩) fun _ h =>
      h

/-- What lies at the offset of a field the record has. -/
def CarrierDropField.resource (field : CarrierDropField) : Resource :=
  if field.depth = recordFieldOwnedString then .string
  else (bufferOf field.leafAlignment (.scalar field.leafElementSize)).nested
    (field.depth - 1)

theorem CarrierDropField.size_resource (field : CarrierDropField) :
    field.resource.size = bufferSize := by
  unfold CarrierDropField.resource
  split
  · rfl
  · exact size_nested rfl _

/-- What is at the offset of a field: nothing if the record does not have it. -/
def CarrierDropField.site (active : CarrierDropField → Bool) (field : CarrierDropField) : Site :=
  ⟨field.payloadOffset, if active field = true then field.resource else .scalar 0⟩

/-- The record has the `active` fields: they do not overlap, and the tags say so whatever
stands in them. -/
structure Describes (fields : List CarrierDropField) (bytes : List Byte)
    (active : CarrierDropField → Bool) : Prop where
  fits : ∀ field ∈ fields, field.payloadOffset + bufferSize ≤ bytes.length
  apart : (fields.map (CarrierDropField.site active)).Pairwise Site.Apart
  tags : ∀ field ∈ fields, ∀ bytes' : List Byte, bytes'.length = bytes.length →
    (∀ i, (∀ f ∈ fields, ¬ (f.site active).Window i) → bytes'[i]? = bytes[i]?) →
    recordFieldIsActive field (recordTags bytes') = some (.ok (active field), recordTags bytes')

variable {fields : List CarrierDropField} {bytes bytes' : List Byte}
  {active : CarrierDropField → Bool}

theorem CarrierDropField.size_site_le (field : CarrierDropField)
    (active : CarrierDropField → Bool) :
    (field.site active).resource.size ≤ bufferSize := by
  show (if active field = true then field.resource else .scalar 0).size ≤ bufferSize
  split
  · exact field.size_resource.le
  · exact Nat.zero_le _

/-- Nor does it change anything about the fields what stands in them. -/
theorem Describes.congr (h : Describes fields bytes active) (hlength : bytes'.length = bytes.length)
    (hsame : ∀ i, (∀ f ∈ fields, ¬ (f.site active).Window i) → bytes'[i]? = bytes[i]?) :
    Describes fields bytes' active := by
  refine ⟨?_, h.apart, fun field hfield bytes'' hlength' hsame' => ?_⟩
  · rw [hlength]
    exact h.fits
  · exact h.tags field hfield bytes'' (hlength'.trans hlength) fun i hi =>
      (hsame' i hi).trans (hsame i hi)

/-- A record with headers.  It may also have been zeroed, by a call that failed later. -/
def Resource.record (size : ℕ) (fields : List CarrierDropField) : Resource where
  size := size
  Owns sound m p bs := ∃ bytes, m.read p size = some bytes ∧
    ((sound = false ∧ bytes = List.replicate size 0 ∧ bs = []) ∨
      ∃ active parts, Describes fields bytes active ∧
        Owners sound m p (fields.map (CarrierDropField.site active)) parts ∧ bs = parts.flatten)
  weaken h := by
    obtain ⟨bytes, hread, ⟨-, hzero, hbs⟩ | ⟨active, parts, hdescribes, howners, hbs⟩⟩ := h
    · exact ⟨bytes, hread, .inl ⟨rfl, hzero, hbs⟩⟩
    · exact ⟨bytes, hread, .inr ⟨active, parts, hdescribes, howners.weaken, hbs⟩⟩
  congr h hread hsame := by
    obtain ⟨bytes, hbytes, hzero | ⟨active, parts, hdescribes, howners, rfl⟩⟩ := h
    · exact ⟨bytes, hread.trans hbytes, .inl hzero⟩
    refine ⟨bytes, hread.trans hbytes, .inr ⟨active, parts, hdescribes, ?_, rfl⟩⟩
    refine howners.congr (fun site hsite => ?_) hsame
    obtain ⟨field, hfield, rfl⟩ := List.mem_map.mp hsite
    have hfits : field.payloadOffset + (field.site active).resource.size ≤ size := by
      have hfits := hdescribes.fits field hfield
      rw [length_read hbytes] at hfits
      exact le_trans (Nat.add_le_add_left (field.size_site_le active) _) hfits
    exact (read_part (hread.trans hbytes) hfits).trans (read_part hbytes hfits).symm

/-! ## Destroying records -/

/-- What destroys the header of a field. -/
def destroyPayload (field : CarrierDropField) (payload : Pointer) : Call Unit :=
  choose (field.depth = recordFieldOwnedString) (destroyString payload) <|
    destroyChain (leafLayout field.leafElementSize field.leafAlignment)
      (fun nested => bufferDestroy nested field.leafElementSize field.leafAlignment)
        field.depth payload

theorem exists_layout_of_leaf {leafElementSize leafAlignment : ℕ}
    (h : leafLayout leafElementSize leafAlignment = .ok ()) :
    ∃ layout, validateElementLayout leafElementSize leafAlignment = .ok layout := by
  unfold leafLayout at h
  cases hlayout : validateElementLayout leafElementSize leafAlignment with
  | error =>
    rw [hlayout] at h
    cases h
  | ok layout => exact ⟨layout, rfl⟩

variable {field : CarrierDropField}

theorem destroys_destroyPayload {elementSize : ℕ} (hfield : FieldAccepted elementSize field) :
    Destroys field.resource true (destroyPayload field) := by
  obtain ⟨layout, hlayout⟩ := exists_layout_of_leaf hfield.leaf
  unfold CarrierDropField.resource destroyPayload choose
  split
  next => exact destroys_destroyString
  next =>
    exact destroys_destroyChain hfield.leaf rfl (destroys_bufferDestroy hlayout)
      hfield.depth_ne_zero

variable {m m' : Memory} {p record : Pointer} {size : ℕ} {sound : Bool} {w w' : World}

/-- What can be read in a record after a change inside it. -/
theorem exists_read_of_changed {inside : ℕ → Prop} (hread : m.read p size = some bytes)
    (h : ChangedAt m m' p.base inside) : ∃ bytes', m'.read p size = some bytes' ∧
      bytes'.length = bytes.length ∧
      ∀ i, ¬ inside (p.offset + i) → bytes'[i]? = bytes[i]? := by
  obtain ⟨object, object', hobject, hobject', hlayout, hbytes⟩ := h.object
  obtain ⟨object₀, hobject₀, hle, rfl⟩ := read_eq_some.mp hread
  obtain rfl := some.inj (hobject.symm.trans hobject₀)
  have hlength := length_bytes_eq hlayout
  refine ⟨_, read_eq_some.mpr ⟨object', hobject', by omega, rfl⟩, ?_, fun i hi => ?_⟩
  · rw [List.length_take, List.length_take, List.length_drop, List.length_drop, hlength]
  · rw [List.getElem?_take, List.getElem?_take]
    split
    next =>
      rw [List.getElem?_drop, List.getElem?_drop]
      exact hbytes _ hi
    next => rfl

theorem covered_iff {sites : List Site} {i : ℕ} :
    Covered p sites (p.offset + i) ↔ ∃ site ∈ sites, site.Window i := by
  unfold Covered
  refine exists_congr fun site => and_congr_right fun _ => ?_
  simp only [Window, plus, Site.Window]
  omega

/-- The record after a change inside its headers. -/
theorem Describes.of_changed (h : Describes fields bytes active)
    (hread : m.read p size = some bytes)
    (hchanged : ChangedAt m m' p.base (Covered p (fields.map (CarrierDropField.site active)))) :
    ∃ bytes', m'.read p size = some bytes' ∧ Describes fields bytes' active := by
  obtain ⟨bytes', hread', hlength, hsame⟩ := exists_read_of_changed hread hchanged
  refine ⟨bytes', hread', h.congr hlength fun i hi => hsame i fun hcovered => ?_⟩
  obtain ⟨site, hsite, hwindow⟩ := covered_iff.mp hcovered
  obtain ⟨field, hfield, rfl⟩ := List.mem_map.mp hsite
  exact hi field hfield hwindow

theorem Describes.covered_le (h : Describes fields bytes active)
    (hread : m.read p size = some bytes) (i : ℕ)
    (hi : Covered p (fields.map (CarrierDropField.site active)) i) : p.Window size i := by
  obtain ⟨site, hsite, hwindow⟩ := hi
  obtain ⟨field, hfield, rfl⟩ := List.mem_map.mp hsite
  have hfits := h.fits field hfield
  have hsize := field.size_site_le active
  rw [length_read hread] at hfits
  simp only [Window, plus] at hwindow ⊢
  have hoffset : (field.site active).offset = field.payloadOffset := rfl
  omega

theorem wp_activeAt {Q : Bool → World → Prop} {E : BufferStatus → World → Prop}
    (hread : w.memory.read record size = some bytes)
    (hfits : field.payloadOffset + bufferSize ≤ size)
    (h : ∀ result, result ≠ .error .ok →
      recordFieldIsActive field (recordTags bytes) = some (result, recordTags bytes) →
      Checked result (fun value => Q value w) fun status => E status w) :
    wp (activeAt record field) Q E w := by
  obtain ⟨result, hne, hbytes, hmemory⟩ := recordFieldIsActive_local hfits _ _ (tagAt_eq hread)
  refine wp_bind (wp_get (wp_bind (wp_demand hmemory ?_)))
  have hresult := h result hne hbytes
  cases result with
  | error => exact hresult
  | ok => exact hresult

theorem add_eq_some {offset : ℕ} (hread : m.read p size = some bytes) (h : offset ≤ size) :
    m.add p offset = some (p.plus offset) := by
  obtain ⟨object, hobject, hle, -⟩ := read_eq_some.mp hread
  unfold Memory.add
  rw [hobject]
  exact if_pos (by omega)

/-- The body of the loop over the fields. -/
def destroyField (record : Pointer) (field : CarrierDropField) : Call Unit := do
  let active ← activeAt record field
  onlyIf (active = true) (destroyRecordField record field)

/-- One field of a record, which has it or not. -/
theorem destroysSite_destroyField (hfield : FieldAccepted size field) (hw : w.initialized = true)
    (hp : record.base ≠ 0) (hread : w.memory.read record size = some bytes)
    (hdescribes : Describes fields bytes active) (hmem : field ∈ fields) :
    DestroysSite sound (destroyField record field) (field.site active) record w := by
  obtain ⟨object, hobject, -⟩ := read_eq_some.mp hread
  intro part hpart hnodup hbase
  refine wp_bind (wp_activeAt hread hfield.fits fun result _ hresult => ?_)
  have htags := hdescribes.tags field hmem bytes rfl fun _ _ => rfl
  obtain rfl : result = .ok (active field) :=
    congrArg Prod.fst (some.inj (hresult.symm.trans htags))
  refine checked_ok (wp_onlyIf (fun hactive => ?_) fun hactive => ?_)
  · have hsite : field.site active = ⟨field.payloadOffset, field.resource⟩ := by
      unfold CarrierDropField.site
      rw [if_pos hactive]
    rw [hsite] at hpart ⊢
    have hfits := hfield.fits
    refine wp_bind (wp_bind (wp_get (wp_demand (add_eq_some hread (by omega)) ?_)))
    exact (destroys_destroyPayload hfield).weaken hw hpart hnodup hbase hp
  · have hsite : field.site active = ⟨field.payloadOffset, .scalar 0⟩ := by
      unfold CarrierDropField.site
      rw [if_neg hactive]
    rw [hsite] at hpart ⊢
    obtain rfl := hpart
    exact ⟨rfl, .refl hobject⟩

theorem Buffer.toBytes_empty : Buffer.empty.toBytes = List.replicate bufferSize 0 := by decide

theorem bytes_eq_of_owns_nil {align : ℕ} {R : Resource}
    (h : (bufferOf align R).Owns true m p []) :
    m.read p bufferSize = some Buffer.empty.toBytes := by
  obtain ⟨base, parts, ⟨bytes, hread, hheader⟩, howned⟩ := h
  generalize hbuffer : Buffer.ofBytes bytes = buffer at hheader
  cases hheader with
  | invalid hsound => cases hsound
  | empty hempty =>
    subst hempty
    rw [hread, ← Buffer.toBytes_ofBytes (length_read hread), hbuffer]
  | block => cases howned

theorem CarrierDropField.bytes_eq_of_owns_nil (h : field.resource.Owns true m p []) :
    m.read p bufferSize = some Buffer.empty.toBytes := by
  unfold CarrierDropField.resource at h
  split at h
  next => exact Runtime.bytes_eq_of_owns_nil h
  next =>
    cases hdepth : field.depth - 1 with
    | zero | succ =>
      rw [hdepth] at h
      exact Runtime.bytes_eq_of_owns_nil h

theorem CarrierDropField.owns_nil (h : m.read p bufferSize = some Buffer.empty.toBytes) :
    field.resource.Owns true m p [] := by
  unfold CarrierDropField.resource
  split
  next => exact bufferOf_owns_nil h
  next =>
    cases hdepth : field.depth - 1 with
    | zero => exact bufferOf_owns_nil h
    | succ => exact bufferOf_owns_nil h

/-- In a zeroed record the headers are empty, and stay so. -/
theorem destroyField_zeroed (hfield : FieldAccepted size field) (hw : w.initialized = true)
    (hp : record.base ≠ 0) (hread : w.memory.read record size = some (List.replicate size 0)) :
    wp (destroyField record field)
      (fun _ w' => w'.memory.read record size = some (List.replicate size 0) ∧
        Released w w' record.base (record.Window size) [] [])
      (fun status w' => status ≠ .ok ∧ w' = w) w := by
  obtain ⟨object, hobject, -⟩ := read_eq_some.mp hread
  have hfits := hfield.fits
  refine wp_bind (wp_activeAt hread hfits fun result hne _ => ?_)
  obtain status | value := result
  · exact checked_error ⟨fun h => hne (congrArg _ h), rfl⟩
  refine checked_ok (wp_onlyIf (fun _ => ?_) fun _ => ⟨hread, .refl hobject⟩)
  refine wp_bind (wp_bind (wp_get (wp_demand (add_eq_some hread (by omega)) ?_)))
  -- in a zeroed record the header is the empty buffer, which owns nothing
  have hheader : w.memory.read (record.plus field.payloadOffset) bufferSize =
      some Buffer.empty.toBytes := by
    rw [read_part hread hfits, List.drop_replicate, List.take_replicate, Buffer.toBytes_empty]
    congr 2
    omega
  refine wp_mono (destroys_destroyPayload hfield hw (field.owns_nil hheader) List.nodup_nil
    List.not_mem_nil hp) (fun _ w' h => ?_) fun _ _ h => nomatch h.1.not_sound
  obtain ⟨howns, hreleased⟩ := h
  have hheader' := field.bytes_eq_of_owns_nil howns
  rw [field.size_resource] at hreleased
  obtain ⟨bytes', hread', hlength, hsame⟩ := exists_read_of_changed hread hreleased.changed
  refine ⟨?_, hreleased.mono fun i hi => ?_⟩
  · -- outside the header nothing changed, so those bytes are still zero
    rw [hread']
    refine congrArg some (List.eq_replicate_iff.mpr ⟨length_read hread', fun byte hbyte => ?_⟩)
    obtain ⟨i, hi⟩ := List.getElem?_of_mem hbyte
    by_cases hwindow : (record.plus field.payloadOffset).Window bufferSize (record.offset + i)
    · -- a byte of the header
      rw [read_part hread' hfits, Buffer.toBytes_empty] at hheader'
      simp only [Window, plus] at hwindow
      have hinside : ((bytes'.drop field.payloadOffset).take bufferSize)[i - field.payloadOffset]? =
          some byte := by
        rw [List.getElem?_take_of_lt (by omega), List.getElem?_drop, Nat.add_sub_cancel' (by omega)]
        exact hi
      rw [some.inj hheader'] at hinside
      exact List.eq_of_mem_replicate (List.mem_of_getElem? hinside)
    · rw [hsame i hwindow] at hi
      exact List.eq_of_mem_replicate (List.mem_of_getElem? hi)
  · simp only [Window, plus] at hi ⊢
    omega

theorem destroys_destroyFields (hfields : ∀ field ∈ fields, FieldAccepted size field) :
    Destroys (.record size fields) false fun record => destroyFields record (some fields) := by
  intro sound w record bs hw howns hnodup hbase hp
  obtain ⟨bytes, hread, ⟨hsound, rfl, rfl⟩ | ⟨active, parts, hdescribes, howners, rfl⟩⟩ := howns
  · -- the invariant: the record is still zero
    have hloop : wp (forEach (destroyField record) fields)
        (fun _ w' => w'.memory.read record size = some (List.replicate size 0) ∧
          Released w w' record.base (record.Window size) [] [])
        (fun status w' => status ≠ .ok ∧
          w'.memory.read record size = some (List.replicate size 0) ∧
          Released w w' record.base (record.Window size) [] []) w := by
      refine wp_forEach (I := fun _ w' =>
        w'.memory.read record size = some (List.replicate size 0) ∧
        Released w w' record.base (record.Window size) [] []) ?_ ?_
      · intro i field w' hfield h
        obtain ⟨hread', hreleased⟩ := h
        refine wp_mono (destroyField_zeroed (hfields field (List.mem_of_getElem? hfield))
          (hreleased.initialized.trans hw) hp hread') (fun _ w'' h => ?_) fun status w'' h => ?_
        · exact ⟨h.1, hreleased.trans h.2 List.not_mem_nil⟩
        · obtain ⟨hstatus, rfl⟩ := h
          exact ⟨hstatus, hread', hreleased⟩
      · obtain ⟨object, hobject, -⟩ := read_eq_some.mp hread
        exact ⟨hread, .refl hobject⟩
    refine wp_mono hloop (fun _ w' h => ?_) fun status w' h => ?_
    · exact ⟨⟨_, h.1, .inl ⟨rfl, rfl, rfl⟩⟩, h.2⟩
    · exact ⟨⟨h.1, hsound⟩, [], ⟨_, h.2.1, .inl ⟨rfl, rfl, rfl⟩⟩, h.2.2⟩
  · obtain ⟨object, hobject, -⟩ := read_eq_some.mp hread
    have hloop := wp_forEach_sites (CarrierDropField.site active) (destroyField record) hobject
      howners hnodup hbase hdescribes.apart fun field hfield w' hchanged hsame => by
        obtain ⟨bytes', hread', hdescribes'⟩ := hdescribes.of_changed hread hchanged
        exact destroysSite_destroyField (hfields field hfield) (hsame.trans hw) hp hread'
          hdescribes' hfield
    -- the tags are as before, so that the record still has the same headers
    have hafter : ∀ {w' : World} {parts' : List (List ℕ)} {bs'},
        Owners false w'.memory record (fields.map (CarrierDropField.site active)) parts' →
        Released w w' record.base (Covered record (fields.map (CarrierDropField.site active)))
          parts.flatten bs' →
        (Resource.record size fields).Owns false w'.memory record parts'.flatten := by
      intro w' parts' bs' howners' hreleased
      obtain ⟨bytes', hread', hdescribes'⟩ := hdescribes.of_changed hread hreleased.changed
      exact ⟨bytes', hread', .inr ⟨active, parts', hdescribes', howners', rfl⟩⟩
    refine wp_mono hloop (fun _ w' h => ?_) fun status w' h => ?_
    · obtain ⟨howners', hreleased⟩ := h
      have howns := hafter howners' hreleased
      rw [List.map_const', List.flatten_replicate_nil] at howns
      exact ⟨howns, hreleased.mono (hdescribes.covered_le hread)⟩
    · obtain ⟨hstopped, parts', howners', hreleased⟩ := h
      exact ⟨hstopped, _, hafter howners' hreleased,
        hreleased.mono (hdescribes.covered_le hread)⟩

theorem destroys_carrierDestroyRecordFields
    (hlayout : recordLayout size bufferAlign (some fields) = .ok ()) :
    Destroys (.record size fields) false
      fun record => carrierDestroyRecordFields record size (some fields) := by
  obtain ⟨_, hsome, hfields⟩ := (recordLayout_checked _ _ _).of_eq_ok hlayout
  obtain rfl := some.inj hsome
  intro sound w record bs hw howns hnodup hbase hp
  refine wp_begin hw hp (wp_bind (wp_ofExcept_ok hlayout ?_))
  refine wp_bind (wp_mono (destroys_destroyFields hfields hw howns hnodup hbase hp)
    (fun _ w₁ h => ?_) fun _ _ h => h)
  obtain ⟨⟨bytes, hread, -⟩, hreleased⟩ := h
  obtain ⟨m', hwrite, hread', hchanged, helse⟩ :=
    exists_write hread (List.length_replicate (n := size) (a := (0 : Byte)))
  refine wp_bind (wp_get (wp_bind (wp_demand hwrite (wp_modify ?_))))
  refine ⟨⟨_, hread', .inl ⟨rfl, rfl, rfl⟩⟩,
    hreleased.trans ⟨rfl, rfl, hchanged, .refl _, ?_, ?_⟩ hbase⟩
  · exact fun b hb => (List.not_mem_nil hb).elim
  · exact fun b hb _ => helse b hb

theorem destroys_bufferDestroyRecordFields {align : ℕ}
    (hlayout : recordLayout size align (some fields) = .ok ()) :
    Destroys (.bufferOf align (.record size fields)) true
      fun p => bufferDestroyRecordFields p size align (some fields) := by
  obtain ⟨_, hsome, hfields⟩ := (recordLayout_checked _ _ _).of_eq_ok hlayout
  obtain rfl := some.inj hsome
  intro sound w p bs hw howns hnodup hbase hp
  refine wp_begin hw hp (wp_bind (wp_ofExcept_ok hlayout ?_))
  exact wp_destroyContents (R := .record size fields) (fun buffer => do
    releaseBlock buffer size align
    storeBuffer p .empty) (destroys_destroyFields hfields) hw howns hnodup hbase
    fun _ hread hheader hvalid hbase' =>
      wp_release (R := .record size fields) hread hheader hvalid hbase' fun _ h => h

end Jadren.Runtime

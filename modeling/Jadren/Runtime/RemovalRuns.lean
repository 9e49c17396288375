import Jadren.Runtime.BufferRuns
import Jadren.Runtime.Removal

/-!
# Runs that give elements up

The calls that destroy, shrink or clear a buffer with owned elements, or remove an element:
one family of functions for each kind of element.  Where all headers are valid, a call gives
back exactly what the elements that go own.  Whatever calls a program makes one after the
other, also after some have stopped at an invalid header, none gives back an object that has
been given back before, or with another layout than it was allocated with: that would be a
fault, and no call faults.
-/

namespace Jadren.Runtime

open Program Resource

/-! ## The calls -/

/-- What a buffer with owned elements is a buffer of.  Each kind has functions of its own;
for buffers of buffers of scalars there are two. -/
inductive Owned
  | buffers (depth leafElementSize leafAlignment : ℕ)
  | directBuffers (nestedElementSize nestedAlignment : ℕ)
  | strings
  | nestedStrings (depth : ℕ)
  | records (elementSize alignment : ℕ) (fields : List CarrierDropField)
  | nestedRecords (depth elementSize alignment : ℕ) (fields : List CarrierDropField)

/-- The calls that give elements up. -/
inductive Removal
  | destroy
  | shrink (newLength : ℕ)
  | clear
  | removeDrop (index : ℕ)

namespace Owned

def element : Owned → Resource
  | buffers depth leafElementSize leafAlignment =>
    (bufferOf leafAlignment (.scalar leafElementSize)).nested (depth - 1)
  | directBuffers nestedElementSize nestedAlignment =>
    .bufferOf nestedAlignment (.scalar nestedElementSize)
  | strings => .string
  | nestedStrings depth => (bufferOf bufferAlign .string).nested (depth - 1)
  | records elementSize _ fields => .record elementSize fields
  | nestedRecords depth elementSize alignment fields =>
    (bufferOf alignment (.record elementSize fields)).nested (depth - 1)

def alignment : Owned → ℕ
  | records _ alignment _ => alignment
  | _ => bufferAlign

/-- The layouts of a compiled program: the checks accept them, and a record is aligned like
the headers in it. -/
def Accepted : Owned → Prop
  | buffers depth leafElementSize leafAlignment =>
    depth ≠ 0 ∧ leafLayout leafElementSize leafAlignment = .ok ()
  | directBuffers nestedElementSize nestedAlignment =>
    leafLayout nestedElementSize nestedAlignment = .ok ()
  | strings => True
  | nestedStrings depth => depth ≠ 0
  | records elementSize alignment fields =>
    recordLayout elementSize alignment (some fields) = .ok () ∧ bufferAlign ∣ alignment
  | nestedRecords depth elementSize alignment fields =>
    depth ≠ 0 ∧ recordLayout elementSize alignment (some fields) = .ok ()

def destroy (p : Pointer) : Owned → Call Unit
  | buffers depth leafElementSize leafAlignment =>
    bufferDestroyNestedBufferRecursive p bufferSize bufferAlign depth leafElementSize leafAlignment
  | directBuffers nestedElementSize nestedAlignment =>
    bufferDestroyNestedBuffer p bufferSize bufferAlign nestedElementSize nestedAlignment
  | strings => bufferDestroyOwnedString p bufferSize bufferAlign
  | nestedStrings depth =>
    bufferDestroyNestedOwnedString p bufferSize bufferAlign depth bufferSize bufferAlign
  | records elementSize alignment fields =>
    bufferDestroyRecordFields p elementSize alignment (some fields)
  | nestedRecords depth elementSize alignment fields =>
    bufferDestroyNestedRecordFields p bufferSize bufferAlign depth elementSize alignment
      (some fields)

def resize (A : Allocator) (p : Pointer) (newLength : ℕ) : Owned → Call Unit
  | buffers depth leafElementSize leafAlignment =>
    bufferResizeMove A p newLength bufferSize bufferAlign depth leafElementSize leafAlignment
  | directBuffers nestedElementSize nestedAlignment =>
    bufferResizeMove A p newLength bufferSize bufferAlign 1 nestedElementSize nestedAlignment
  | strings => bufferResizeMoveOwnedString A p newLength bufferSize bufferAlign
  | nestedStrings depth =>
    bufferResizeMoveNestedOwnedString A p newLength bufferSize bufferAlign depth
      bufferSize bufferAlign
  | records elementSize alignment fields =>
    bufferResizeMoveRecordFields A p newLength elementSize alignment (some fields)
  | nestedRecords depth elementSize alignment fields =>
    bufferResizeMoveNestedRecordFields A p newLength bufferSize bufferAlign depth elementSize
      alignment (some fields)

/-- Buffers of records are cleared by resizing them. -/
def clear (A : Allocator) (p : Pointer) : Owned → Call Unit
  | buffers depth leafElementSize leafAlignment =>
    bufferClearMove A p bufferSize bufferAlign depth leafElementSize leafAlignment
  | directBuffers nestedElementSize nestedAlignment =>
    bufferClearMove A p bufferSize bufferAlign 1 nestedElementSize nestedAlignment
  | strings => bufferClearMoveOwnedString A p bufferSize bufferAlign
  | nestedStrings depth =>
    bufferClearMoveNestedOwnedString A p bufferSize bufferAlign depth bufferSize bufferAlign
  | records elementSize alignment fields =>
    bufferResizeMoveRecordFields A p 0 elementSize alignment (some fields)
  | nestedRecords depth elementSize alignment fields =>
    bufferResizeMoveNestedRecordFields A p 0 bufferSize bufferAlign depth elementSize alignment
      (some fields)

def removeDrop (p : Pointer) (index : ℕ) : Owned → Call Unit
  | buffers depth leafElementSize leafAlignment =>
    bufferRemoveDropNestedBuffer p index bufferSize bufferAlign depth leafElementSize leafAlignment
  | directBuffers nestedElementSize nestedAlignment =>
    bufferRemoveDropNestedBuffer p index bufferSize bufferAlign 1 nestedElementSize nestedAlignment
  | strings => bufferRemoveDropOwnedString p index bufferSize bufferAlign
  | nestedStrings depth =>
    bufferRemoveDropNestedOwnedString p index bufferSize bufferAlign depth bufferSize bufferAlign
  | records elementSize alignment fields =>
    bufferRemoveDropRecordFields p index elementSize alignment (some fields)
  | nestedRecords depth elementSize alignment fields =>
    bufferRemoveDropNestedRecordFields p index bufferSize bufferAlign depth elementSize alignment
      (some fields)

def call (A : Allocator) (p : Pointer) (kind : Owned) : Removal → Call Unit
  | .destroy => kind.destroy p
  | .shrink newLength => kind.resize A p newLength
  | .clear => kind.clear A p
  | .removeDrop index => kind.removeDrop p index

/-- The header at `p` owns the block at `base` and the parts of its elements; each object
has one owner. -/
structure WellFormed (kind : Owned) (sound : Bool) (p : Pointer) (w : World) (base : Option ℕ)
    (parts : List (List ℕ)) : Prop where
  contains : Contains sound w.memory p kind.alignment kind.element base parts
  nodup : (owned base parts).Nodup
  apart : p.base ∉ owned base parts
  live : p.base ≠ 0

end Owned

namespace Removal

/-- A new length is at most the old one. -/
def Permitted (p : Pointer) (w : World) : Removal → Prop
  | shrink newLength => ∀ bytes, w.memory.read p bufferSize = some bytes →
    newLength ≤ (Buffer.ofBytes bytes).length
  | _ => True

/-- There is no element at the index. -/
def Outside (parts : List (List ℕ)) : Removal → Prop
  | removeDrop index => parts.length ≤ index
  | _ => False

/-- What is left of the block. -/
def block (base : Option ℕ) : Removal → Option ℕ
  | destroy => none
  | _ => base

/-- What is left of the elements. -/
def elements (parts : List (List ℕ)) : Removal → List (List ℕ)
  | destroy => []
  | shrink newLength => parts.take newLength
  | clear => []
  | removeDrop index => parts.eraseIdx index

end Removal

/-- A removal has given back what the elements that are gone have owned, and only that. -/
structure Removed (kind : Owned) (sound : Bool) (p : Pointer) (w : World) (base : Option ℕ)
    (parts : List (List ℕ)) (removal : Removal) (w' : World) : Prop where
  contains : Contains sound w'.memory p kind.alignment kind.element (removal.block base)
    (removal.elements parts)
  released : Released w w' p.base (p.Window bufferSize) (owned base parts)
    (owned (removal.block base) (removal.elements parts))

/-! ## Each call -/

section Calls

variable {R : Resource} {kind : Owned} {sound : Bool} {p : Pointer} {w : World} {base : Option ℕ}
  {parts : List (List ℕ)} {A : Allocator}

theorem destroys_nestedBuffers {leafChecks : Except BufferStatus Unit}
    {destroyLeaf : Pointer → Call Unit} {depth : ℕ} (hchecks : leafChecks = .ok ())
    (hsize : R.size = bufferSize) (hleaf : Destroys R true destroyLeaf) (hdepth : depth ≠ 0) :
    Destroys (.bufferOf bufferAlign (R.nested (depth - 1))) true
      (destroyNestedWith leafChecks destroyLeaf depth bufferSize bufferAlign) := by
  obtain ⟨depth, rfl⟩ := Nat.exists_eq_succ_of_ne_zero hdepth
  exact destroys_nested hchecks (R.size_nested hsize depth)
    (destroys_nestedElements hchecks hsize hleaf depth)

variable {size align : ℕ}

theorem destroys_bufferDestroyNestedBuffer {layout : Layout}
    (hlayout : validateElementLayout size align = .ok layout) :
    Destroys (.bufferOf bufferAlign (.bufferOf align (.scalar size))) true
      fun p => bufferDestroyNestedBuffer p bufferSize bufferAlign size align := by
  intro sound w p bs hw howns hnodup hbase hp
  refine wp_begin hw hp (wp_bind (wp_ofExcept_ok rfl ?_))
  refine wp_bind (wp_ofExcept_ok hlayout ?_)
  exact wp_destroyContents (R := .bufferOf align (.scalar size)) (fun buffer => do
    releaseBlock buffer bufferSize bufferAlign
    storeBuffer p .empty) (destroys_bufferDestroy hlayout) hw howns hnodup hbase
    fun _ hread hheader hvalid hbase' =>
      wp_release (R := .bufferOf align (.scalar size)) hread hheader hvalid hbase' fun _ h => h

theorem Owned.destroys_destroy (haccepted : kind.Accepted) :
    Destroys (.bufferOf kind.alignment kind.element) true fun p => kind.destroy p := by
  cases kind with
  | buffers =>
    obtain ⟨layout, hlayout⟩ := exists_layout_of_leaf haccepted.2
    exact destroys_nestedBuffers haccepted.2 rfl (destroys_bufferDestroy hlayout) haccepted.1
  | directBuffers =>
    obtain ⟨layout, hlayout⟩ := exists_layout_of_leaf haccepted
    exact destroys_bufferDestroyNestedBuffer hlayout
  | strings => exact destroys_bufferDestroyOwnedString
  | nestedStrings =>
    exact destroys_nestedBuffers rfl rfl destroys_bufferDestroyOwnedString haccepted
  | records => exact destroys_bufferDestroyRecordFields haccepted.1
  | nestedRecords =>
    exact destroys_nestedBuffers haccepted.2 rfl
      (destroys_bufferDestroyRecordFields haccepted.2) haccepted.1

variable {outside : Prop}

theorem Owned.destroy_spec (haccepted : kind.Accepted) (hw : w.initialized = true)
    (hwf : kind.WellFormed sound p w base parts) :
    wp (kind.destroy p) (fun _ => Removed kind sound p w base parts .destroy)
      (Failed sound outside p kind.alignment kind.element w (owned base parts)) w := by
  refine wp_mono (kind.destroys_destroy haccepted hw ⟨base, parts, hwf.contains, rfl⟩ hwf.nodup
    hwf.apart hwf.live) (fun _ w' h => ?_) fun status w' h => ?_
  · exact ⟨contains_empty (bytes_eq_of_owns_nil h.1), h.2⟩
  · obtain ⟨hstopped, _, ⟨base', parts', hcontains, rfl⟩, hreleased⟩ := h
    refine ⟨hstopped.status_ne_ok, fun hsound => ?_, base', parts', hcontains, hreleased⟩
    rw [hstopped.not_sound] at hsound
    cases hsound

theorem validateElementLayout_coarser {layout : Layout}
    (h : validateElementLayout size align = .ok layout) (hdvd : bufferAlign ∣ align) :
    validateElementLayout size bufferAlign = .ok ⟨size, bufferAlign⟩ := by
  obtain ⟨-, helement⟩ := (validateElementLayout_checked size align).of_eq_ok h
  have hzero : size ≠ 0 := Nat.ne_of_gt helement.size_pos
  unfold validateElementLayout at h ⊢
  rw [if_neg hzero] at h ⊢
  cases hallocator : allocatorLayoutInitialized size align with
  | error =>
    rw [hallocator] at h
    cases h
  | ok =>
    have hle := ((allocatorLayoutInitialized_checked size align).of_eq_ok hallocator).size_le
    have halign : bufferAlign ≤ align := Nat.le_of_dvd helement.align_pos hdvd
    rw [allocatorLayoutInitialized_eq helement.size_pos (by decide) (by decide) (by omega)]
    exact if_pos (hdvd.trans helement.align_dvd)

/-- A record that is aligned like its headers passes the checks for one record. -/
theorem recordLayout_header {table : FieldTable} (h : recordLayout size align table = .ok ())
    (hdvd : bufferAlign ∣ align) : recordLayout size bufferAlign table = .ok () := by
  unfold recordLayout at h ⊢
  cases hlayout : validateElementLayout size align with
  | error =>
    rw [hlayout] at h
    cases h
  | ok =>
    rw [hlayout] at h
    rw [validateElementLayout_coarser hlayout hdvd]
    exact h

theorem Owned.resize_spec {newLength : ℕ} (haccepted : kind.Accepted) (hw : w.initialized = true)
    (hwf : kind.WellFormed sound p w base parts)
    (hshrink : ∀ bytes, w.memory.read p bufferSize = some bytes →
      newLength ≤ (Buffer.ofBytes bytes).length) :
    wp (kind.resize A p newLength) (fun _ => Removed kind sound p w base parts (.shrink newLength))
      (Failed sound outside p kind.alignment kind.element w (owned base parts)) w := by
  obtain ⟨hcontains, hnodup, hapart, hlive⟩ := hwf
  -- each kind is the same call at its own checks and destructor
  have hresize : ∀ {checks : Except BufferStatus Unit} {elementSize alignment : ℕ} {after : Bool}
      {D : Pointer → Call Unit}, Destroys kind.element after D →
      kind.element.size = elementSize → checks = .ok () →
      wp (resizeMoveWith A checks p newLength elementSize alignment D)
        (fun _ => Removed kind sound p w base parts (.shrink newLength))
        (Failed sound outside p kind.alignment kind.element w (owned base parts)) w :=
    fun hD hsize hchecks => wp_mono (resizeMoveWith_spec hD hsize hchecks hw hlive hcontains hshrink
      hnodup hapart) (fun _ _ h => ⟨h.1, h.2⟩) fun _ _ h => h
  cases kind with
  | buffers =>
    obtain ⟨layout, hlayout⟩ := exists_layout_of_leaf haccepted.2
    refine hresize (destroys_destroyChain haccepted.2 rfl (destroys_bufferDestroy hlayout)
      haccepted.1) (size_nested rfl _) ?_
    unfold requireDepth
    rw [if_neg haccepted.1, haccepted.2]
    rfl
  | directBuffers nestedElementSize nestedAlignment =>
    obtain ⟨layout, hlayout⟩ := exists_layout_of_leaf haccepted
    refine hresize (destroys_destroyChain
      (R := .bufferOf nestedAlignment (.scalar nestedElementSize))
      haccepted rfl (destroys_bufferDestroy hlayout) Nat.one_ne_zero) rfl ?_
    rw [haccepted]
    rfl
  | strings => exact hresize destroys_destroyString rfl rfl
  | nestedStrings =>
    refine hresize (destroys_destroyChain rfl rfl destroys_bufferDestroyOwnedString haccepted)
      (size_nested rfl _) ?_
    unfold requireDepth
    rw [if_neg haccepted]
    rfl
  | records =>
    exact hresize (destroys_carrierDestroyRecordFields
      (recordLayout_header haccepted.1 haccepted.2)) rfl haccepted.1
  | nestedRecords =>
    refine hresize (destroys_destroyChain haccepted.2 rfl
      (destroys_bufferDestroyRecordFields haccepted.2) haccepted.1) (size_nested rfl _) ?_
    unfold requireDepth
    rw [if_neg haccepted.1, haccepted.2]
    rfl

theorem Owned.clear_spec (haccepted : kind.Accepted) (hw : w.initialized = true)
    (hwf : kind.WellFormed sound p w base parts) :
    wp (kind.clear A p) (fun _ => Removed kind sound p w base parts .clear)
      (Failed sound outside p kind.alignment kind.element w (owned base parts)) w := by
  have hresize : wp (kind.resize A p 0) (fun _ => Removed kind sound p w base parts (.shrink 0))
      (Failed sound outside p kind.alignment kind.element w (owned base parts)) w :=
    kind.resize_spec haccepted hw hwf fun _ _ => Nat.zero_le _
  have hclear : kind.clear A p = kind.resize A p 0 := by
    cases kind with
    | _ => rfl
  rw [hclear]
  exact wp_mono hresize (fun _ _ h => ⟨h.contains, h.released⟩) fun _ _ h => h

theorem Owned.removeDrop_spec {index : ℕ} (haccepted : kind.Accepted)
    (houtside : parts.length ≤ index → outside) (hw : w.initialized = true)
    (hwf : kind.WellFormed sound p w base parts) :
    wp (kind.removeDrop p index) (fun _ => Removed kind sound p w base parts (.removeDrop index))
      (Failed sound outside p kind.alignment kind.element w (owned base parts)) w := by
  obtain ⟨hcontains, hnodup, hapart, hlive⟩ := hwf
  have hremove : ∀ {checks : Except BufferStatus Unit} {elementSize : ℕ} {after : Bool}
      {D : Pointer → Call Unit} {closeGap : Buffer → Call Unit}, Destroys kind.element after D →
      kind.element.size = elementSize → ClosesGap elementSize index closeGap → checks = .ok () →
      wp (removeDropWith checks p index elementSize D closeGap)
        (fun _ => Removed kind sound p w base parts (.removeDrop index))
        (Failed sound outside p kind.alignment kind.element w (owned base parts)) w :=
    fun hD hsize hgap hchecks =>
      wp_mono (removeDropWith_spec hD hsize hgap hchecks houtside hw hlive
      hcontains hnodup hapart) (fun _ _ h => ⟨h.1, h.2⟩) fun _ _ h => h
  have hdescriptors := closesGap_closeDescriptorGap index
  cases kind with
  | buffers =>
    obtain ⟨layout, hlayout⟩ := exists_layout_of_leaf haccepted.2
    refine hremove (destroys_destroyChain haccepted.2 rfl (destroys_bufferDestroy hlayout)
      haccepted.1) (size_nested rfl _) hdescriptors ?_
    unfold requireDepth
    rw [if_neg haccepted.1, haccepted.2]
    rfl
  | directBuffers nestedElementSize nestedAlignment =>
    obtain ⟨layout, hlayout⟩ := exists_layout_of_leaf haccepted
    refine hremove (destroys_destroyChain
      (R := .bufferOf nestedAlignment (.scalar nestedElementSize))
      haccepted rfl (destroys_bufferDestroy hlayout) Nat.one_ne_zero) rfl hdescriptors ?_
    rw [haccepted]
    rfl
  | strings => exact hremove destroys_destroyString rfl hdescriptors rfl
  | nestedStrings =>
    refine hremove (destroys_destroyChain rfl rfl destroys_bufferDestroyOwnedString haccepted)
      (size_nested rfl _) hdescriptors ?_
    unfold requireDepth
    rw [if_neg haccepted]
    rfl
  | records elementSize =>
    obtain ⟨_, hsome, hfields⟩ := (recordLayout_checked _ _ _).of_eq_ok haccepted.1
    obtain rfl := Option.some.inj hsome
    exact hremove (destroys_destroyFields hfields) rfl (closesGap_closeRecordGap elementSize index)
      haccepted.1
  | nestedRecords =>
    refine hremove (destroys_destroyChain haccepted.2 rfl
      (destroys_bufferDestroyRecordFields haccepted.2) haccepted.1) (size_nested rfl _)
      hdescriptors ?_
    unfold requireDepth
    rw [if_neg haccepted.1, haccepted.2]
    rfl

variable {Q : Unit → World → Prop} {E : BufferStatus → World → Prop}

theorem wp_uninitialized {f : Unit → Call Unit} (hw : w.initialized = false)
    (hE : E .runtimeNotInitialized w) : wp (requireInitialized >>= f) Q E w := by
  refine wp_bind (wp_bind (wp_get (wp_failIf (fun _ => hE) fun hnot => ?_)))
  exact absurd hw hnot

theorem Owned.call_uninitialized {removal : Removal} (hw : w.initialized = false)
    (hE : E .runtimeNotInitialized w) : wp (kind.call A p removal) Q E w := by
  have hnested : ∀ {leafChecks : Except BufferStatus Unit} {destroyLeaf : Pointer → Call Unit}
      (depth : ℕ), wp (destroyNestedWith leafChecks destroyLeaf depth bufferSize bufferAlign p)
        Q E w := by
    intro leafChecks destroyLeaf depth
    cases depth with
    | zero | succ => exact wp_uninitialized hw hE
  cases removal with
  | destroy =>
    cases kind with
    | buffers => exact hnested _
    | nestedStrings => exact hnested _
    | nestedRecords => exact hnested _
    | _ => exact wp_uninitialized hw hE
  | _ =>
    cases kind with
    | _ => exact wp_uninitialized hw hE

/-- A call gives back what the elements that go own, or it stops and keeps track. -/
theorem Owned.call_spec {removal : Removal} (haccepted : kind.Accepted)
    (hwf : kind.WellFormed sound p w base parts) (hpermitted : removal.Permitted p w) :
    wp (kind.call A p removal) (fun _ => Removed kind sound p w base parts removal)
      (Failed sound (w.initialized = false ∨ removal.Outside parts) p kind.alignment kind.element w
        (owned base parts)) w := by
  cases hw : w.initialized with
  | false =>
    exact kind.call_uninitialized hw
      (.unchanged BufferStatus.noConfusion (fun _ => .inl rfl) hwf.contains)
  | true =>
    cases removal with
    | destroy => exact kind.destroy_spec haccepted hw hwf
    | shrink => exact kind.resize_spec haccepted hw hwf hpermitted
    | clear => exact kind.clear_spec haccepted hw hwf
    | removeDrop => exact kind.removeDrop_spec haccepted .inr hw hwf

end Calls

/-! ## Runs -/

variable {kind : Owned} {p : Pointer} {w : World} {parts : List (List ℕ)}

theorem Owned.WellFormed.keep {sound sound' : Bool} {w' : World} {base base' : Option ℕ}
    {parts' : List (List ℕ)} {inside : ℕ → Prop} (h : kind.WellFormed sound p w base parts)
    (hcontains : Contains sound' w'.memory p kind.alignment kind.element base' parts')
    (hreleased : Released w w' p.base inside (owned base parts) (owned base' parts')) :
    kind.WellFormed sound' p w' base' parts' :=
  ⟨hcontains, h.nodup.sublist hreleased.kept, fun hmem => h.apart (hreleased.kept.subset hmem),
    h.live⟩

theorem Owned.WellFormed.weaken {sound : Bool} {base : Option ℕ}
    (h : kind.WellFormed sound p w base parts) : kind.WellFormed false p w base parts := by
  obtain ⟨⟨bytes, hread, hheader⟩, hnodup, hapart, hlive⟩ := h
  exact ⟨⟨bytes, hread, hheader.weaken⟩, hnodup, hapart, hlive⟩

/-- The runs of a program that removes elements from the buffer at `p`.  Headers may be
invalid from the start. -/
def removals (kind : Owned) (p : Pointer) : System Unit where
  State := World
  initial w := ∃ base parts, kind.WellFormed false p w base parts
  step w _ w' := ∃ A removal result, removal.Permitted p w ∧
    kind.call A p removal w = some (result, w')

theorem wellFormed_of_removal {w' : World} {event : Option Unit} (haccepted : kind.Accepted)
    (hw : ∃ base parts, kind.WellFormed false p w base parts)
    (hstep : (removals kind p).step w event w') :
    ∃ base parts, kind.WellFormed false p w' base parts := by
  obtain ⟨base, parts, hwf⟩ := hw
  obtain ⟨A, removal, result, hpermitted, hcall⟩ := hstep
  have hspec := kind.call_spec (A := A) haccepted hwf hpermitted
  unfold wp at hspec
  rw [hcall] at hspec
  cases result with
  | ok =>
    obtain ⟨hcontains, hreleased⟩ := hspec
    exact ⟨_, _, hwf.keep hcontains hreleased⟩
  | error =>
    obtain ⟨-, -, base', parts', hcontains, hreleased⟩ := hspec
    exact ⟨base', parts', hwf.keep hcontains hreleased⟩

/-- After any calls the buffer owns what it has not given back, each object once.  Where its
headers are valid the next call gives back what the elements that go own, and nothing else;
otherwise it may stop, and what it has given back by then is not owned any more. -/
theorem removal_of_reachable {kind : Owned} {p : Pointer} (haccepted : kind.Accepted) {w : World}
    (hw : (removals kind p).Reachable w) :
    (∃ base parts, kind.WellFormed false p w base parts) ∧
      ∀ sound base parts, kind.WellFormed sound p w base parts →
        ∀ A removal, removal.Permitted p w →
          wp (kind.call A p removal)
            (fun _ w' => Removed kind sound p w base parts removal w' ∧
              kind.WellFormed sound p w' (removal.block base) (removal.elements parts))
            (fun status w' => Failed sound (w.initialized = false ∨ removal.Outside parts) p
              kind.alignment kind.element w (owned base parts) status w') w := by
  refine ⟨hw.invariant (fun _ h => h) fun _ _ _ => wellFormed_of_removal haccepted, ?_⟩
  intro sound base parts hwf A removal hpermitted
  refine wp_mono (kind.call_spec haccepted hwf hpermitted) (fun _ w' h => ?_) fun _ _ h => h
  exact ⟨h, hwf.keep h.contains h.released⟩

namespace Sample

/-- A header for one element at an address. -/
def oneElement (address : ℕ) : List Byte := (Buffer.mk ⟨address, 0⟩ 1 1).toBytes

def headerObject (address : ℕ) : Object :=
  ⟨⟨bufferSize, bufferAlign⟩, oneElement address, Buffer.length_toBytes _⟩

def byteObject : Object := ⟨⟨1, 1⟩, [7], rfl⟩

/-- A buffer with one buffer with one byte. -/
def nestedWorld : World where
  initialized := true
  header := none
  memory := fun base =>
    if base = 512 then some (headerObject 4096)
    else if base = 4096 then some (headerObject 8192)
    else if base = 8192 then some byteObject
    else none

theorem nestedWorld_wellFormed :
    (Owned.buffers 1 1 1).WellFormed true ⟨512, 0⟩ nestedWorld (some 4096) [[8192]] := by
  have hinnerBlock : Block true nestedWorld.memory 1 (.scalar 1)
      (.ofBytes (oneElement 8192)) [[]] :=
    ⟨by decide, by decide, by decide, ⟨byteObject, rfl, by decide⟩, .cons rfl .nil⟩
  have hinner : Contains true nestedWorld.memory ⟨4096, 0⟩ 1 (.scalar 1) (some 8192) [[]] :=
    ⟨oneElement 8192, by decide, .block hinnerBlock⟩
  have hblock : Block true nestedWorld.memory bufferAlign (Owned.buffers 1 1 1).element
      (.ofBytes (oneElement 4096)) [[8192]] :=
    ⟨by decide, by decide, by decide, ⟨headerObject 8192, rfl, by decide⟩,
      .cons ⟨some 8192, [[]], hinner, rfl⟩ .nil⟩
  exact ⟨⟨oneElement 4096, by decide, .block hblock⟩, by decide, by decide, by decide⟩

end Sample

theorem removal_of_reachable_sample :
    (∃ base parts, (Owned.buffers 1 1 1).WellFormed false ⟨512, 0⟩ Sample.nestedWorld base parts) ∧
      ∀ sound base parts,
        (Owned.buffers 1 1 1).WellFormed sound ⟨512, 0⟩ Sample.nestedWorld base parts →
        ∀ A removal, removal.Permitted ⟨512, 0⟩ Sample.nestedWorld →
          wp ((Owned.buffers 1 1 1).call A ⟨512, 0⟩ removal)
            (fun _ w' => Removed (.buffers 1 1 1) sound ⟨512, 0⟩ Sample.nestedWorld base parts
                removal w' ∧
              (Owned.buffers 1 1 1).WellFormed sound ⟨512, 0⟩ w' (removal.block base)
                (removal.elements parts))
            (fun status w' => Failed sound
              (Sample.nestedWorld.initialized = false ∨ removal.Outside parts) ⟨512, 0⟩
              (Owned.buffers 1 1 1).alignment (Owned.buffers 1 1 1).element Sample.nestedWorld
              (owned base parts) status w') Sample.nestedWorld :=
  removal_of_reachable (show (Owned.buffers 1 1 1).Accepted from ⟨Nat.one_ne_zero, by decide⟩)
    ⟨[], .start ⟨_, _, Sample.nestedWorld_wellFormed.weaken⟩⟩

example : ((Owned.buffers 1 1 1).call Sample.allocator ⟨512, 0⟩ .destroy Sample.nestedWorld).map
    (fun result => [512, 4096, 8192].map fun base => (result.2.memory base).isSome) =
      some [true, false, false] := by decide

end Jadren.Runtime

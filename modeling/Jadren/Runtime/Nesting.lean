import Jadren.Runtime.Ownership

/-!
# Buffers of resources

A header owns its block and what the elements in the block own.  Buffers of buffers are
the same again, to any depth.  The destructors of the runtime are shown to destroy these
resources: a loop over the slots, then the block, then the header is emptied; for nested
buffers by induction on the depth.
-/

namespace Jadren.Runtime

open Program Chunks List Option

/-! ## Slots -/

/-- The slots `first`, ..., `first + count - 1`, each with the resource. -/
def slots (R : Resource) (first count : ℕ) : List Site :=
  (range' first count).map fun index => ⟨index * R.size, R⟩

variable {R : Resource} {first count : ℕ}

theorem length_slots : (slots R first count).length = count := by
  unfold slots
  rw [length_map, length_range']

theorem slots_append (R : Resource) (first count more : ℕ) :
    slots R first count ++ slots R (first + count) more = slots R first (count + more) := by
  unfold slots
  rw [← map_append, range'_append_1]

theorem slots_apart (R : Resource) (first count : ℕ) :
    (slots R first count).Pairwise Site.Apart := by
  unfold slots
  apply pairwise_map.mpr
  apply List.Pairwise.imp ?_ pairwise_lt_range'
  intro a b hab i ha hb
  simp only [Site.Window] at ha hb
  have hnext : (a + 1) * R.size ≤ b * R.size := Nat.mul_le_mul_right R.size hab
  rw [Nat.succ_mul] at hnext
  omega

/-! ## Headers -/

/-- The block of a header, and what its elements own. -/
structure Block (sound : Bool) (m : Memory) (align : ℕ) (R : Resource) (buffer : Buffer)
    (parts : List (List ℕ)) : Prop where
  valid : validateBuffer buffer = .ok ()
  capacity_ne_zero : buffer.capacity ≠ 0
  offset_eq_zero : buffer.pointer.offset = 0
  object : ∃ object, m buffer.pointer.base = some object ∧
    bufferLayout R.size align buffer.capacity = .ok object.layout
  owners : Owners sound m buffer.pointer (slots R 0 buffer.length) parts

/-- A header owns its block, if it has one, and for each element a part. -/
inductive HeaderOwns (sound : Bool) (m : Memory) (align : ℕ) (R : Resource) (buffer : Buffer) :
    Option ℕ → List (List ℕ) → Prop
  | invalid {status : BufferStatus} : sound = false → validateBuffer buffer = .error status →
      HeaderOwns sound m align R buffer none []
  | empty : buffer = .empty → HeaderOwns sound m align R buffer none []
  | block {parts : List (List ℕ)} : Block sound m align R buffer parts →
      HeaderOwns sound m align R buffer (some buffer.pointer.base) parts

/-- The header at a pointer owns this. -/
def Contains (sound : Bool) (m : Memory) (p : Pointer) (align : ℕ) (R : Resource)
    (base : Option ℕ) (parts : List (List ℕ)) : Prop :=
  ∃ bytes, m.read p bufferSize = some bytes ∧ HeaderOwns sound m align R (.ofBytes bytes) base parts

/-- The objects of a block and of its elements. -/
def owned (base : Option ℕ) (parts : List (List ℕ)) : List ℕ := base.toList ++ parts.flatten

variable {sound : Bool} {m m' : Memory} {align : ℕ} {buffer : Buffer} {base : Option ℕ}
  {parts left right : List (List ℕ)} {p q : Pointer}

theorem Block.weaken (h : Block sound m align R buffer parts) :
    Block false m align R buffer parts :=
  ⟨h.valid, h.capacity_ne_zero, h.offset_eq_zero, h.object, h.owners.weaken⟩

theorem Block.congr (h : Block sound m align R buffer parts)
    (hblock : m' buffer.pointer.base = m buffer.pointer.base)
    (hsame : ∀ b ∈ parts.flatten, m' b = m b) : Block sound m' align R buffer parts := by
  refine ⟨h.valid, h.capacity_ne_zero, h.offset_eq_zero, ?_, ?_⟩
  · rw [hblock]
    exact h.object
  · exact h.owners.congr (fun site _ => read_congr hblock) hsame

variable (h : HeaderOwns sound m align R buffer base parts)
include h

theorem HeaderOwns.weaken :
    HeaderOwns false m align R buffer base parts := by
  cases h with
  | invalid _ hinvalid => exact .invalid rfl hinvalid
  | empty hempty => exact .empty hempty
  | block hblock => exact .block hblock.weaken

omit h

variable {status : BufferStatus}

include h

theorem HeaderOwns.not_sound
    (hinvalid : validateBuffer buffer = .error status) : sound = false := by
  cases h with
  | invalid hsound => exact hsound
  | empty hempty =>
    subst hempty
    cases hinvalid
  | block hblock =>
    rw [hblock.valid] at hinvalid
    cases hinvalid

theorem HeaderOwns.congr
    (hsame : ∀ b ∈ owned base parts, m' b = m b) :
    HeaderOwns sound m' align R buffer base parts := by
  cases h with
  | invalid hsound hinvalid => exact .invalid hsound hinvalid
  | empty hempty => exact .empty hempty
  | block hblock =>
    exact .block (hblock.congr (hsame _ mem_cons_self) fun b hb =>
      hsame b (mem_cons_of_mem _ hb))

omit h

/-- An owning buffer. -/
def Resource.bufferOf (align : ℕ) (R : Resource) : Resource where
  size := bufferSize
  Owns sound m p bs := ∃ base parts, Contains sound m p align R base parts ∧ bs = owned base parts
  weaken h := by
    obtain ⟨base, parts, ⟨bytes, hread, hheader⟩, hbs⟩ := h
    exact ⟨base, parts, ⟨bytes, hread, hheader.weaken⟩, hbs⟩
  congr h hread hsame := by
    obtain ⟨base, parts, ⟨bytes, hbytes, hheader⟩, rfl⟩ := h
    exact ⟨base, parts, ⟨bytes, hread.trans hbytes, hheader.congr hsame⟩, rfl⟩

/-- `depth` headers above the buffers `R`. -/
def Resource.nested (R : Resource) : ℕ → Resource
  | 0 => R
  | depth + 1 => .bufferOf bufferAlign (R.nested depth)

/-- A string is a buffer of bytes. -/
def Resource.string : Resource := .bufferOf 1 (.scalar 1)

theorem Buffer.ofBytes_empty : Buffer.ofBytes Buffer.empty.toBytes = .empty := by decide

theorem contains_empty (h : m.read p bufferSize = some Buffer.empty.toBytes) :
    Contains sound m p align R none [] := ⟨_, h, .empty Buffer.ofBytes_empty⟩

theorem Resource.bufferOf_owns_nil (h : m.read p bufferSize = some Buffer.empty.toBytes) :
    (Resource.bufferOf align R).Owns sound m p [] := ⟨none, [], contains_empty h, rfl⟩

variable {size : ℕ}

/-- Scalars own nothing. -/
theorem flatten_eq_nil_of_scalar (h : HeaderOwns sound m align (.scalar size) buffer base parts) :
    parts.flatten = [] := by
  cases h with
  | invalid => rfl
  | empty => rfl
  | block hblock =>
    apply flatten_eq_nil_iff.mpr
    intro part hpart
    obtain ⟨i, hi, rfl⟩ := getElem_of_mem hpart
    have hlength := hblock.owners.length_eq
    have hsite := Forall₂.get hblock.owners (hlength ▸ hi) hi
    unfold slots at hsite
    simp only [get_eq_getElem, getElem_map] at hsite
    exact hsite

variable {object : Object}

theorem Block.length_le (h : Block sound m align R buffer parts)
    (hobject : m buffer.pointer.base = some object) :
    buffer.pointer.offset + buffer.length * R.size ≤ object.bytes.length := by
  obtain ⟨object', hobject', hlayout⟩ := h.object
  obtain rfl := some.inj (hobject.symm.trans hobject')
  have hblock := (bufferLayout_checked R.size align buffer.capacity).of_eq_ok hlayout
  have hvalid := (validateBuffer_checked buffer).of_eq_ok h.valid
  calc buffer.pointer.offset + buffer.length * R.size
      = buffer.length * R.size := by rw [h.offset_eq_zero, Nat.zero_add]
    _ ≤ buffer.capacity * R.size := Nat.mul_le_mul_right R.size hvalid.1
    _ = object.bytes.length := by rw [object.length_bytes, hblock.eq, Nat.mul_comm]

theorem Block.base_ne_zero (h : Block sound m align R buffer parts) : buffer.pointer.base ≠ 0 := by
  intro hzero
  have hvalid := (validateBuffer_checked buffer).of_eq_ok h.valid
  apply h.capacity_ne_zero
  apply hvalid.2.mpr
  unfold Pointer.isNull Pointer.addr
  rw [hzero, h.offset_eq_zero]

/-! ## Steps of the destructors -/

section Steps

variable {w : World} {ε : Type} {E : ε → World → Prop} {bytes : List Byte}

theorem wp_loadBuffer {Q : Buffer → World → Prop} (hread : w.memory.read p bufferSize = some bytes)
    (h : Q (.ofBytes bytes) w) : wp (loadBuffer p) Q E w :=
  wp_bind (wp_bind (wp_get (wp_demand hread (wp_pure h))))

variable {Q : Unit → World → Prop}

theorem wp_storeBuffer (hread : w.memory.read p bufferSize = some bytes)
    (h : ∀ m', m'.read p bufferSize = some buffer.toBytes →
      ChangedAt w.memory m' p.base (p.Window bufferSize) →
      (∀ b, b ≠ p.base → m' b = w.memory b) → Q () { w with memory := m' }) :
    wp (storeBuffer p buffer) Q E w := by
  obtain ⟨m', hwrite, hread', hchanged, helse⟩ := exists_write hread buffer.length_toBytes
  exact wp_bind (wp_get (wp_bind (wp_demand hwrite (wp_modify (h m' hread' hchanged helse)))))

theorem wp_dealloc {object : Object} {layout : Layout} (hobject : w.memory p.base = some object)
    (hoffset : p.offset = 0) (hlayout : object.layout = layout)
    (h : Q () { w with memory := w.memory.erase p.base }) : wp (dealloc p layout) Q E w := by
  have hallocated : w.memory.allocated p layout = some object := by
    unfold Memory.allocated
    rw [hobject]
    exact Option.filter_some_pos (decide_eq_true ⟨hoffset, hlayout⟩)
  exact wp_bind (wp_get (wp_bind (wp_demand hallocated (wp_modify h))))

end Steps

variable {w : World}

theorem wp_ofExcept_ok {ε α : Type} {a : α} {r : Except ε α} {Q : α → World → Prop}
    {E : ε → World → Prop} (hr : r = .ok a) (h : Q a w) : wp (ofExcept r) Q E w := by
  subst hr
  exact h

section Release

variable {w : World} {ε : Type} {E : ε → World → Prop} {checked : Except ε Layout}

theorem wp_releaseBlock {Q : Unit → World → Prop}
    (hheader : HeaderOwns sound w.memory align R buffer base parts)
    (hvalid : validateBuffer buffer = .ok ())
    (hchecked : ∀ layout, bufferLayout R.size align buffer.capacity = .ok layout →
      checked = .ok layout)
    (h : ∀ m, (∀ b ∈ base, m b = none) → (∀ b, b ∉ base → m b = w.memory b) →
      Q () { w with memory := m }) :
    wp (onlyIf (buffer.capacity ≠ 0) do
      let layout ← ofExcept checked
      dealloc buffer.pointer layout) Q E w := by
  cases hheader with
  | invalid _ hinvalid =>
    rw [hvalid] at hinvalid
    cases hinvalid
  | empty hempty =>
    subst hempty
    exact h w.memory (fun _ hb => nomatch hb) fun _ _ => rfl
  | block hblock =>
    obtain ⟨object, hobject, hlayout⟩ := hblock.object
    refine wp_onlyIf (fun _ => ?_) fun hzero => absurd hblock.capacity_ne_zero hzero
    refine wp_bind (wp_ofExcept_ok (hchecked _ hlayout) ?_)
    apply wp_dealloc hobject hblock.offset_eq_zero rfl
    apply h
    · intro b hb
      obtain rfl := some.inj hb
      exact Function.update_self ..
    · intro b hb
      exact Function.update_of_ne (fun heq => hb (congrArg some heq.symm)) ..

/-- Giving the block of a header back and emptying the header. -/
theorem wp_release {bytes : List Byte} (hread : w.memory.read p bufferSize = some bytes)
    (hheader : HeaderOwns sound w.memory align R buffer base parts)
    (hvalid : validateBuffer buffer = .ok ()) (hbase : p.base ∉ base)
    (hchecked : ∀ layout, bufferLayout R.size align buffer.capacity = .ok layout →
      checked = .ok layout) :
    wp (do
        onlyIf (buffer.capacity ≠ 0) do
          let layout ← ofExcept checked
          dealloc buffer.pointer layout
        storeBuffer p .empty)
      (fun _ w' => w'.memory.read p bufferSize = some Buffer.empty.toBytes ∧
        Released w w' p.base (p.Window bufferSize) base.toList []) E w := by
  refine wp_bind (wp_releaseBlock hheader hvalid hchecked fun m hfreed helse => ?_)
  have hsame : m p.base = w.memory p.base := helse p.base hbase
  refine wp_storeBuffer ((read_congr hsame).trans hread) fun m' hread' hchanged helse' => ?_
  obtain ⟨object, object', hobject, hobject', hlayout, hbytes⟩ := hchanged.object
  refine ⟨hread', rfl, rfl, ⟨object, object', hsame.symm.trans hobject, hobject', hlayout, hbytes⟩,
    nil_sublist _, fun b hb _ => ?_, fun b hne hb => ?_⟩
  · have hmem : b ∈ base := Option.mem_toList.mp hb
    have hne : b ≠ p.base := fun heq => hbase (heq ▸ hmem)
    exact (helse' b hne).trans (hfreed b hmem)
  · exact (helse' b hne).trans (helse b fun hmem => hb (Option.mem_toList.mpr hmem))

end Release

/-! ## Destroying elements -/

theorem Owners.of_append {sites sites' : List Site} (h : Owners sound m p (sites ++ sites')
    (left ++ right)) (hlength : sites.length = left.length) :
    Owners sound m p sites left ∧ Owners sound m p sites' right := by
  have htake := forall₂_take sites.length h
  have hdrop := forall₂_drop sites.length h
  rw [take_left, take_left' hlength.symm] at htake
  rw [drop_left, drop_left' hlength.symm] at hdrop
  exact ⟨htake, hdrop⟩

theorem Site.Apart.symm {a b : Site} (h : a.Apart b) : b.Apart a := fun i hb ha => h i ha hb

variable {D : Pointer → Call Unit} {middle : List (List ℕ)}

/-- The loop over the slots `first`, ..., `last - 1` destroys what the elements there own. -/
theorem Block.wp_forSlots {after : Bool} {last : ℕ} (hD : Destroys R after D)
    (hw : w.initialized = true)
    (h : Block sound w.memory align R buffer (left ++ (middle ++ right)))
    (hfirst : left.length = first) (hlast : first + middle.length = last)
    (hnodup : (buffer.pointer.base :: (left ++ (middle ++ right)).flatten).Nodup) :
    wp (forSlots buffer.pointer R.size first last D)
      (fun _ w' => Owners sound w'.memory buffer.pointer (slots R 0 first) left ∧
        Owners sound w'.memory buffer.pointer (slots R last right.length) right ∧
        Block false w'.memory align R buffer (left ++ (middle.map (fun _ => []) ++ right)) ∧
        Released w w' buffer.pointer.base (fun _ => True) (left ++ (middle ++ right)).flatten
          (left ++ right).flatten)
      (fun status w' => Stopped sound status ∧ ∃ middle',
        Block false w'.memory align R buffer (left ++ (middle' ++ right)) ∧
        Released w w' buffer.pointer.base (fun _ => True) (left ++ (middle ++ right)).flatten
          (left ++ (middle' ++ right)).flatten) w := by
  obtain ⟨object, hobject, hlayout⟩ := h.object
  obtain ⟨hbase, hflat⟩ := nodup_cons.mp hnodup
  simp only [flatten_append] at hbase hflat ⊢
  obtain ⟨-, hrest, hleftDisjoint⟩ := nodup_append.mp hflat
  obtain ⟨hmiddleNodup, -, hrightDisjoint⟩ := nodup_append.mp hrest
  have hlength : buffer.length = first + (middle.length + right.length) := by
    have hlength := h.owners.length_eq
    rw [length_slots, length_append, length_append, hfirst] at hlength
    exact hlength
  -- the slots before, in and behind the loop, with what each part owns
  have hsplit : slots R 0 buffer.length =
      slots R 0 first ++ (slots R first middle.length ++ slots R last right.length) := by
    rw [← hlast, slots_append, hlength, ← slots_append R 0 first, Nat.zero_add]
  have howners := h.owners
  rw [hsplit] at howners
  obtain ⟨hownersLeft, howners⟩ := Owners.of_append howners (length_slots.trans hfirst.symm)
  obtain ⟨hownersMiddle, hownersRight⟩ := Owners.of_append howners length_slots
  have hapart := slots_apart R 0 buffer.length
  rw [hsplit] at hapart
  obtain ⟨-, hapart, hapartLeft⟩ := pairwise_append.mp hapart
  obtain ⟨hapartMiddle, -, hapartRight⟩ := pairwise_append.mp hapart
  have hcount : last - first = middle.length := by omega
  have hloop := wp_forEach_sites (fun index => ⟨index * R.size, R⟩)
    (fun index => do
      let slot ← ptrAdd buffer.pointer (index * R.size)
      D slot) hobject hownersMiddle hmiddleNodup
    (fun hb => hbase (mem_append_right _ (mem_append_left _ hb))) hapartMiddle ?_
  · -- the other slots do not notice
    have hkeepLeft : ∀ {w' : World} {bs' : List ℕ}, Released w w' buffer.pointer.base
        (Covered buffer.pointer (slots R first middle.length)) middle.flatten bs' →
        Owners sound w'.memory buffer.pointer (slots R 0 first) left := by
      intro w' bs' hreleased
      apply hownersLeft.frame hreleased.changed
      · intro i hi
        obtain ⟨a, ha, hai⟩ := hi
        exact not_covered_of_apart (fun b hb => hapartLeft a ha b (mem_append_left _ hb)) i hai
      · intro b hb
        apply hreleased.elsewhere
        · exact fun heq => hbase (mem_append_left _ (heq ▸ hb))
        · exact fun hmiddle => hleftDisjoint b hb b (mem_append_left _ hmiddle) rfl
    have hkeepRight : ∀ {w' : World} {bs' : List ℕ}, Released w w' buffer.pointer.base
        (Covered buffer.pointer (slots R first middle.length)) middle.flatten bs' →
        Owners sound w'.memory buffer.pointer (slots R last right.length) right := by
      intro w' bs' hreleased
      apply hownersRight.frame hreleased.changed
      · intro i hi
        obtain ⟨b, hb, hbi⟩ := hi
        exact not_covered_of_apart (fun a ha => (hapartRight a ha b hb).symm) i hbi
      · intro b hb
        apply hreleased.elsewhere
        · exact fun heq => hbase (mem_append_right _ (mem_append_right _ (heq ▸ hb)))
        · exact fun hmiddle => hrightDisjoint b hmiddle b hb rfl
    have hblock : ∀ {w' : World} {bs' : List ℕ} {middle'}, Released w w' buffer.pointer.base
        (Covered buffer.pointer (slots R first middle.length)) middle.flatten bs' →
        Owners false w'.memory buffer.pointer (slots R first middle.length) middle' →
        Block false w'.memory align R buffer (left ++ (middle' ++ right)) := by
      intro w' bs' middle' hreleased howners'
      obtain ⟨object₀, object', hobject₀, hobject', hlayout', -⟩ := hreleased.changed.object
      obtain rfl := some.inj (hobject.symm.trans hobject₀)
      refine ⟨h.valid, h.capacity_ne_zero, h.offset_eq_zero, ⟨object', hobject', ?_⟩, ?_⟩
      · rw [hlayout']
        exact hlayout
      · rw [hsplit]
        apply rel_append (hkeepLeft hreleased).weaken
        exact rel_append howners' (hkeepRight hreleased).weaken
    unfold forSlots
    rw [hcount]
    refine wp_mono hloop (fun _ w' h => ?_) fun status w' h => ?_
    · obtain ⟨howners', hreleased⟩ := h
      have hempty : (range' first middle.length).map (fun _ => ([] : List ℕ)) =
          middle.map fun _ => [] := by
        rw [map_const', map_const', length_range']
      rw [hempty] at howners'
      have hfreed : Released w w' buffer.pointer.base _
          (left.flatten ++ (middle.flatten ++ right.flatten))
          (left.flatten ++ ([] ++ right.flatten)) := hreleased.append_right.append_left
      exact ⟨hkeepLeft hreleased, hkeepRight hreleased, hblock hreleased howners',
        hfreed.mono fun _ _ => trivial⟩
    · obtain ⟨hstopped, middle', howners', hreleased⟩ := h
      exact ⟨hstopped, middle', hblock hreleased howners',
        hreleased.append_right.append_left.mono fun _ _ => trivial⟩
  · intro index hindex w' hchanged hsame part hpart hpartNodup hpartBase
    obtain ⟨object₀, object', hobject₀, hobject', hlayout', -⟩ := hchanged.object
    obtain rfl := some.inj (hobject.symm.trans hobject₀)
    -- the address of a slot can be computed as long as the object has its size
    have hadd : w'.memory.add buffer.pointer (index * R.size) =
        some (buffer.pointer.plus (index * R.size)) := by
      have hlt := (mem_range'_1.mp hindex).2
      have hle : index * R.size ≤ buffer.length * R.size := Nat.mul_le_mul_right R.size (by omega)
      have hroom := h.length_le hobject
      rw [← length_bytes_eq hlayout'] at hroom
      unfold Memory.add
      rw [hobject']
      exact if_pos (by omega)
    refine wp_bind (wp_bind (wp_get (wp_demand hadd ?_)))
    exact hD.weaken (hsame.trans hw) hpart hpartNodup hpartBase h.base_ne_zero

theorem HeaderOwns.wp_forSlots {after : Bool} {last : ℕ} (inside : ℕ → Prop)
    (hD : Destroys R after D) (hw : w.initialized = true)
    (h : HeaderOwns sound w.memory align R buffer base (left ++ (middle ++ right)))
    (hvalid : validateBuffer buffer = .ok ()) (hfirst : left.length = first)
    (hlast : first + middle.length = last)
    (hnodup : (owned base (left ++ (middle ++ right))).Nodup)
    (hbase : p.base ∉ owned base (left ++ (middle ++ right)))
    (hobject : w.memory p.base = some object) :
    wp (forSlots buffer.pointer R.size first last D)
      (fun _ w' => Owners sound w'.memory buffer.pointer (slots R 0 first) left ∧
        Owners sound w'.memory buffer.pointer (slots R last right.length) right ∧
        HeaderOwns false w'.memory align R buffer base
          (left ++ (middle.map (fun _ => []) ++ right)) ∧
        Released w w' p.base inside (owned base (left ++ (middle ++ right)))
          (owned base (left ++ right)))
      (fun status w' => Stopped sound status ∧ ∃ middle',
        HeaderOwns false w'.memory align R buffer base (left ++ (middle' ++ right)) ∧
        Released w w' p.base inside (owned base (left ++ (middle ++ right)))
          (owned base (left ++ (middle' ++ right)))) w := by
  generalize hparts : left ++ (middle ++ right) = parts at h
  cases h with
  | invalid _ hinvalid =>
    rw [hvalid] at hinvalid
    cases hinvalid
  | empty hempty =>
    obtain ⟨rfl, hrest⟩ := append_eq_nil_iff.mp hparts
    obtain ⟨rfl, rfl⟩ := append_eq_nil_iff.mp hrest
    subst hempty hfirst hlast
    exact ⟨.nil, .nil, .empty rfl, .refl hobject⟩
  | block hblock =>
    subst hparts
    refine wp_mono (hblock.wp_forSlots hD hw hfirst hlast hnodup) (fun _ w' h => ?_)
      fun status w' h => ?_
    · obtain ⟨hleft, hright, hblock', hreleased⟩ := h
      exact ⟨hleft, hright, .block hblock', hreleased.outward hobject hbase⟩
    · obtain ⟨hstopped, middle', hblock', hreleased⟩ := h
      exact ⟨hstopped, middle', .block hblock', hreleased.outward hobject hbase⟩

include h

/-- A valid header has a part for each element. -/
theorem HeaderOwns.owners
    (hvalid : validateBuffer buffer = .ok ()) :
    Owners sound m buffer.pointer (slots R 0 buffer.length) parts := by
  cases h with
  | invalid _ hinvalid =>
    rw [hvalid] at hinvalid
    cases hinvalid
  | empty hempty =>
    subst hempty
    exact .nil
  | block hblock => exact hblock.owners

theorem HeaderOwns.length_eq
    (hvalid : validateBuffer buffer = .ok ()) : parts.length = buffer.length := by
  have hlength := (h.owners hvalid).length_eq
  rw [length_slots] at hlength
  exact hlength.symm

omit h

/-- The elements are destroyed, then the block is given back and the header emptied. -/
theorem wp_destroyContents {w : World} {D : Pointer → Call Unit} {after : Bool} {bs : List ℕ}
    (release : Buffer → Call Unit) (hD : Destroys R after D) (hw : w.initialized = true)
    (howns : (Resource.bufferOf align R).Owns sound w.memory p bs) (hnodup : bs.Nodup)
    (hbase : p.base ∉ bs)
    (hrelease : ∀ {w' bytes base parts}, w'.initialized = true →
      w'.memory.read p bufferSize = some bytes →
      HeaderOwns false w'.memory align R (.ofBytes bytes) base parts →
      validateBuffer (.ofBytes bytes) = .ok () → p.base ∉ base →
      wp (release (.ofBytes bytes))
        (fun _ w'' => w''.memory.read p bufferSize = some Buffer.empty.toBytes ∧
          Released w' w'' p.base (p.Window bufferSize) base.toList []) (fun _ _ => False) w') :
    wp (do
        let buffer ← loadBuffer p
        ofExcept (validateBuffer buffer)
        forSlots buffer.pointer R.size 0 buffer.length D
        release buffer)
      (fun _ w' => (Resource.bufferOf align R).Owns true w'.memory p [] ∧
        Released w w' p.base (p.Window bufferSize) bs [])
      (fun status w' => Stopped sound status ∧ ∃ bs',
        (Resource.bufferOf align R).Owns false w'.memory p bs' ∧
        Released w w' p.base (p.Window bufferSize) bs bs') w := by
  obtain ⟨base, parts, ⟨bytes, hread, hheader⟩, rfl⟩ := howns
  obtain ⟨object, hobject, -⟩ := read_eq_some.mp hread
  refine wp_bind (wp_loadBuffer hread ?_)
  refine wp_bind (wp_checked (validateBuffer_checked _).with_eq (fun status h => ?_)
    fun _ hvalid _ => ?_)
  · obtain ⟨hinvalid, hstatus⟩ := h
    exact ⟨⟨hstatus, hheader.not_sound hinvalid⟩, _,
      ⟨base, parts, ⟨bytes, hread, hheader.weaken⟩, rfl⟩, .refl hobject⟩
  · have hlast : 0 + parts.length = (Buffer.ofBytes bytes).length :=
      (Nat.zero_add _).trans (hheader.length_eq hvalid)
    have hparts : [] ++ (parts ++ []) = parts := append_nil parts
    rw [← hparts] at hheader hnodup hbase ⊢
    have hloop := hheader.wp_forSlots (fun _ => False) hD hw hvalid rfl hlast hnodup hbase hobject
    -- the header itself is not touched while the elements are destroyed
    have hsame : ∀ {w' : World} {bs bs'}, Released w w' p.base (fun _ => False) bs bs' →
        w'.memory.read p bufferSize = some bytes := fun h =>
      (h.changed.read fun _ _ h => h).trans hread
    refine wp_bind (wp_mono hloop (fun _ w₁ h => ?_) fun status w₁ h => ?_)
    · obtain ⟨-, -, hheader₁, hreleased⟩ := h
      have hbaseBlock : p.base ∉ base := fun hmem =>
        hbase (mem_append_left _ (Option.mem_toList.mpr hmem))
      refine wp_mono (hrelease (hreleased.initialized.trans hw) (hsame hreleased) hheader₁ hvalid
        hbaseBlock) (fun _ w₂ h => ?_) fun _ _ h => h.elim
      obtain ⟨hempty, hfreed⟩ := h
      refine ⟨Resource.bufferOf_owns_nil hempty,
        (hreleased.mono fun _ h => h.elim).trans ?_ hbase⟩
      unfold owned
      rw [append_nil, flatten_nil, append_nil]
      exact hfreed
    · obtain ⟨hstopped, parts', hheader₁, hreleased⟩ := h
      exact ⟨hstopped, _, ⟨base, _, ⟨bytes, hsame hreleased, hheader₁⟩, rfl⟩,
        hreleased.mono fun _ h => h.elim⟩

/-! ## Destructors of buffers -/

/-- A call that stops at a check has changed nothing. -/
theorem stopped_at {R : Resource} {bs : List ℕ} (howns : R.Owns sound w.memory p bs)
    (hobject : w.memory p.base = some object) (hstatus : status ≠ .ok) (hsound : sound = false) :
    Stopped sound status ∧ ∃ bs', R.Owns false w.memory p bs' ∧
      Released w w p.base (p.Window R.size) bs bs' :=
  ⟨⟨hstatus, hsound⟩, bs, R.weaken howns, .refl hobject⟩

theorem not_isNull (hp : p.base ≠ 0) : ¬ p.isNull := by
  unfold Pointer.isNull Pointer.addr
  omega

theorem wp_begin {w : World} {f : Call Unit} {Q : Unit → World → Prop}
    {E : BufferStatus → World → Prop} (hw : w.initialized = true) (hp : p.base ≠ 0)
    (hf : wp f Q E w) :
    wp (do
      requireInitialized
      requireNotNull p
      f) Q E w := by
  have hinitialized : ¬ w.initialized = false := Bool.not_eq_false _ ▸ hw
  refine wp_bind (wp_bind (wp_get (wp_failIf (fun h => absurd h hinitialized) fun _ => ?_)))
  exact wp_bind (wp_failIf (fun hnull => absurd hnull (not_isNull hp)) fun _ => hf)

variable {layout : Layout}

/-- `buffer_destroy` gives the block back; the elements have been taken care of. -/
theorem bufferDestroy_spec {bytes : List Byte} (hw : w.initialized = true) (hp : p.base ≠ 0)
    (hread : w.memory.read p bufferSize = some bytes)
    (hheader : HeaderOwns sound w.memory align R (.ofBytes bytes) base parts)
    (hvalid : validateBuffer (.ofBytes bytes) = .ok ()) (hbase : p.base ∉ base)
    (hlayout : validateElementLayout R.size align = .ok layout) :
    wp (bufferDestroy p R.size align)
      (fun _ w' => w'.memory.read p bufferSize = some Buffer.empty.toBytes ∧
        Released w w' p.base (p.Window bufferSize) base.toList []) (fun _ _ => False) w := by
  refine wp_begin hw hp (wp_bind (wp_loadBuffer hread ?_))
  refine wp_bind (wp_ofExcept_ok hvalid ?_)
  refine wp_bind (wp_ofExcept_ok hlayout ?_)
  exact wp_release hread hheader hvalid hbase fun _ h => h

theorem destroys_bufferDestroy {align : ℕ}
    (hlayout : validateElementLayout size align = .ok layout) :
    Destroys (.bufferOf align (.scalar size)) true fun p => bufferDestroy p size align := by
  intro sound w p bs hw howns _ hbase hp
  obtain ⟨base, parts, ⟨bytes, hread, hheader⟩, rfl⟩ := id howns
  obtain ⟨object, hobject, -⟩ := read_eq_some.mp hread
  refine wp_begin hw hp (wp_bind (wp_loadBuffer hread ?_))
  refine wp_bind (wp_checked (validateBuffer_checked _).with_eq (fun status h => ?_)
    fun _ hvalid _ => ?_)
  · exact stopped_at howns hobject h.2 (hheader.not_sound h.1)
  refine wp_bind (wp_ofExcept_ok hlayout ?_)
  have hbaseBlock : p.base ∉ base := fun hmem =>
    hbase (mem_append_left _ (Option.mem_toList.mpr hmem))
  refine wp_mono (wp_release (R := .scalar size) hread hheader hvalid hbaseBlock fun _ h => h)
    (fun _ w' h => ?_) fun _ _ h => h
  unfold owned
  rw [flatten_eq_nil_of_scalar hheader, append_nil]
  exact ⟨Resource.bufferOf_owns_nil h.1, h.2⟩

/-! ## Strings -/

theorem valueOfBytes_lt (bytes : List Byte) : valueOfBytes bytes < 256 ^ bytes.length := by
  induction bytes with
  | nil => exact Nat.one_pos
  | cons byte =>
    have hbyte := byte.toNat_lt
    rw [length_cons, Nat.pow_succ]
    unfold valueOfBytes
    omega

theorem valueOfBytes_le {bytes : List Byte} (h : bytes.length ≤ 8) :
    valueOfBytes bytes ≤ u64Max := by
  have hlt := valueOfBytes_lt bytes
  have hle : 256 ^ bytes.length ≤ 256 ^ 8 := Nat.pow_le_pow_right (by decide) h
  have heq : 256 ^ 8 = u64Max + 1 := rfl
  omega

/-- A string and a buffer of bytes have valid headers at the same time. -/
theorem validateStringHeader_checked (bytes : List Byte) :
    Checked (validateStringHeader (.ofBytes bytes))
      (fun _ => validateBuffer (.ofBytes bytes) = .ok ())
      (fun _ => ∃ status, validateBuffer (.ofBytes bytes) = .error status) := by
  have hcapacity : tryFrom (Buffer.ofBytes bytes).capacity = some (Buffer.ofBytes bytes).capacity :=
    if_pos (valueOfBytes_le (length_take_le ..))
  have hlength : tryFrom (Buffer.ofBytes bytes).length = some (Buffer.ofBytes bytes).length :=
    if_pos (valueOfBytes_le (length_take_le ..))
  generalize Buffer.ofBytes bytes = buffer at hcapacity hlength ⊢
  unfold validateStringHeader validateBuffer
  rw [hcapacity, hlength]
  refine checked_ite (fun hlt => checked_error ⟨_, if_pos hlt⟩) fun hlt => ?_
  rw [if_neg hlt]
  refine checked_ite (fun hzero => ?_) fun hzero => ?_
  · rw [if_pos hzero]
    refine checked_ite (fun h => checked_ok (if_pos h.1)) fun h => checked_error ⟨_, if_neg ?_⟩
    exact fun hnull => h ⟨hnull, by omega⟩
  · rw [if_neg hzero]
    refine checked_ite (fun h => checked_error ⟨_, if_pos ?_⟩) fun h => checked_ok (if_neg ?_)
    · obtain h | h | h := h
      · exact h
      · cases h
      · cases h
    · exact fun hnull => h (.inl hnull)

theorem allocatorLayoutInitialized_eq {align : ℕ} (hpos : 0 < size) (hpower : isPowerOfTwo align)
    (hlimit : align ≤ u64Max) (hle : size ≤ 2 ^ 63 - align) :
    allocatorLayoutInitialized size align = .ok ⟨size, align⟩ := by
  have hsize : validatedSize size = .ok size := by
    unfold validatedSize tryFrom u64Max
    rw [if_neg (by omega), if_pos (by omega)]
    rfl
  have halign : tryFrom align = some align := if_pos hlimit
  have hlayout : fromSizeAlign size align = some ⟨size, align⟩ := if_pos hle
  unfold allocatorLayoutInitialized
  rw [hsize, halign]
  show (if isPowerOfTwo align then (fromSizeAlign size align).elim
    (Except.error AllocatorStatus.sizeOverflow) Except.ok
    else Except.error AllocatorStatus.invalidAlignment) = _
  rw [if_pos hpower, hlayout]
  rfl

/-- The layout of a string is that of a buffer of bytes. -/
theorem stringLayout_eq {capacity : ℕ} (h : bufferLayout 1 1 capacity = .ok layout) :
    stringLayout capacity = .ok layout := by
  have hblock := (bufferLayout_checked 1 1 capacity).of_eq_ok h
  have hle := hblock.size_le
  have hpos := hblock.capacity_pos
  rw [hblock.eq]
  rw [Nat.one_mul] at hle ⊢
  unfold stringLayout
  rw [if_neg (by omega), allocatorLayoutInitialized_eq hpos (by decide) (by decide) hle]
  rfl

theorem bufferStatusOfString_ne_ok (status : StringStatus) :
    bufferStatusOfString status ≠ .ok := by
  cases status with
  | _ => exact BufferStatus.noConfusion

theorem destroys_destroyString : Destroys .string true destroyString := by
  intro sound w p bs hw howns _ hbase hp
  obtain ⟨base, parts, ⟨bytes, hread, hheader⟩, rfl⟩ := id howns
  obtain ⟨object, hobject, -⟩ := read_eq_some.mp hread
  apply wp_mapError
  refine wp_bind (wp_get (wp_bind (wp_failIf (fun hnot => ?_) fun _ => ?_)))
  · rw [hw] at hnot
    cases hnot
  refine wp_bind (wp_failIf (fun hnull => absurd hnull (not_isNull hp)) fun _ => ?_)
  refine wp_bind (wp_loadBuffer hread ?_)
  refine wp_bind (wp_checked (validateStringHeader_checked bytes) (fun status h => ?_)
    fun _ _ hvalid => ?_)
  · obtain ⟨_, hinvalid⟩ := h
    exact stopped_at howns hobject (bufferStatusOfString_ne_ok _) (hheader.not_sound hinvalid)
  have hbaseBlock : p.base ∉ base := fun hmem =>
    hbase (mem_append_left _ (Option.mem_toList.mpr hmem))
  refine wp_mono (wp_release (R := .scalar 1) hread hheader hvalid hbaseBlock
    fun _ => stringLayout_eq) (fun _ w' h => ?_) fun _ _ h => h
  unfold owned
  rw [flatten_eq_nil_of_scalar hheader, append_nil]
  exact ⟨Resource.bufferOf_owns_nil h.1, h.2⟩

/-! ## Nested buffers -/

theorem validateElementLayout_header :
    validateElementLayout bufferSize bufferAlign = .ok ⟨bufferSize, bufferAlign⟩ := by decide

theorem destroys_bufferDestroyOwnedString :
    Destroys (.bufferOf bufferAlign .string) true
      fun p => bufferDestroyOwnedString p bufferSize bufferAlign := by
  intro sound w p bs hw howns hnodup hbase hp
  refine wp_bind (wp_bind (wp_get (wp_failIf (fun hnot => ?_) fun _ => ?_)))
  · rw [hw] at hnot
    cases hnot
  refine wp_bind (wp_ofExcept_ok rfl ?_)
  refine wp_bind (wp_failIf (fun hnull => absurd hnull (not_isNull hp)) fun _ => ?_)
  refine wp_destroyContents (R := .string) (fun _ => bufferDestroy p bufferSize bufferAlign)
    destroys_destroyString hw howns hnodup hbase ?_
  intro w' bytes' base' parts' hw' hread' hheader' hvalid hbase'
  exact bufferDestroy_spec hw' hp hread' hheader' hvalid hbase' validateElementLayout_header

variable {leafChecks : Except BufferStatus Unit} {destroyLeaf : Pointer → Call Unit}

/-- One header more. -/
theorem destroys_nested {R : Resource} {depth : ℕ} (hchecks : leafChecks = .ok ())
    (hsize : R.size = bufferSize)
    (helement : Destroys R true fun nested => choose (depth = 0) (destroyLeaf nested)
      (destroyNestedWith leafChecks destroyLeaf depth bufferSize bufferAlign nested)) :
    Destroys (.bufferOf bufferAlign R) true
      (destroyNestedWith leafChecks destroyLeaf (depth + 1) bufferSize bufferAlign) := by
  intro sound w p bs hw howns hnodup hbase hp
  unfold destroyNestedWith
  refine wp_begin hw hp ?_
  refine wp_bind (wp_ofExcept_ok rfl (wp_bind (wp_ofExcept_ok hchecks ?_)))
  have hcontents := wp_destroyContents (fun buffer => do
    releaseBlock buffer R.size bufferAlign
    storeBuffer p .empty) helement hw howns hnodup hbase fun _ hread' hheader' hvalid hbase' =>
      wp_release hread' hheader' hvalid hbase' fun _ h => h
  rw [hsize] at hcontents
  exact hcontents

theorem Resource.size_nested {R : Resource} (hsize : R.size = bufferSize) (depth : ℕ) :
    (R.nested depth).size = bufferSize := by
  cases depth with
  | zero => exact hsize
  | succ => rfl

/-- The destructors of nested buffers, by induction on the depth. -/
theorem destroys_nestedElements {R : Resource} (hchecks : leafChecks = .ok ())
    (hsize : R.size = bufferSize) (hleaf : Destroys R true destroyLeaf) (depth : ℕ) :
    Destroys (R.nested depth) true fun nested => choose (depth = 0) (destroyLeaf nested)
      (destroyNestedWith leafChecks destroyLeaf depth bufferSize bufferAlign nested) := by
  induction depth with
  | zero => exact hleaf
  | succ depth ih => exact destroys_nested hchecks (R.size_nested hsize depth) ih

theorem destroys_destroyChain {R : Resource} {depth : ℕ} (hchecks : leafChecks = .ok ())
    (hsize : R.size = bufferSize) (hleaf : Destroys R true destroyLeaf) (hdepth : depth ≠ 0) :
    Destroys (R.nested (depth - 1)) true (destroyChain leafChecks destroyLeaf depth) := by
  obtain ⟨depth, rfl⟩ := Nat.exists_eq_succ_of_ne_zero hdepth
  have hchain := destroys_nestedElements hchecks hsize hleaf depth
  cases depth with
  | zero => exact hchain
  | succ => exact hchain

end Jadren.Runtime

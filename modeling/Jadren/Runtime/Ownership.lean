import Jadren.Runtime.BufferMoves
import Jadren.Runtime.Destroy
import Mathlib.Data.List.Forall2

/-!
# What a value owns

A `Resource` says which objects the value at a pointer owns: none for a scalar, the block
of a header and what its elements own, the fields of a record together.  It depends only on
the bytes of the value and on the objects it owns.  Headers may be invalid where `strict`
is false; they own nothing then, and the operations stop at them.

`Destroys` is what the destructors of the runtime do for a resource.  The objects that are
owned are given back, each with the layout it was allocated with, and after a failure the
value owns those that have not been: destroying it again does not give one back twice.
-/

namespace Jadren.Runtime

open Program Chunks List

/-! ## Changes inside an object -/

/-- Of the object at `base` only bytes at offsets `inside` have changed. -/
structure ChangedAt (m m' : Memory) (base : ℕ) (inside : ℕ → Prop) : Prop where
  object : ∃ object object', m base = some object ∧ m' base = some object' ∧
    object'.layout = object.layout ∧ ∀ i, ¬ inside i → object'.bytes[i]? = object.bytes[i]?

/-- The offsets of `size` bytes at a pointer. -/
def Pointer.Window (p : Pointer) (size i : ℕ) : Prop := p.offset ≤ i ∧ i < p.offset + size

variable {m m' m'' : Memory} {p q : Pointer} {base count : ℕ} {inside inside' : ℕ → Prop}

theorem ChangedAt.refl {object : Object} (h : m base = some object) : ChangedAt m m base inside :=
  ⟨object, object, h, h, rfl, fun _ _ => rfl⟩

theorem ChangedAt.of_eq {object : Object} (h : m base = some object) (hsame : m' base = m base) :
    ChangedAt m m' base inside :=
  ⟨object, object, h, hsame.trans h, rfl, fun _ _ => rfl⟩

theorem ChangedAt.trans (h : ChangedAt m m' base inside) (h' : ChangedAt m' m'' base inside) :
    ChangedAt m m'' base inside := by
  obtain ⟨object, object₁, hobject, hobject₁, hlayout, hbytes⟩ := h.object
  obtain ⟨object₂, object', hobject₂, hobject', hlayout', hbytes'⟩ := h'.object
  obtain rfl := Option.some.inj (hobject₁.symm.trans hobject₂)
  exact ⟨object, object', hobject, hobject', hlayout'.trans hlayout,
    fun i hi => (hbytes' i hi).trans (hbytes i hi)⟩

theorem ChangedAt.mono (h : ChangedAt m m' base inside) (hinside : ∀ i, inside i → inside' i) :
    ChangedAt m m' base inside' := by
  obtain ⟨object, object', hobject, hobject', hlayout, hbytes⟩ := h.object
  exact ⟨object, object', hobject, hobject', hlayout,
    fun i hi => hbytes i fun h => hi (hinside i h)⟩

theorem length_bytes_eq {object object' : Object} (h : object'.layout = object.layout) :
    object'.bytes.length = object.bytes.length := by
  rw [object'.length_bytes, object.length_bytes, h]

variable {bytes : List Byte}

theorem read_eq_some :
    m.read p count = some bytes ↔ ∃ object, m p.base = some object ∧
      p.offset + count ≤ object.bytes.length ∧ (object.bytes.drop p.offset).take count = bytes := by
  unfold Memory.read
  constructor
  · intro h
    obtain ⟨object, hobject, hread⟩ := Option.bind_eq_some_iff.mp h
    obtain ⟨hle, hbytes⟩ := Option.ite_none_right_eq_some.mp hread
    exact ⟨object, hobject, hle, Option.some.inj hbytes⟩
  · intro h
    obtain ⟨object, hobject, hle, rfl⟩ := h
    rw [hobject]
    exact if_pos hle

theorem read_congr (h : m' p.base = m p.base) : m'.read p count = m.read p count := by
  unfold Memory.read
  rw [h]

/-- What lies outside the change reads as before. -/
theorem ChangedAt.read (h : ChangedAt m m' p.base inside)
    (hclear : ∀ i, p.Window count i → ¬ inside i) : m'.read p count = m.read p count := by
  obtain ⟨object, object', hobject, hobject', hlayout, hbytes⟩ := h.object
  have hpart : (object'.bytes.drop p.offset).take count =
      (object.bytes.drop p.offset).take count := by
    apply ext_getElem?
    intro i
    obtain hi | hi := Nat.lt_or_ge i count
    · rw [getElem?_take_of_lt hi, getElem?_take_of_lt hi, getElem?_drop,
        getElem?_drop]
      exact hbytes _ (hclear _ ⟨Nat.le_add_right .., Nat.add_lt_add_left hi _⟩)
    · rw [getElem?_eq_none (by rw [length_take]; omega),
        getElem?_eq_none (by rw [length_take]; omega)]
  unfold Memory.read
  rw [hobject, hobject']
  simp only [Option.bind_eq_bind, Option.bind_some, length_bytes_eq hlayout, hpart]

theorem exists_write {new : List Byte} (h : m.read p count = some bytes)
    (hnew : new.length = count) :
    ∃ m', m.write p new = some m' ∧ m'.read p count = some new ∧
      ChangedAt m m' p.base (p.Window count) ∧ ∀ base, base ≠ p.base → m' base = m base := by
  obtain ⟨object, hobject, hle, -⟩ := read_eq_some.mp h
  have hfits : p.offset + new.length ≤ object.bytes.length := hnew ▸ hle
  have hlength : (object.bytes.take p.offset).length = p.offset := by
    rw [length_take]
    omega
  refine ⟨m.insert p.base (object.write p.offset new hfits), ?_, ?_, ?_, ?_⟩
  · unfold Memory.write
    rw [hobject]
    exact dif_pos hfits
  · refine read_eq_some.mpr ⟨_, Function.update_self .., ?_, ?_⟩
    · show _ ≤ (overwrite object.bytes p.offset new).length
      rw [length_overwrite hfits]
      exact hle
    · show ((overwrite object.bytes p.offset new).drop p.offset).take count = new
      unfold overwrite
      rw [append_assoc, drop_left' hlength, ← hnew, take_left]
  · refine ⟨object, _, hobject, Function.update_self .., rfl, fun i hi => ?_⟩
    show (overwrite object.bytes p.offset new)[i]? = _
    unfold overwrite
    have hout : i < p.offset ∨ p.offset + new.length ≤ i := by
      unfold Pointer.Window at hi
      omega
    obtain hi | hi := hout
    · rw [append_assoc, getElem?_append_left (by omega), getElem?_take_of_lt hi]
    · rw [getElem?_append_right (by rw [length_append]; omega), getElem?_drop,
        length_append, hlength]
      congr 1
      omega
  · exact fun base hbase => Function.update_of_ne hbase ..

theorem read_part {size offset : ℕ} (h : m.read p size = some bytes)
    (hpart : offset + count ≤ size) :
    m.read (p.plus offset) count = some ((bytes.drop offset).take count) := by
  obtain ⟨object, hobject, hle, rfl⟩ := read_eq_some.mp h
  refine read_eq_some.mpr ⟨object, hobject, ?_, ?_⟩
  · show p.offset + offset + count ≤ _
    omega
  · show (object.bytes.drop (p.offset + offset)).take count = _
    rw [drop_take, drop_drop, take_take, Nat.min_eq_left (by omega)]

theorem length_read (h : m.read p count = some bytes) : bytes.length = count := by
  obtain ⟨object, -, hle, rfl⟩ := read_eq_some.mp h
  rw [length_take, length_drop]
  omega

/-! ## Giving objects back -/

/-- From `w` to `w'` the objects `bs` have been given back but for `bs'`; nothing else has
changed but bytes `inside` the object at `base`. -/
structure Released (w w' : World) (base : ℕ) (inside : ℕ → Prop) (bs bs' : List ℕ) : Prop where
  initialized : w'.initialized = w.initialized
  header : w'.header = w.header
  changed : ChangedAt w.memory w'.memory base inside
  kept : bs'.Sublist bs
  freed : ∀ b ∈ bs, b ∉ bs' → w'.memory b = none
  elsewhere : ∀ b, b ≠ base → b ∉ bs → w'.memory b = w.memory b

namespace Released

variable {w w' w'' : World} {bs bs' bs'' cs : List ℕ}

theorem refl {object : Object} (h : w.memory base = some object) :
    Released w w base inside bs bs :=
  ⟨rfl, rfl, .refl h, .refl bs, fun _ hb hnot => absurd hb hnot, fun _ _ _ => rfl⟩

variable (h : Released w w' base inside bs bs')
include h

theorem trans (h' : Released w' w'' base inside bs' bs'')
    (hbase : base ∉ bs) : Released w w'' base inside bs bs'' := by
  refine ⟨h'.initialized.trans h.initialized, h'.header.trans h.header,
    h.changed.trans h'.changed, h'.kept.trans h.kept, fun b hb hnot => ?_, fun b hb hnot => ?_⟩
  · by_cases hmem : b ∈ bs'
    · exact h'.freed b hmem hnot
    · have hne : b ≠ base := fun heq => hbase (heq ▸ hb)
      exact (h'.elsewhere b hne hmem).trans (h.freed b hb hmem)
  · have hmem : b ∉ bs' := fun hmem => hnot (h.kept.subset hmem)
    exact (h'.elsewhere b hb hmem).trans (h.elsewhere b hb hnot)

theorem mono (hinside : ∀ i, inside i → inside' i) :
    Released w w' base inside' bs bs' :=
  ⟨h.initialized, h.header, h.changed.mono hinside, h.kept, h.freed, h.elsewhere⟩

theorem append_left :
    Released w w' base inside (cs ++ bs) (cs ++ bs') := by
  refine ⟨h.initialized, h.header, h.changed, h.kept.append_left cs, fun b hb hnot => ?_,
    fun b hb hnot => ?_⟩
  · rw [mem_append] at hb hnot
    exact h.freed b (by tauto) (by tauto)
  · rw [mem_append] at hnot
    exact h.elsewhere b hb (by tauto)

theorem append_right :
    Released w w' base inside (bs ++ cs) (bs' ++ cs) := by
  refine ⟨h.initialized, h.header, h.changed, h.kept.append_right cs, fun b hb hnot => ?_,
    fun b hb hnot => ?_⟩
  · rw [mem_append] at hb hnot
    exact h.freed b (by tauto) (by tauto)
  · rw [mem_append] at hnot
    exact h.elsewhere b hb (by tauto)

omit h

/-- A change inside a block, seen from the owner of the block. -/
theorem outward {b : ℕ} (h : Released w w' b inside bs bs') {object : Object}
    (hobject : w.memory base = some object) (hbase : base ∉ b :: bs) :
    Released w w' base inside' (b :: bs) (b :: bs') := by
  obtain ⟨hne, hnot⟩ := ne_and_not_mem_of_not_mem_cons hbase
  refine ⟨h.initialized, h.header, .of_eq hobject (h.elsewhere base hne hnot), h.kept.cons_cons b,
    fun c hc hkept => ?_, fun c _ hc => ?_⟩
  · obtain ⟨hcb, hckept⟩ := ne_and_not_mem_of_not_mem_cons hkept
    exact h.freed c ((mem_cons.mp hc).resolve_left hcb) hckept
  · obtain ⟨hcb, hcbs⟩ := ne_and_not_mem_of_not_mem_cons hc
    exact h.elsewhere c hcb hcbs

end Released

/-! ## Resources -/

/-- What lies in `size` bytes, and the objects it owns.  Where it is not `sound`, headers in
it may be invalid. -/
structure Resource where
  size : ℕ
  Owns : Bool → Memory → Pointer → List ℕ → Prop
  weaken : ∀ {sound m p bs}, Owns sound m p bs → Owns false m p bs
  congr : ∀ {sound m m' p q bs}, Owns sound m p bs → m'.read q size = m.read p size →
    (∀ b ∈ bs, m' b = m b) → Owns sound m' q bs

/-- Bytes that own nothing. -/
def Resource.scalar (size : ℕ) : Resource where
  size := size
  Owns _ _ _ bs := bs = []
  weaken h := h
  congr h _ _ := h

/-- A resource at an offset. -/
structure Site where
  offset : ℕ
  resource : Resource

def Site.Window (site : Site) (i : ℕ) : Prop :=
  site.offset ≤ i ∧ i < site.offset + site.resource.size

/-- The two have no byte in common. -/
def Site.Apart (a b : Site) : Prop := ∀ i, a.Window i → ¬ b.Window i

/-- The resources at the sites own the parts. -/
def Owners (sound : Bool) (m : Memory) (p : Pointer) (sites : List Site) (parts : List (List ℕ)) :
    Prop :=
  Forall₂ (fun site part => site.resource.Owns sound m (p.plus site.offset) part) sites parts

/-- The offsets of the bytes at the sites. -/
def Covered (p : Pointer) (sites : List Site) (i : ℕ) : Prop :=
  ∃ site ∈ sites, (p.plus site.offset).Window site.resource.size i

section Owners

variable {sound : Bool} {sites : List Site} {parts : List (List ℕ)}

theorem Owners.weaken (h : Owners sound m p sites parts) : Owners false m p sites parts :=
  Forall₂.imp (fun site _ h => site.resource.weaken h) h

theorem Owners.congr (h : Owners sound m p sites parts)
    (hread : ∀ site ∈ sites, m'.read (q.plus site.offset) site.resource.size =
      m.read (p.plus site.offset) site.resource.size)
    (hsame : ∀ b ∈ parts.flatten, m' b = m b) : Owners sound m' q sites parts := by
  induction h with
  | nil => exact .nil
  | @cons site part sites parts hsite _ ih =>
    rw [flatten_cons] at hsame
    refine .cons ?_ ?_
    · exact site.resource.congr hsite (hread site mem_cons_self) fun b hb =>
        hsame b (mem_append_left _ hb)
    · exact ih (fun site hsite => hread site (mem_cons_of_mem _ hsite)) fun b hb =>
        hsame b (mem_append_right _ hb)

/-- What is owned by resources apart from a change stays so. -/
theorem Owners.frame (h : Owners sound m p sites parts) (hchanged : ChangedAt m m' p.base inside)
    (hclear : ∀ i, Covered p sites i → ¬ inside i) (hsame : ∀ b ∈ parts.flatten, m' b = m b) :
    Owners sound m' p sites parts :=
  h.congr (fun site hsite => ChangedAt.read (p := p.plus site.offset) hchanged
    fun i hi => hclear i ⟨site, hsite, hi⟩) hsame

end Owners

/-! ## Destructors -/

/-- A call has failed: it has found an invalid header. -/
structure Stopped (sound : Bool) (status : BufferStatus) : Prop where
  status_ne_ok : status ≠ .ok
  not_sound : sound = false

/-- The program gives back what the resource at a pointer owns, and leaves a resource that
owns nothing; where it fails, the resource owns what has not been given back. -/
def Destroys (R : Resource) (after : Bool) (D : Pointer → Call Unit) : Prop :=
  ∀ ⦃sound w p bs⦄, w.initialized = true → R.Owns sound w.memory p bs → bs.Nodup →
    p.base ∉ bs → p.base ≠ 0 →
    wp (D p)
      (fun _ w' => R.Owns after w'.memory p [] ∧ Released w w' p.base (p.Window R.size) bs [])
      (fun status w' => Stopped sound status ∧ ∃ bs', R.Owns false w'.memory p bs' ∧
        Released w w' p.base (p.Window R.size) bs bs') w

theorem Destroys.weaken {R : Resource} {after : Bool} {D : Pointer → Call Unit}
    (h : Destroys R after D) : Destroys R false D := fun _ _ _ _ hw howns hnodup hbase hne =>
  wp_mono (h hw howns hnodup hbase hne) (fun _ _ h => ⟨R.weaken h.1, h.2⟩) fun _ _ h => h

section Loop

variable {ι : Type} {sound : Bool}

/-- What the body of a loop does for one entry. -/
def DestroysSite (sound : Bool) (body : Call Unit) (site : Site) (p : Pointer) (w : World) :
    Prop :=
  ∀ ⦃part⦄, site.resource.Owns sound w.memory (p.plus site.offset) part → part.Nodup →
    p.base ∉ part →
    wp body
      (fun _ w' => site.resource.Owns false w'.memory (p.plus site.offset) [] ∧
        Released w w' p.base ((p.plus site.offset).Window site.resource.size) part [])
      (fun status w' => Stopped sound status ∧
        ∃ part', site.resource.Owns false w'.memory (p.plus site.offset) part' ∧
          Released w w' p.base ((p.plus site.offset).Window site.resource.size) part part') w

variable {a : Site} {sites : List Site}

theorem covered_head {p : Pointer} (i : ℕ) (h : (p.plus a.offset).Window a.resource.size i) :
    Covered p (a :: sites) i :=
  ⟨a, mem_cons_self, h⟩

theorem covered_tail {p : Pointer} (i : ℕ) (h : Covered p sites i) : Covered p (a :: sites) i := by
  obtain ⟨b, hb, hi⟩ := h
  exact ⟨b, mem_cons_of_mem _ hb, hi⟩

theorem not_covered_of_apart {p : Pointer} (hapart : ∀ b ∈ sites, a.Apart b) (i : ℕ)
    (hi : (p.plus a.offset).Window a.resource.size i) : ¬ Covered p sites i := by
  intro h
  obtain ⟨b, hb, hbi⟩ := h
  simp only [Pointer.Window, Pointer.plus] at hi hbi
  refine hapart b hb (i - p.offset) ?_ ?_
  · unfold Site.Window
    omega
  · unfold Site.Window
    omega

/-- The rule of a loop that destroys the resources at sites apart from each other. -/
theorem wp_forEach_sites (site : ι → Site) (body : ι → Call Unit) {xs : List ι} {p : Pointer}
    {w : World} {parts : List (List ℕ)}
    {object : Object} (hobject : w.memory p.base = some object)
    (howners : Owners sound w.memory p (xs.map site) parts) (hnodup : parts.flatten.Nodup)
    (hbase : p.base ∉ parts.flatten) (hapart : (xs.map site).Pairwise Site.Apart)
    (hbody : ∀ x ∈ xs, ∀ w', ChangedAt w.memory w'.memory p.base (Covered p (xs.map site)) →
      w'.initialized = w.initialized → DestroysSite sound (body x) (site x) p w') :
    wp (forEach body xs)
      (fun _ w' => Owners false w'.memory p (xs.map site) (xs.map fun _ => []) ∧
        Released w w' p.base (Covered p (xs.map site)) parts.flatten [])
      (fun status w' => Stopped sound status ∧ ∃ parts',
        Owners false w'.memory p (xs.map site) parts' ∧
        Released w w' p.base (Covered p (xs.map site)) parts.flatten parts'.flatten) w := by
  induction xs generalizing w parts object with
  | nil =>
    cases howners
    exact ⟨.nil, .refl hobject⟩
  | cons x xs ih =>
    obtain ⟨part, rest, hx, hxs, rfl⟩ := forall₂_cons_left_iff.mp howners
    rw [flatten_cons] at hnodup hbase ⊢
    rw [map_cons] at hbody hapart ⊢
    obtain ⟨hxapart, hrest⟩ := pairwise_cons.mp hapart
    obtain ⟨hpart, hrestNodup, hdisjoint⟩ := nodup_append.mp hnodup
    have hbasePart : p.base ∉ part := fun h => hbase (mem_append_left _ h)
    have hbaseRest : p.base ∉ rest.flatten := fun h => hbase (mem_append_right _ h)
    -- the other sites do not notice what happens at the first one
    have hframe : ∀ {w' : World} {part'}, Released w w' p.base
        ((p.plus (site x).offset).Window (site x).resource.size) part part' →
        Owners sound w'.memory p (xs.map site) rest := by
      intro w' part' hreleased
      apply Owners.frame hxs hreleased.changed
      · exact fun i hi hin => not_covered_of_apart hxapart i hin hi
      · exact fun b hb => hreleased.elsewhere b (fun heq => hbaseRest (heq ▸ hb))
          fun hbpart => hdisjoint b hbpart b hb rfl
    have hstep := hbody x mem_cons_self w (.refl hobject) rfl hx hpart hbasePart
    unfold forEach
    refine wp_bind (wp_mono hstep (fun _ w₁ h => ?_) fun status w₁ h => ?_)
    · obtain ⟨hx₁, hreleased⟩ := h
      obtain ⟨-, object₁, -, hobject₁, -⟩ := hreleased.changed.object
      have hchanged : ChangedAt w.memory w₁.memory p.base (Covered p (site x :: xs.map site)) :=
        hreleased.changed.mono covered_head
      have hloop := ih hobject₁ (hframe hreleased) hrestNodup hbaseRest hrest
        fun y hy w' hw' hinitialized => hbody y (mem_cons_of_mem _ hy) w'
          (hchanged.trans (hw'.mono covered_tail)) (hinitialized.trans hreleased.initialized)
      -- nor does the first one what happens at the others
      have hkeep : ∀ {w' : World} {bs bs' : List ℕ}, Released w₁ w' p.base
          (Covered p (xs.map site)) bs bs' →
          (site x).resource.Owns false w'.memory (p.plus (site x).offset) [] := fun hlater =>
        (site x).resource.congr hx₁ (ChangedAt.read (p := p.plus _) hlater.changed
          (not_covered_of_apart hxapart)) fun b hb => (not_mem_nil hb).elim
      have hfirst : Released w w₁ p.base (Covered p (site x :: xs.map site)) (part ++ rest.flatten)
          rest.flatten := hreleased.append_right.mono covered_head
      refine wp_mono hloop (fun _ w₂ h => ?_) fun status w₂ h => ?_
      · obtain ⟨hxs₂, hlater⟩ := h
        exact ⟨.cons (hkeep hlater) hxs₂, hfirst.trans (hlater.mono covered_tail) hbase⟩
      · obtain ⟨hstopped, rest', hxs₂, hlater⟩ := h
        exact ⟨hstopped, [] :: rest', .cons (hkeep hlater) hxs₂,
          hfirst.trans (hlater.mono covered_tail) hbase⟩
    · obtain ⟨hstopped, part', hx₁, hreleased⟩ := h
      exact ⟨hstopped, part' :: rest, .cons hx₁ (Owners.weaken (hframe hreleased)),
        hreleased.append_right.mono covered_head⟩

end Loop

end Jadren.Runtime

import Jadren.Library.BitFields

/-!
# Packed tag paths

The field tables of enum carriers hold a path of tags in one word: the tag of the outer enum and
those of the carriers inside.  There are three formats.  Up to one inner tag stands in the low half
of the word with the outer tag above it, two inner tags have twenty bits each, and longer paths
have a byte for every tag and their length in the top byte.

The formats are told apart by the four top bits, which read `10..`, `110.` and `1110`.  A word with
all bits set, and a word whose top bits read `01`, mean something else.
-/

namespace Jadren.Jir

open BitFields (field)
open List Option

/-! ### Markers -/

def enumCarrierFieldNestedTagMarker : BitVec 64 := 1#64 <<< 63
def enumCarrierFieldNoInnerTag : BitVec 32 := BitVec.allOnes 32
def enumCarrierFieldMultiTagMarker : BitVec 64 := 3#64 <<< 62
def enumCarrierFieldMultiTagMask : BitVec 32 := (1#32 <<< 20) - 1
def enumCarrierFieldPathMarkerBase : BitVec 64 := 0xe0#64 <<< 56
def enumCarrierFieldPathMaxTags : ℕ := 7
def recordFieldNamedEnumTagMarker : BitVec 64 := 1#64 <<< 62
def recordFieldNamedEnumTagDistanceMask : BitVec 64 := (1#64 <<< 30) - 1
def recordFieldUnconditional : BitVec 64 := BitVec.allOnes 64

/-- `u64::from` of a tag. -/
def widen (tag : BitVec 32) : BitVec 64 := tag.setWidth 64

/-! ### Packing -/

def packEnumCarrierFieldVariant (outer : BitVec 32) (inner : Option (BitVec 32)) :
    Option (BitVec 64) :=
  if outer < 1#32 <<< 30 then
    some (enumCarrierFieldNestedTagMarker ||| (widen outer <<< 32) |||
      widen (inner.getD enumCarrierFieldNoInnerTag))
  else none

/-- The inner tags of a long path, a byte each, from the high ones to the low ones. -/
def packTags (tagCount : ℕ) : ℕ → List (BitVec 32) → BitVec 64 → Option (BitVec 64)
  | _, [], path => some path
  | index, tag :: rest, path =>
      if tag > 255 then none
      else
        packTags tagCount (index + 1) rest (path ||| (widen tag <<< (8 * (tagCount - index - 2))))

/-- A path with a byte for every tag. -/
def packLongPath (outer : BitVec 32) (tags : List (BitVec 32)) : Option (BitVec 64) :=
  if 2 ≤ tags.length ∧ tags.length < enumCarrierFieldPathMaxTags then
    let tagCount := tags.length + 1
    let path := enumCarrierFieldPathMarkerBase ||| (BitVec.ofNat 64 tagCount <<< 56)
    if outer > 255 then none
    else packTags tagCount 0 tags (path ||| (widen outer <<< (8 * (tagCount - 1))))
  else none

def packEnumCarrierFieldPath (outer : BitVec 32) : List (BitVec 32) → Option (BitVec 64)
  | [] => packEnumCarrierFieldVariant outer none
  | [inner] => packEnumCarrierFieldVariant outer (some inner)
  | [first, second] =>
      if outer ≤ enumCarrierFieldMultiTagMask ∧ first ≤ enumCarrierFieldMultiTagMask ∧
          second ≤ enumCarrierFieldMultiTagMask then
        some (enumCarrierFieldMultiTagMarker ||| (widen outer <<< 41) ||| (widen first <<< 21) |||
          (widen second <<< 1))
      else packLongPath outer [first, second]
  | tags => packLongPath outer tags

def packRecordNamedEnumFieldVariant (variant : BitVec 32) (payloadOffset : BitVec 64) :
    Option (BitVec 64) :=
  if payloadOffset = 0 ∨ payloadOffset % 8 ≠ 0 then none
  else
    let distanceWords := payloadOffset / 8
    if distanceWords ≤ recordFieldNamedEnumTagDistanceMask then
      some (recordFieldNamedEnumTagMarker ||| (distanceWords <<< 32) ||| widen variant)
    else none

/-! ### Reading -/

def unpackEnumCarrierFieldPath (variant : BitVec 64) : Option (List (BitVec 32)) :=
  let pathPrefixMask := 0xf0#64 <<< 56
  if variant &&& pathPrefixMask = enumCarrierFieldPathMarkerBase then
    let tagCount := ((variant >>> 56) &&& 0x0f).toNat
    if 2 ≤ tagCount ∧ tagCount ≤ enumCarrierFieldPathMaxTags then
      some ((range tagCount).map fun index =>
        ((variant >>> (8 * (tagCount - index - 1))) &&& 0xff).setWidth 32)
    else none
  else if variant &&& (3#64 <<< 62) = enumCarrierFieldMultiTagMarker then
    let mask := widen enumCarrierFieldMultiTagMask
    some [((variant >>> 41) &&& mask).setWidth 32, ((variant >>> 21) &&& mask).setWidth 32,
      ((variant >>> 1) &&& mask).setWidth 32]
  else if variant &&& enumCarrierFieldNestedTagMarker ≠ 0 then
    let outer : BitVec 32 := ((variant >>> 32) &&& 0x7fffffff).setWidth 32
    let inner : BitVec 32 := (variant &&& widen (BitVec.allOnes 32)).setWidth 32
    if inner = enumCarrierFieldNoInnerTag then some [outer] else some [outer, inner]
  else none

/-- How the runtime recognises the named-enum marker of a record field. -/
def IsRecordNamedEnum (variant : BitVec 64) : Prop :=
  variant &&& recordFieldNamedEnumTagMarker ≠ 0 ∧
    variant &&& enumCarrierFieldMultiTagMarker ≠ enumCarrierFieldMultiTagMarker

/-! ### The top bits of the formats -/

theorem toNat_widen (tag : BitVec 32) : (widen tag).toNat = tag.toNat := by
  rw [widen, BitVec.toNat_setWidth]
  exact Nat.mod_eq_of_lt (lt_trans tag.isLt (by decide))

theorem setWidth_widen (tag : BitVec 32) : (widen tag).setWidth 32 = tag := by
  rw [widen, BitVec.setWidth_setWidth_of_le _ (by decide), BitVec.setWidth_eq]

/-- The formats a word can be read in, by its top bits. -/
inductive TagFormat where
  | nested
  | multi
  | path
  deriving DecidableEq

/-- What the top bits of a format read. -/
def TagFormat.Marks : TagFormat → BitVec 64 → Prop
  | .nested, variant => field variant 62 2 = 2
  | .multi, variant => field variant 61 3 = 6
  | .path, variant => field variant 60 4 = 14

variable {variant : BitVec 64}

theorem prefix_iff :
    variant &&& (0xf0#64 <<< 56) = enumCarrierFieldPathMarkerBase ↔ field variant 60 4 = 14 := by
  have hmask : 0xf0#64 <<< 56 = BitVec.ofNat 64 (2 ^ 4 - 1) <<< 60 := by decide
  have hbase : enumCarrierFieldPathMarkerBase = 14#64 <<< 60 := by decide
  rw [hmask, hbase]
  exact BitFields.and_mask_eq_iff variant 14 60 4 (by decide) (by decide)

theorem multi_iff :
    variant &&& (3#64 <<< 62) = enumCarrierFieldMultiTagMarker ↔ field variant 62 2 = 3 := by
  have hmask : 3#64 <<< 62 = BitVec.ofNat 64 (2 ^ 2 - 1) <<< 62 := by decide
  rw [enumCarrierFieldMultiTagMarker, hmask]
  exact BitFields.and_mask_eq_iff variant 3 62 2 (by decide) (by decide)

theorem bit_iff {marker : BitVec 64} {place : ℕ}
    (hmarker : marker = BitVec.ofNat 64 (2 ^ 1 - 1) <<< place) (hfit : place + 1 ≤ 64) :
    variant &&& marker = 0 ↔ field variant place 1 = 0 := by
  rw [hmarker]
  have h := BitFields.and_mask_eq_iff variant 0#64 place 1 (by decide) hfit
  rw [BitVec.zero_shiftLeft] at h
  exact h

theorem nested_iff : variant &&& enumCarrierFieldNestedTagMarker = 0 ↔ field variant 63 1 = 0 :=
  bit_iff (by decide) (by decide)

theorem recordNamed_iff : variant &&& recordFieldNamedEnumTagMarker = 0 ↔ field variant 62 1 = 0 :=
  bit_iff (by decide) (by decide)

namespace TagFormat.Marks

variable {format : TagFormat} {variant : BitVec 64}

/-- The two top bits are both set in the formats for longer paths. -/
theorem high (h : format.Marks variant) (hne : format ≠ .nested) : field variant 62 2 = 3 := by
  cases format with
  | nested => exact absurd rfl hne
  | multi =>
      rw [show (62 : ℕ) = 61 + 1 from rfl, ← BitFields.field_field variant 3 (by decide), h]
      decide
  | path =>
      rw [show (62 : ℕ) = 60 + 2 from rfl, ← BitFields.field_field variant 4 (by decide), h]
      decide

/-- A word of one of the formats has not all bits set. -/
theorem ne_unconditional (h : format.Marks variant) : variant ≠ recordFieldUnconditional := by
  rintro rfl
  cases format with
  | nested => exact absurd (show field recordFieldUnconditional 62 2 = 2 from h) (by decide)
  | multi => exact absurd (show field recordFieldUnconditional 61 3 = 6 from h) (by decide)
  | path => exact absurd (show field recordFieldUnconditional 60 4 = 14 from h) (by decide)

theorem not_isRecordNamedEnum (h : format.Marks variant) : ¬ IsRecordNamedEnum variant := by
  intro hrecord
  by_cases hnested : format = .nested
  · subst hnested
    apply hrecord.1
    rw [recordNamed_iff, show (62 : ℕ) = 62 + 0 from rfl,
      ← BitFields.field_field variant 2 (by decide), h]
    decide
  · exact hrecord.2 (multi_iff.mpr (h.high hnested))

/-- Only one of the formats is tried with success. -/
theorem unpack_eq {format : TagFormat} {variant : BitVec 64} (h : format.Marks variant) :
    unpackEnumCarrierFieldPath variant =
      match format with
      | .path =>
          let tagCount := ((variant >>> 56) &&& 0x0f).toNat
          if 2 ≤ tagCount ∧ tagCount ≤ enumCarrierFieldPathMaxTags then
            some ((range tagCount).map fun index =>
              (field variant (8 * (tagCount - index - 1)) 8).setWidth 32)
          else none
      | .multi =>
          some [(field variant 41 20).setWidth 32, (field variant 21 20).setWidth 32,
            (field variant 1 20).setWidth 32]
      | .nested =>
          if (field variant 0 32).setWidth 32 = enumCarrierFieldNoInnerTag then
            some [(field variant 32 31).setWidth 32]
          else some [(field variant 32 31).setWidth 32, (field variant 0 32).setWidth 32] := by
  unfold unpackEnumCarrierFieldPath
  simp only [prefix_iff, multi_iff, ne_eq, nested_iff]
  -- the marks are the high bits; a longer mark excludes the shorter ones
  cases format with
  | path =>
      rw [if_pos (show field variant 60 4 = 14 from h)]
      rfl
  | multi =>
      have hpath : field variant 60 4 ≠ 14 := by
        intro hpath
        have hthree : field variant 61 3 = 7 := by
          rw [show (61 : ℕ) = 60 + 1 from rfl,
            ← BitFields.field_field variant 4 (by decide), hpath]
          decide
        exact absurd (hthree.symm.trans h) (by decide)
      rw [if_neg hpath, if_pos (h.high (by decide))]
      rfl
  | nested =>
      have hmulti : field variant 62 2 ≠ 3 := fun hmulti =>
        absurd (hmulti.symm.trans h) (by decide)
      have hpath : field variant 60 4 ≠ 14 := by
        intro hpath
        exact hmulti ((show TagFormat.path.Marks variant from hpath).high (by decide))
      have hset : field variant 63 1 ≠ 0 := by
        rw [show (63 : ℕ) = 62 + 1 from rfl,
          ← BitFields.field_field variant 2 (by decide), h]
        decide
      rw [if_neg hpath, if_neg hmulti, if_pos hset]
      have hlow : variant &&& widen (BitVec.allOnes 32) = field variant 0 32 := by
        rw [field, BitVec.ushiftRight_zero]
        rfl
      simp only [hlow]
      rfl

end TagFormat.Marks

/-! ### What the formats hold -/

theorem or_zero (a : BitVec 64) : a ||| 0#64 = a := by simp

theorem zero_or (a : BitVec 64) : 0#64 ||| a = a := by simp

theorem widen_lt {tag : BitVec 32} {width : ℕ} (h : tag.toNat < 2 ^ width) :
    (widen tag).toNat < 2 ^ width := by rwa [toNat_widen]

variable {outer : BitVec 32}

theorem packVariant_spec {inner : Option (BitVec 32)}
    (h : packEnumCarrierFieldVariant outer inner = some variant) :
    TagFormat.nested.Marks variant ∧ field variant 32 31 = widen outer ∧
      field variant 0 32 = widen (inner.getD enumCarrierFieldNoInnerTag) := by
  rw [packEnumCarrierFieldVariant] at h
  split at h
  · rename_i hlt
    obtain rfl := some.inj h
    have houter : (widen outer).toNat < 2 ^ 30 := widen_lt (BitVec.lt_def.mp hlt)
    have hinner : (widen (inner.getD enumCarrierFieldNoInnerTag)).toNat < 2 ^ 32 :=
      widen_lt (BitVec.isLt _)
    refine ⟨?_, ?_, ?_⟩
    · show field _ 62 2 = 2
      rw [BitFields.field_or, BitFields.field_or,
        BitFields.field_place_of_disjoint houter (.inl (by decide)),
        BitFields.field_low hinner (by decide), or_zero, or_zero]
      decide
    · have hmarker : field enumCarrierFieldNestedTagMarker 32 31 = 0#64 := by decide
      have houter' : (widen outer).toNat < 2 ^ 31 := lt_trans houter (by decide)
      rw [BitFields.field_or, BitFields.field_or, hmarker,
        BitFields.field_place houter' (by decide),
        BitFields.field_low hinner (by decide), or_zero, zero_or]
    · have hmarker : field enumCarrierFieldNestedTagMarker 0 32 = 0#64 := by decide
      rw [BitFields.field_or, BitFields.field_or, hmarker,
        BitFields.field_place_of_disjoint houter (.inr (by decide)),
        BitFields.field_zero hinner (by decide), or_zero, zero_or]
  · cases h

theorem packMulti_spec {first second : BitVec 32} (houter : outer ≤ enumCarrierFieldMultiTagMask)
    (hfirst : first ≤ enumCarrierFieldMultiTagMask)
    (hsecond : second ≤ enumCarrierFieldMultiTagMask)
    (h : variant = enumCarrierFieldMultiTagMarker ||| (widen outer <<< 41) |||
      (widen first <<< 21) ||| (widen second <<< 1)) :
    TagFormat.multi.Marks variant ∧ field variant 41 20 = widen outer ∧
      field variant 21 20 = widen first ∧ field variant 1 20 = widen second := by
  have hlt : ∀ {tag : BitVec 32}, tag ≤ enumCarrierFieldMultiTagMask →
      (widen tag).toNat < 2 ^ 20 := by
    intro tag htag
    have hle : tag.toNat ≤ 2 ^ 20 - 1 := BitVec.le_def.mp htag
    exact widen_lt (by omega)
  have hmarker : ∀ low : ℕ, low + 20 ≤ 62 → field enumCarrierFieldMultiTagMarker low 20 = 0#64 := by
    intro low hlow
    have hthree : (3#64).toNat < 2 ^ 2 := by decide
    exact BitFields.field_place_of_disjoint hthree (.inr hlow)
  rw [h]
  simp only [BitFields.field_or]
  refine ⟨?_, ?_, ?_, ?_⟩
  · show field _ 61 3 = 6
    rw [BitFields.field_or, BitFields.field_or, BitFields.field_or,
      BitFields.field_place_of_disjoint (hlt houter) (.inl (by decide)),
      BitFields.field_place_of_disjoint (hlt hfirst) (.inl (by decide)),
      BitFields.field_place_of_disjoint (hlt hsecond) (.inl (by decide)), or_zero, or_zero, or_zero]
    decide
  · rw [BitFields.field_place (hlt houter) (by decide), hmarker 41 (by decide),
      BitFields.field_place_of_disjoint (hlt hfirst) (.inl (by decide)),
      BitFields.field_place_of_disjoint (hlt hsecond) (.inl (by decide)), or_zero, or_zero, zero_or]
  · rw [BitFields.field_place (hlt hfirst) (by decide), hmarker 21 (by decide),
      BitFields.field_place_of_disjoint (hlt houter) (.inr (by decide)),
      BitFields.field_place_of_disjoint (hlt hsecond) (.inl (by decide)), or_zero, or_zero, zero_or]
  · rw [BitFields.field_place (hlt hsecond) (by decide), hmarker 1 (by decide),
      BitFields.field_place_of_disjoint (hlt houter) (.inr (by decide)),
      BitFields.field_place_of_disjoint (hlt hfirst) (.inr (by decide)), or_zero, or_zero, zero_or]

variable {tags : List (BitVec 32)}

/-- The loop over the tags writes one byte for each, and nothing above them. -/
theorem packTags_spec {tagCount index : ℕ} {path : BitVec 64}
    (hcount : tagCount = index + tags.length + 1) (hlength : tags.length ≤ 7)
    (h : packTags tagCount index tags path = some variant)
    (hempty : ∀ k < tags.length, field path (8 * k) 8 = 0#64) :
    (∀ low width, 8 * tags.length ≤ low → field variant low width = field path low width) ∧
      (range tags.length).map (fun j => field variant (8 * (tags.length - j - 1)) 8) =
        tags.map widen := by
  -- the bytes are written from the top down
  induction tags generalizing index path with
  | nil =>
      obtain rfl := some.inj h
      exact ⟨fun _ _ _ => rfl, rfl⟩
  | cons tag rest ih =>
      rw [packTags] at h
      split at h
      · cases h
      · rename_i hbyte
        have hlt : (widen tag).toNat < 2 ^ 8 := by
          have hle : tag.toNat ≤ 255 := BitVec.le_def.mp (BitVec.not_lt.mp hbyte)
          exact widen_lt (by omega)
        rw [length_cons] at hcount hlength
        have hplace : tagCount - index - 2 = rest.length := by omega
        rw [hplace] at h
        have hbelow : ∀ k < rest.length,
            field (path ||| widen tag <<< (8 * rest.length)) (8 * k) 8 = 0#64 := by
          intro k hk
          rw [BitFields.field_or, hempty k (by rw [length_cons]; omega),
            BitFields.field_place_of_disjoint hlt (.inr (by omega)), or_zero]
        obtain ⟨habove, hbytes⟩ := ih (by omega) (by omega) h hbelow
        constructor
        · intro low width hlow
          rw [length_cons] at hlow
          rw [habove low width (by omega), BitFields.field_or,
            BitFields.field_place_of_disjoint hlt (.inl (by omega)), or_zero]
        · -- the byte of this tag, then those of the rest
          rw [length_cons, range_succ_eq_map, List.map_cons, List.map_cons, List.map_map]
          have hhead : field variant (8 * rest.length) 8 = widen tag := by
            rw [habove _ _ le_rfl, BitFields.field_or,
              hempty rest.length (by rw [length_cons]; omega), zero_or,
              BitFields.field_place hlt (by omega)]
          refine congrArg₂ _ (by simpa using hhead) ?_
          rw [← hbytes]
          refine map_congr_left fun j _ => ?_
          show field variant (8 * (rest.length + 1 - (j + 1) - 1)) 8 = _
          rw [show rest.length + 1 - (j + 1) - 1 = rest.length - j - 1 by omega]

theorem packTags_shift (tagCount index : ℕ) (tags : List (BitVec 32)) (path : BitVec 64) :
    packTags (tagCount + 1) (index + 1) tags path = packTags tagCount index tags path := by
  induction tags generalizing index path with
  | nil => rfl
  | cons tag rest ih =>
      rw [packTags, packTags, ih]
      rw [show tagCount + 1 - (index + 1) - 2 = tagCount - index - 2 by omega]

/-- The top byte of a long path has the marker and the number of its tags. -/
theorem field_header {tagCount : ℕ} (h : tagCount < 8) :
    let header := enumCarrierFieldPathMarkerBase ||| (BitVec.ofNat 64 tagCount <<< 56)
    field header 60 4 = 14#64 ∧ field header 56 4 = BitVec.ofNat 64 tagCount ∧
      ∀ k < 7, field header (8 * k) 8 = 0#64 := by
  have hcount : (BitVec.ofNat 64 tagCount).toNat < 2 ^ 4 := by
    rw [BitVec.toNat_ofNat, Nat.mod_eq_of_lt (by omega)]
    omega
  have hbase : (0xe0#64).toNat < 2 ^ 8 := by decide
  refine ⟨?_, ?_, fun k hk => ?_⟩
  · rw [BitFields.field_or, BitFields.field_place_of_disjoint hcount (.inl (by decide)), or_zero]
    decide
  · rw [BitFields.field_or, BitFields.field_place hcount (by decide),
      show field enumCarrierFieldPathMarkerBase 56 4 = 0#64 by decide, zero_or]
  · rw [BitFields.field_or, BitFields.field_place_of_disjoint hcount (.inr (by omega)), or_zero]
    exact BitFields.field_place_of_disjoint hbase (.inr (by omega))

/-- A long path: its length in the top byte, and a byte for each tag. -/
theorem packLongPath_spec (h : packLongPath outer tags = some variant) :
    TagFormat.path.Marks variant ∧ 2 ≤ tags.length ∧ tags.length < 7 ∧
      ((variant >>> 56) &&& 0x0f).toNat = tags.length + 1 ∧
      (range (tags.length + 1)).map
        (fun index => field variant (8 * (tags.length + 1 - index - 1)) 8) =
          (outer :: tags).map widen := by
  rw [packLongPath] at h
  split at h
  · rename_i hlength
    obtain ⟨htwo, hseven⟩ := hlength
    have hseven : tags.length < 7 := hseven
    simp only at h
    split at h
    · cases h
    · rename_i hbyte
      obtain ⟨hmarks, htagCount, hbytes⟩ :=
        field_header (show tags.length + 1 < 8 by omega)
      -- the outer tag goes in by a step of the same loop
      have hloop : packTags (tags.length + 1 + 1) 0 (outer :: tags)
          (enumCarrierFieldPathMarkerBase ||| (BitVec.ofNat 64 (tags.length + 1) <<< 56)) =
            some variant := by
        rw [packTags, if_neg hbyte, packTags_shift, ← h]
        rw [show tags.length + 1 + 1 - 0 - 2 = tags.length + 1 - 1 by omega]
      obtain ⟨habove, hread⟩ := packTags_spec (by rw [length_cons]; omega)
        (by rw [length_cons]; omega) hloop fun k hk => hbytes k (by
          rw [length_cons] at hk
          omega)
      have hle : 8 * (outer :: tags).length ≤ 56 := by
        rw [length_cons]
        omega
      refine ⟨?_, htwo, hseven, ?_, hread⟩
      · show field variant 60 4 = 14
        rw [habove 60 4 (by omega), hmarks]
        rfl
      · show (field variant 56 4).toNat = tags.length + 1
        rw [habove 56 4 hle, htagCount, BitVec.toNat_ofNat, Nat.mod_eq_of_lt (by omega)]
  · cases h

/-! ### Round trips -/

theorem unpack_of_long (h : packLongPath outer tags = some variant) :
    unpackEnumCarrierFieldPath variant = some (outer :: tags) := by
  obtain ⟨hmarks, htwo, hseven, hcount, hread⟩ := packLongPath_spec h
  rw [hmarks.unpack_eq]
  simp only [hcount]
  rw [if_pos ⟨by omega, by simp only [enumCarrierFieldPathMaxTags]; omega⟩]
  have hnarrow := congrArg (map (BitVec.setWidth 32)) hread
  rw [List.map_map, List.map_map] at hnarrow
  refine congrArg some (hnarrow.trans ?_)
  calc (outer :: tags).map (BitVec.setWidth 32 ∘ widen) = (outer :: tags).map id :=
        map_congr_left fun tag _ => setWidth_widen tag
    _ = outer :: tags := map_id _

/-- Reading a word gives back the path that was packed, and the word is in one of the formats. -/
theorem unpack_of_pack (reserved : ∀ tag ∈ tags, tag ≠ enumCarrierFieldNoInnerTag)
    (h : packEnumCarrierFieldPath outer tags = some variant) :
    unpackEnumCarrierFieldPath variant = some (outer :: tags) ∧
      ∃ format : TagFormat, format.Marks variant := by
  match tags with
  | [] =>
      obtain ⟨hmarks, houter, hinner⟩ := packVariant_spec h
      refine ⟨?_, .nested, hmarks⟩
      rw [hmarks.unpack_eq]
      simp only [houter, hinner, setWidth_widen, Option.getD_none, if_true]
  | [inner] =>
      obtain ⟨hmarks, houter, hinner⟩ := packVariant_spec h
      refine ⟨?_, .nested, hmarks⟩
      rw [hmarks.unpack_eq]
      simp only [houter, hinner, setWidth_widen, Option.getD_some,
        if_neg (reserved inner (mem_singleton_self inner))]
  | [first, second] =>
      rw [packEnumCarrierFieldPath] at h
      split at h
      · rename_i hmask
        obtain ⟨hmarks, houter, hfirst, hsecond⟩ :=
          packMulti_spec hmask.1 hmask.2.1 hmask.2.2 (some.inj h).symm
        refine ⟨?_, .multi, hmarks⟩
        rw [hmarks.unpack_eq]
        simp only [houter, hfirst, hsecond, setWidth_widen]
      · exact ⟨unpack_of_long h, .path, (packLongPath_spec h).1⟩
  | first :: second :: third :: rest =>
      exact ⟨unpack_of_long h, .path, (packLongPath_spec h).1⟩

/-- A packed path reads back as the tags that were packed.  No other path has the same word, and the
word is neither the unconditional marker nor taken for that of a named enum in a record. -/
theorem unpack_pack (outer : BitVec 32) (tags : List (BitVec 32)) (variant : BitVec 64)
    (reserved : ∀ tag ∈ outer :: tags, tag ≠ BitVec.allOnes 32)
    (h : packEnumCarrierFieldPath outer tags = some variant) :
    unpackEnumCarrierFieldPath variant = some (outer :: tags) ∧
      (∀ outer' tags', (∀ tag ∈ outer' :: tags', tag ≠ BitVec.allOnes 32) →
        packEnumCarrierFieldPath outer' tags' = some variant → outer' = outer ∧ tags' = tags) ∧
      variant ≠ recordFieldUnconditional ∧ ¬ IsRecordNamedEnum variant := by
  have hinner : ∀ (outer : BitVec 32) (tags : List (BitVec 32)),
      (∀ tag ∈ outer :: tags, tag ≠ BitVec.allOnes 32) →
        ∀ tag ∈ tags, tag ≠ enumCarrierFieldNoInnerTag :=
    fun _ _ hall tag htag => hall tag (mem_cons_of_mem _ htag)
  obtain ⟨hread, format, hmarks⟩ := unpack_of_pack (hinner _ _ reserved) h
  refine ⟨hread, fun outer' tags' reserved' h' => ?_, hmarks.ne_unconditional,
    hmarks.not_isRecordNamedEnum⟩
  obtain ⟨hread', -⟩ := unpack_of_pack (hinner _ _ reserved') h'
  exact cons.inj (some.inj (hread'.symm.trans hread))

theorem unpack_pack_long :
    unpackEnumCarrierFieldPath 0xe400000001020304#64 = some [1#32, 2#32, 3#32, 4#32] := by
  have reserved : ∀ tag ∈ 1#32 :: [2#32, 3#32, 4#32], tag ≠ BitVec.allOnes 32 := by
    intro tag htag hones
    have hsmall : tag.toNat ≤ 4 := by
      simp only [mem_cons, not_mem_nil, or_false] at htag
      obtain rfl | rfl | rfl | rfl := htag <;> decide
    rw [hones, BitVec.toNat_allOnes] at hsmall
    omega
  exact (unpack_pack 1#32 [2#32, 3#32, 4#32] 0xe400000001020304#64 reserved (by decide)).1

end Jadren.Jir

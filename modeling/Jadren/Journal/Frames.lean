import Jadren.Journal.Rewriting

/-!
# Frames

What a frame is, as text.  The parsers of the scanners never leave the journal, and find a frame
exactly where the journal goes on with one; in which of their exits they end otherwise is all in
which they differ.

`lineAt` and `frameAt` read the text alone.  The loop over digits computes the former, and each
parser is followed branch by branch against the latter.
-/

namespace Jadren.Journal

open Http (Bytes maxLength decimal_le_maxLength)
open Checked List Option

/-- Decimal digits that stand for the number, perhaps with zeros in front. -/
def StandsFor (digits : Bytes) (n : ℕ) : Prop :=
  digits ≠ [] ∧ ∃ ds, digits.map Digits.decimal = ds.map some ∧ n = Digits.number 10 0 ds

def checksumOf (payload : Bytes) : UInt64 := payload.foldl checksumStep checksumStart

/-- A frame of version 0.2 if it has the digits of a checksum. -/
structure Frame where
  lengthDigits : Bytes
  checksumDigits : Option Bytes
  payload : Bytes
  length_standsFor : StandsFor lengthDigits payload.length
  checksum_standsFor : ∀ digits ∈ checksumDigits, StandsFor digits (checksumOf payload).toNat
  payload_ne : payload ≠ []

namespace Frame

/-- The frame up to its payload. -/
def head (frame : Frame) : Bytes :=
  match frame.checksumDigits with
  | none => markerV1 ++ frame.lengthDigits ++ [10]
  | some digits => markerV2 ++ frame.lengthDigits ++ [10] ++ digits ++ [10]

def bytes (frame : Frame) : Bytes := frame.head ++ frame.payload

theorem bytes_ne (frame : Frame) : frame.bytes ≠ [] := by
  unfold bytes
  exact append_ne_nil_of_right_ne_nil _ frame.payload_ne

end Frame

/-! ## Reading numbers -/

section Numbers

variable {journal digits text rest : Bytes} {index value n fuel : ℕ}

theorem standsFor_iff (hn : n ≤ maxLength) : StandsFor digits n ↔
    digits ≠ [] ∧ Digits.read Digits.decimal 10 maxLength 0 digits = some n := by
  rw [Digits.read_eq_some (by decide) decimal_le_maxLength (Nat.zero_le maxLength)]
  unfold StandsFor
  constructor
  · rintro ⟨hpos, ds, hds, hvalue⟩
    exact ⟨hpos, ds, hds, hvalue, hn⟩
  · rintro ⟨hpos, ds, hds, hvalue, -⟩
    exact ⟨hpos, ds, hds, hvalue⟩

theorem StandsFor.notMem (h : StandsFor digits n) : 10 ∉ digits := by
  obtain ⟨-, ds, hds, -⟩ := h
  intro hmem
  have himage := mem_map_of_mem (f := Digits.decimal) hmem
  rw [hds] at himage
  have hten : Digits.decimal 10 = none := by decide
  simp [hten] at himage

/-- The bytes before the end of the line. -/
def lineText (text : Bytes) : Bytes := text.takeWhile (· != 10)

theorem lineText_append (hdigits : 10 ∉ digits) : lineText (digits ++ 10 :: rest) = digits := by
  have hall : ∀ c ∈ digits, (c != 10) = true := by
    intro c hc
    rw [bne_iff_ne]
    rintro rfl
    exact hdigits hc
  unfold lineText
  rw [takeWhile_append_of_pos hall, takeWhile_cons_of_neg (by decide), append_nil]

theorem lineText_split (h : (lineText text).length < text.length) :
    ∃ rest, text = lineText text ++ 10 :: rest := by
  have hsplit : text = lineText text ++ text.dropWhile (· != 10) :=
    takeWhile_append_dropWhile.symm
  cases hrest : text.dropWhile (· != 10) with
  | nil =>
      rw [hrest, append_nil] at hsplit
      rw [← hsplit] at h
      exact absurd h (lt_irrefl _)
  | cons c rest =>
      have hc := head?_dropWhile_not (p := (· != 10)) (l := text)
      rw [hrest] at hc hsplit
      have hten : c = 10 := by simpa using hc
      exact ⟨rest, by rw [← hten]; exact hsplit⟩

theorem loop_digitStep (hdata : journal.length < 2 ^ 64) (hindex : index ≤ journal.length)
    (htext : journal.drop index = text) (hvalue : value ≤ maxLength) (hfuel : text.length < fuel) :
    loop (digitStep journal) fuel (index, value) =
      some ((Digits.read Digits.decimal 10 maxLength value (lineText text)).map fun v =>
        (index + (lineText text).length, v)) := by
  obtain ⟨fuel, rfl⟩ := Nat.exists_eq_succ_of_ne_zero (Nat.ne_zero_of_lt hfuel)
  induction text generalizing index value fuel with
  | nil =>
      have hend : ¬ index < journal.length := by
        rw [drop_eq_nil_iff] at htext
        omega
      rw [loop_done (b := some (index, value)) (by simp [digitStep, hend])]
      rfl
  | cons c text ih =>
      have hlength := congrArg length htext
      rw [length_drop, length_cons] at hlength
      have hlt : index < journal.length := by omega
      have hload := load_of_drop htext
      -- the line ends at a line feed, which the loop leaves
      by_cases hten : c = 10
      · rw [loop_done (b := some (index, value)) (by simp [digitStep, hlt, hload, hten])]
        subst hten
        rfl
      have hline : lineText (c :: text) = c :: lineText text :=
        takeWhile_cons_of_pos (by simpa using hten)
      rw [hline, Digits.read]
      cases hdigit : Digits.decimal c with
      | none => exact loop_done (by simp [digitStep, hlt, hload, hten, hdigit]) _
      | some d =>
          simp only
          have hd := decimal_le_maxLength c d hdigit
          -- the source asks before it multiplies, so that nothing overflows
          have hcheck : value > (maxLength - d) / 10 ↔ maxLength < value * 10 + d :=
            Digits.check_iff value (by decide) hd
          by_cases hover : value > (maxLength - d) / 10
          · rw [if_pos hover]
            exact loop_done (by simp [digitStep, hlt, hload, hten, hdigit, hover]) _
          · have hnext : value * 10 + d ≤ maxLength := Nat.le_of_not_lt (mt hcheck.mpr hover)
            have hmax : maxLength < 2 ^ 64 := by decide
            have hstep : digitStep journal (index, value) =
                some (.inl (index + 1, value * 10 + d)) := by
              unfold digitStep
              simp only [hlt, hload, hten, hdigit, hover, if_true, if_false, bind_eq_bind,
                bind_some]
              rw [mul_eq (by omega), bind_some, add_eq (by omega),
                bind_some, add_eq (by omega), bind_some]
            have hdrop : journal.drop (index + 1) = text := by
              rw [← drop_drop, htext]
              rfl
            rw [length_cons] at hfuel
            obtain ⟨fuel, rfl⟩ := Nat.exists_eq_succ_of_ne_zero (Nat.ne_zero_of_lt
              (Nat.lt_of_succ_lt_succ hfuel))
            rw [if_neg hover, loop_next hstep,
              ih (by omega) hdrop hnext fuel (by omega)]
            congr 2
            funext v
            rw [length_cons, Nat.add_assoc, Nat.add_comm 1]

theorem digitsAt_eq (hdata : journal.length < 2 ^ 64) (hindex : index ≤ journal.length) :
    digitsAt journal index =
      some ((Digits.read Digits.decimal 10 maxLength 0 (lineText (journal.drop index))).map fun v =>
        (index + (lineText (journal.drop index)).length, v)) := by
  have hlength := length_drop (i := index) (l := journal)
  exact loop_digitStep hdata hindex rfl (Nat.zero_le _) (by omega)

end Numbers

/-! ## Parts of a frame -/

section Parts

variable {journal digits text rest marker : Bytes} {index value length next n : ℕ}

/-- The journal goes on with a line with the number. -/
def LineAt (journal : Bytes) (index next value : ℕ) : Prop :=
  ∃ digits rest, journal.drop index = digits ++ 10 :: rest ∧ StandsFor digits value ∧
    value ≤ maxLength ∧ next = index + digits.length + 1

/-- The journal goes on with as many bytes, and they have the checksum. -/
def PayloadAt (journal : Bytes) (index length : ℕ) (checksum : Option ℕ) : Prop :=
  ∃ payload rest, journal.drop index = payload ++ rest ∧ payload.length = length ∧
    ∀ c ∈ checksum, (checksumOf payload).toNat = c

/-- What a line is read as, whatever the exit otherwise. -/
def NumberLine.toOption : NumberLine → Option (ℕ × ℕ)
  | .number index value => some (index, value)
  | _ => none

/-- The payload that is found, whatever the exit otherwise. -/
def Parsed.toOption : Parsed → Option (ℕ × ℕ)
  | .frame payloadStart payloadLength => some (payloadStart, payloadLength)
  | _ => none

variable (hindex : index ≤ journal.length)
include hindex

theorem length_of_drop (h : journal.drop index = text) :
    journal.length = index + text.length := by
  have hlength := congrArg length h
  rw [length_drop] at hlength
  omega

theorem LineAt.range (h : LineAt journal index next value) :
    index + 1 < next ∧ next ≤ journal.length := by
  obtain ⟨digits, rest, hdrop, hdigits, -, rfl⟩ := h
  have hlength := length_of_drop hindex hdrop
  rw [length_append, length_cons] at hlength
  have hpos := length_pos_iff.mpr hdigits.1
  omega

omit hindex

/-- The line with a number that the journal goes on with: the index after it, and the number. -/
def lineAt (journal : Bytes) (index : ℕ) : Option (ℕ × ℕ) :=
  let digits := lineText (journal.drop index)
  let lineEnd := index + digits.length
  if lineEnd = index ∨ lineEnd = journal.length then none
  else (Digits.read Digits.decimal 10 maxLength 0 digits).map fun value => (lineEnd + 1, value)

include hindex

theorem lineAt_eq_some :
    lineAt journal index = some (next, value) ↔ LineAt journal index next value := by
  unfold lineAt
  simp only
  constructor
  · intro h
    split at h
    · cases h
    next hline =>
      obtain ⟨v, hv, hpair⟩ := map_eq_some_iff.mp h
      obtain ⟨rfl, rfl⟩ := Prod.mk.inj hpair
      have hlength := length_of_drop hindex rfl
      have hle := (List.takeWhile_prefix (l := journal.drop index) (· != 10)).length_le
      have hshort : (lineText (journal.drop index)).length < (journal.drop index).length :=
        lt_of_le_of_ne hle fun heq => hline (.inr (by rw [hlength, heq]))
      obtain ⟨rest, hrest⟩ := lineText_split hshort
      have hmax : v ≤ maxLength :=
        ((Digits.read_eq_some (by decide) decimal_le_maxLength (Nat.zero_le maxLength)).mp hv).elim
          fun ds h => h.2.2
      refine ⟨_, rest, hrest, (standsFor_iff hmax).mpr ⟨fun hnil => hline (.inl ?_), hv⟩, hmax, rfl⟩
      rw [hnil]
      rfl
  · rintro ⟨digits, rest, hdrop, hdigits, hle, rfl⟩
    obtain ⟨hpos, hread⟩ := (standsFor_iff hle).mp hdigits
    have hlength := length_of_drop hindex hdrop
    rw [length_append, length_cons] at hlength
    rw [hdrop, lineText_append hdigits.notMem, hread, if_neg]
    · rfl
    · have hdigitsPos := length_pos_iff.mpr hpos
      omega

omit hindex

/-- What the loop over digits says of the line. -/
theorem digitsAt_cases (hdata : journal.length < 2 ^ 64) (hindex : index ≤ journal.length) :
    (digitsAt journal index = some none ∧ lineAt journal index = none) ∨
      ∃ lineEnd value, digitsAt journal index = some (some (lineEnd, value)) ∧
        index ≤ lineEnd ∧ lineEnd ≤ journal.length ∧ lineAt journal index =
          if lineEnd = index ∨ lineEnd = journal.length then none
            else some (lineEnd + 1, value) := by
  rw [digitsAt_eq hdata hindex]
  unfold lineAt
  cases hread : Digits.read Digits.decimal 10 maxLength 0 (lineText (journal.drop index)) with
  | none => exact .inl ⟨rfl, by simp [hread]⟩
  | some value =>
      right
      have hle := (List.takeWhile_prefix (l := journal.drop index) (· != 10)).length_le
      rw [length_drop] at hle
      have hrange : index + (lineText (journal.drop index)).length ≤ journal.length := by
        unfold lineText
        omega
      exact ⟨_, value, rfl, Nat.le_add_right _ _, hrange, by simp [hread]⟩

include hindex

theorem lineAt_range
    (h : lineAt journal index = some (next, value)) : next ≤ journal.length :=
  ((lineAt_eq_some hindex).mp h).range hindex |>.2

omit hindex

theorem numberLine_eq (hdata : journal.length < 2 ^ 64) (hindex : index ≤ journal.length) :
    ∃ line, numberLine journal index = some line ∧ line.toOption = lineAt journal index := by
  unfold numberLine
  rcases digitsAt_cases hdata hindex with ⟨hdigits, hline⟩ |
    ⟨lineEnd, value, hdigits, hle, hbound, hline⟩
  · rw [hdigits, hline]
    exact ⟨.badDigit, rfl, rfl⟩
  · rw [hdigits, hline]
    simp only [bind_eq_bind, bind_some]
    by_cases hstop : lineEnd = index ∨ lineEnd = journal.length
    · rw [if_pos hstop, if_pos (by omega)]
      exact ⟨.stop, rfl, rfl⟩
    · rw [if_neg hstop, if_neg (by omega), add_eq (by omega), bind_some]
      exact ⟨_, rfl, rfl⟩

theorem matchesAt_eq (h : index + marker.length ≤ journal.length) :
    matchesAt journal index marker = some (decide (marker <+: journal.drop index)) := by
  induction marker generalizing index with
  | nil => simp [matchesAt]
  | cons c marker ih =>
      rw [length_cons] at h
      have hlt : index < journal.length := by omega
      have hdrop := drop_eq_getElem_cons hlt
      unfold matchesAt
      rw [load_of_drop hdrop, bind_eq_bind, bind_some, ih (by omega), hdrop]
      simp only [cons_prefix_cons]
      split
      next hsame => simp [hsame]
      next hother => simp [Ne.symm hother]

include hindex

theorem hasMarker_eq (marker : Bytes) :
    hasMarker journal index marker = some (decide (marker <+: journal.drop index)) := by
  have hlength := length_drop (i := index) (l := journal)
  unfold hasMarker
  rw [sub_eq hindex, bind_eq_bind, bind_some]
  split
  next hfits => exact matchesAt_eq (by omega)
  next hshort =>
    congr 1
    rw [eq_comm, decide_eq_false_iff_not]
    intro hmarker
    have hle := hmarker.length_le
    omega

/-- The marker that the journal goes on with. -/
theorem markerAt_eq : markerAt journal index =
    some (if markerV2 <+: journal.drop index then some true
      else if markerV1 <+: journal.drop index then some false else none) := by
  unfold markerAt
  rw [hasMarker_eq hindex, hasMarker_eq hindex]
  by_cases hv2 : markerV2 <+: journal.drop index
  · simp [hv2]
  · simp [hv2]

omit hindex

theorem journalChecksum_eq {payload : Bytes} (h : journal.drop index = payload ++ rest)
    (hash : UInt64) :
    journalChecksum journal index payload.length hash = some (payload.foldl checksumStep hash) := by
  induction payload generalizing index hash with
  | nil => rfl
  | cons byte payload ih =>
      rw [cons_append] at h
      have hdrop : journal.drop (index + 1) = payload ++ rest := by
        rw [← drop_drop, h]
        rfl
      rw [length_cons, journalChecksum, load_of_drop h, bind_eq_bind,
        bind_some, ih hdrop, foldl_cons]

/-- The payload, if it is all there and has the checksum. -/
def payloadFound (journal : Bytes) (index length : ℕ) (checksum : Option ℕ) : Option (ℕ × ℕ) :=
  if index + length ≤ journal.length ∧
      ∀ c ∈ checksum, (checksumOf (slice journal index length)).toNat = c then some (index, length)
  else none

include hindex

theorem payloadAt_eq (checksum : Option ℕ) :
    ∃ parsed, payloadAt journal index length checksum = some parsed ∧
      parsed.toOption = payloadFound journal index length checksum := by
  unfold payloadAt payloadFound
  rw [sub_eq hindex, bind_eq_bind, bind_some]
  by_cases hfits : index + length ≤ journal.length
  · rw [if_neg (by omega)]
    cases checksum with
    | none => exact ⟨_, rfl, by simp [hfits, Parsed.toOption]⟩
    | some c =>
        have hsplit : journal.drop index =
            slice journal index length ++ (journal.drop index).drop length :=
          (take_append_drop _ _).symm
        have hhash := journalChecksum_eq hsplit checksumStart
        rw [length_slice hfits] at hhash
        simp only [hhash, bind_eq_bind, bind_some]
        refine ⟨_, rfl, ?_⟩
        have hchecksum : (slice journal index length).foldl checksumStep checksumStart =
            checksumOf (slice journal index length) := rfl
        by_cases hsame : (checksumOf (slice journal index length)).toNat = c
        · simp [hfits, hchecksum, hsame, Parsed.toOption]
        · simp [hchecksum, hsame, Parsed.toOption]
  · rw [if_pos (by omega), if_neg fun h => hfits h.1]
    exact ⟨.stop, rfl, rfl⟩

theorem payloadFound_eq_some {checksum : Option ℕ} :
    payloadFound journal index length checksum = some (next, n) ↔
      next = index ∧ n = length ∧ PayloadAt journal index length checksum := by
  unfold payloadFound PayloadAt
  constructor
  · intro h
    split at h
    next hfits =>
      obtain ⟨rfl, rfl⟩ := Prod.mk.inj (some.inj h)
      exact ⟨rfl, rfl, slice journal index length, _, (take_append_drop _ _).symm,
        length_slice hfits.1, hfits.2⟩
    next => exact absurd h (by simp)
  · rintro ⟨rfl, rfl, payload, rest, hdrop, rfl, hsame⟩
    have hlength := length_of_drop hindex hdrop
    rw [length_append] at hlength
    rw [slice_of_drop hdrop, if_pos ⟨by omega, hsame⟩]

end Parts

/-! ## Frames are found -/

section Parsing

variable {journal rest : Bytes} {index payloadStart n : ℕ}

/-- The journal goes on with a frame that has its payload there. -/
def FrameAt (journal : Bytes) (index payloadStart n : ℕ) : Prop :=
  ∃ (frame : Frame) (rest : Bytes), journal.drop index = frame.bytes ++ rest ∧
    payloadStart = index + frame.head.length ∧ n = frame.payload.length

theorem markers_disjoint (h : markerV1 <+: rest) : ¬ markerV2 <+: rest := by
  intro h'
  have heq := prefix_of_prefix_length_le h h' (by decide)
  revert heq
  decide

theorem drop_line {digits rest : Bytes} (h : journal.drop index = digits ++ 10 :: rest) :
    journal.drop (index + digits.length + 1) = rest := by
  rw [Nat.add_assoc, ← drop_drop, h, ← drop_drop, drop_left]
  rfl

theorem LineAt.drop {next value : ℕ} (h : LineAt journal index next value) :
    ∃ digits, StandsFor digits value ∧ next = index + digits.length + 1 ∧
      journal.drop index = digits ++ 10 :: journal.drop next := by
  obtain ⟨digits, rest, hdrop, hdigits, -, rfl⟩ := h
  exact ⟨digits, hdigits, rfl, by rw [drop_line hdrop, hdrop]⟩

/-- Both markers have the length of the second. -/
theorem drop_marker (marker : Bytes) {behind : Bytes} (hlength : marker.length = markerV2.length)
    (h : journal.drop index = marker ++ behind) :
    journal.drop (index + markerV2.length) = behind := by
  rw [← drop_drop, h, ← hlength, drop_left]

theorem payload_length_le {payload head : Bytes} (hdata : journal.length < 2 ^ 64)
    (h : journal.drop index = head ++ payload ++ rest) : payload.length ≤ maxLength := by
  have hlength := congrArg length h
  simp only [length_drop, length_append] at hlength
  have hmax : maxLength = 2 ^ 64 - 1 := rfl
  omega

theorem frameAt_v1 (hdata : journal.length < 2 ^ 64) (hmarker : markerV1 <+: journal.drop index) :
    FrameAt journal index payloadStart n ↔
      LineAt journal (index + markerV2.length) payloadStart n ∧ n ≠ 0 ∧
        PayloadAt journal payloadStart n none := by
  constructor
  · rintro ⟨⟨digits, checksumDigits, payload, hdigits, hchecksum, hpos⟩, rest, hdrop, rfl, rfl⟩
    cases checksumDigits with
    | some =>
        -- a frame with a checksum begins with the other marker
        exfalso
        refine markers_disjoint hmarker ?_
        rw [hdrop, Frame.bytes, Frame.head]
        simp only [append_assoc]
        exact prefix_append _ _
    | none =>
        have hle := payload_length_le hdata hdrop
        have hline : journal.drop (index + markerV2.length) = digits ++
            10 :: (payload ++ rest) := by
          apply drop_marker markerV1 rfl
          rw [hdrop, Frame.bytes, Frame.head]
          simp
        have hstart : index + (markerV1 ++ digits ++ [10]).length =
            index + markerV2.length + digits.length + 1 := by
          simp [markerV1, markerV2]
          omega
        simp only [Frame.head]
        rw [hstart]
        exact ⟨⟨digits, _, hline, hdigits, hle, rfl⟩,
          fun hzero => hpos (length_eq_zero_iff.mp hzero), payload, rest, drop_line hline, rfl,
          fun c hc => absurd hc (by simp)⟩
  · rintro ⟨hline, hpos, payload, rest, hpayload, rfl, -⟩
    obtain ⟨digits, hdigits, rfl, hdrop⟩ := hline.drop
    obtain ⟨behind, hbehind⟩ := hmarker
    rw [drop_marker markerV1 rfl hbehind.symm, hpayload] at hdrop
    have hne : payload ≠ [] := fun hnil => hpos (by rw [hnil]; rfl)
    refine ⟨⟨digits, none, payload, hdigits, fun d hd => absurd hd (by simp), hne⟩, rest,
      ?_, ?_, rfl⟩
    · rw [← hbehind, hdrop]
      simp [Frame.bytes, Frame.head]
    · simp [Frame.head, markerV1, markerV2]
      omega

theorem frameAt_v2 (hdata : journal.length < 2 ^ 64) (hmarker : markerV2 <+: journal.drop index) :
    FrameAt journal index payloadStart n ↔
      ∃ next checksum, LineAt journal (index + markerV2.length) next n ∧ n ≠ 0 ∧
        LineAt journal next payloadStart checksum ∧
          PayloadAt journal payloadStart n (some checksum) := by
  constructor
  · rintro ⟨⟨digits, checksumDigits, payload, hdigits, hchecksum, hpos⟩, rest, hdrop, rfl, rfl⟩
    cases checksumDigits with
    | none =>
        exfalso
        refine markers_disjoint ?_ hmarker
        rw [hdrop, Frame.bytes, Frame.head]
        simp only [append_assoc]
        exact prefix_append _ _
    | some checksumDigits =>
        have hle := payload_length_le hdata hdrop
        have hline : journal.drop (index + markerV2.length) =
            digits ++ 10 :: (checksumDigits ++ 10 :: (payload ++ rest)) := by
          apply drop_marker markerV2 rfl
          rw [hdrop, Frame.bytes, Frame.head]
          simp
        have hchecksumLine := drop_line hline
        have hhash : (checksumOf payload).toNat ≤ maxLength := by
          have hlt := (checksumOf payload).toNat_lt
          have hmax : maxLength = 2 ^ 64 - 1 := rfl
          omega
        have hstart : index + (markerV2 ++ digits ++ [10] ++ checksumDigits ++ [10]).length =
            index + markerV2.length + digits.length + 1 + checksumDigits.length + 1 := by
          simp
          omega
        simp only [Frame.head]
        rw [hstart]
        refine ⟨_, (checksumOf payload).toNat, ⟨digits, _, hline, hdigits, hle, rfl⟩,
          fun hzero => hpos (length_eq_zero_iff.mp hzero),
          ⟨checksumDigits, _, hchecksumLine, hchecksum _ rfl, hhash, rfl⟩, payload, rest,
          drop_line hchecksumLine, rfl, ?_⟩
        rintro c ⟨⟩
        rfl
  · rintro ⟨next, checksum, hline, hpos, hchecksumLine, payload, rest, hpayload, rfl, hsame⟩
    obtain ⟨digits, hdigits, rfl, hdrop⟩ := hline.drop
    obtain ⟨checksumDigits, hchecksum, rfl, hchecksumDrop⟩ := hchecksumLine.drop
    obtain ⟨behind, hbehind⟩ := hmarker
    rw [drop_marker markerV2 rfl hbehind.symm, hchecksumDrop, hpayload] at hdrop
    have hne : payload ≠ [] := fun hnil => hpos (by rw [hnil]; rfl)
    obtain rfl := hsame checksum rfl
    refine ⟨⟨digits, some checksumDigits, payload, hdigits, ?_, hne⟩, rest, ?_, ?_, rfl⟩
    · rintro _ ⟨⟩
      exact hchecksum
    · rw [← hbehind, hdrop]
      simp [Frame.bytes, Frame.head]
    · simp [Frame.head, markerV2]
      omega

theorem frameAt_marker (h : FrameAt journal index payloadStart n) :
    markerV1 <+: journal.drop index ∨ markerV2 <+: journal.drop index := by
  obtain ⟨frame, rest, hdrop, -⟩ := h
  rw [hdrop, Frame.bytes, Frame.head]
  cases frame.checksumDigits with
  | none => exact .inl (by simp only [append_assoc]; exact prefix_append _ _)
  | some => exact .inr (by simp only [append_assoc]; exact prefix_append _ _)

end Parsing

/-! ## The parsers -/

/-- The frame that the journal goes on with: where its payload is, and how long. -/
def frameAt (journal : Bytes) (index : ℕ) : Option (ℕ × ℕ) :=
  if markerV2 <+: journal.drop index then
    (lineAt journal (index + markerV2.length)).bind fun (next, length) =>
      if length = 0 then none
      else
        (lineAt journal next).bind fun (payloadStart, checksum) =>
          payloadFound journal payloadStart length (some checksum)
  else if markerV1 <+: journal.drop index then
    (lineAt journal (index + markerV2.length)).bind fun (payloadStart, length) =>
      if length = 0 then none else payloadFound journal payloadStart length none
  else none

section Parsers

variable {journal : Bytes} {index payloadStart n : ℕ}

theorem marker_range (marker : Bytes) (hlength : marker.length = markerV2.length)
    (h : marker <+: journal.drop index) : index + markerV2.length ≤ journal.length := by
  have hle := h.length_le
  rw [length_drop, hlength] at hle
  have hpos : 0 < markerV2.length := by decide
  omega

variable (hdata : journal.length < 2 ^ 64)
include hdata

theorem frameAt_eq_some :
    frameAt journal index = some (payloadStart, n) ↔ FrameAt journal index payloadStart n := by
  unfold frameAt
  -- the second marker is tried first; no text begins with both
  by_cases hv2 : markerV2 <+: journal.drop index
  · have hrange := marker_range markerV2 rfl hv2
    rw [if_pos hv2, frameAt_v2 hdata hv2, bind_eq_some_iff]
    constructor
    · rintro ⟨⟨next, length⟩, hline, hrest⟩
      simp only at hrest
      split at hrest
      · cases hrest
      next hpos =>
        obtain ⟨⟨start, checksum⟩, hchecksum, hpayload⟩ := bind_eq_some_iff.mp hrest
        have hnext := lineAt_range hrange hline
        have hstart := lineAt_range hnext hchecksum
        obtain ⟨rfl, rfl, hat⟩ := (payloadFound_eq_some hstart).mp hpayload
        exact ⟨next, checksum, (lineAt_eq_some hrange).mp hline, hpos,
          (lineAt_eq_some hnext).mp hchecksum, hat⟩
    · rintro ⟨next, checksum, hline, hpos, hchecksum, hat⟩
      have hnext := (hline.range hrange).2
      have hstart := (hchecksum.range hnext).2
      refine ⟨(next, n), (lineAt_eq_some hrange).mpr hline, ?_⟩
      simp only [if_neg hpos, (lineAt_eq_some hnext).mpr hchecksum, bind_some]
      exact (payloadFound_eq_some hstart).mpr ⟨rfl, rfl, hat⟩
  · rw [if_neg hv2]
    by_cases hv1 : markerV1 <+: journal.drop index
    · have hrange := marker_range markerV1 rfl hv1
      rw [if_pos hv1, frameAt_v1 hdata hv1, bind_eq_some_iff]
      constructor
      · rintro ⟨⟨start, length⟩, hline, hrest⟩
        simp only at hrest
        split at hrest
        · cases hrest
        next hpos =>
          obtain ⟨rfl, rfl, hat⟩ :=
            (payloadFound_eq_some (lineAt_range hrange hline)).mp hrest
          exact ⟨(lineAt_eq_some hrange).mp hline, hpos, hat⟩
      · rintro ⟨hline, hpos, hat⟩
        refine ⟨(payloadStart, n), (lineAt_eq_some hrange).mpr hline, ?_⟩
        simp only [if_neg hpos]
        exact (payloadFound_eq_some (hline.range hrange).2).mpr ⟨rfl, rfl, hat⟩
    · rw [if_neg hv1]
      constructor
      · exact fun h => absurd h (by simp)
      · exact fun h => (frameAt_marker h).elim (fun h => absurd h hv1) fun h => absurd h hv2

/-- The parsers return what the journal goes on with. -/
theorem parseFrame_eq (hindex : index ≤ journal.length) :
    ∃ parsed, parseFrame journal index = some parsed ∧ parsed.toOption = frameAt journal index := by
  unfold parseFrame frameAt
  rw [markerAt_eq hindex, bind_eq_bind, bind_some]
  by_cases hv2 : markerV2 <+: journal.drop index
  · have hrange := marker_range markerV2 rfl hv2
    obtain ⟨line, hline, hfound⟩ := numberLine_eq hdata hrange
    rw [if_pos hv2, if_pos hv2, ← hfound]
    simp only [add_eq (by omega : index + markerV2.length < 2 ^ 64), hline,
      bind_eq_bind, bind_some]
    -- a line is read with the digits up to where it ends, or the parser gives up
    match line, hfound with
    | .badDigit, _ => exact ⟨_, rfl, rfl⟩
    | .stop, _ => exact ⟨_, rfl, rfl⟩
    | .number next length, hfound =>
        have hnext := lineAt_range hrange hfound.symm
        obtain ⟨line, hline, hfound⟩ := numberLine_eq hdata hnext
        by_cases hzero : length = 0
        · simp only [NumberLine.toOption, bind_some, if_pos hzero]
          exact ⟨_, rfl, rfl⟩
        · simp only [NumberLine.toOption, bind_some, if_neg hzero, hline, ← hfound,
            Bool.not_true, Bool.false_eq_true, if_false]
          match line, hfound with
          | .badDigit, _ => exact ⟨_, rfl, rfl⟩
          | .stop, _ => exact ⟨_, rfl, rfl⟩
          | .number start checksum, hfound =>
              exact payloadAt_eq (lineAt_range hnext hfound.symm) (some checksum)
  · rw [if_neg hv2, if_neg hv2]
    by_cases hv1 : markerV1 <+: journal.drop index
    · have hrange := marker_range markerV1 rfl hv1
      obtain ⟨line, hline, hfound⟩ := numberLine_eq hdata hrange
      rw [if_pos hv1, if_pos hv1, ← hfound]
      simp only [add_eq (by omega : index + markerV2.length < 2 ^ 64), hline,
        bind_eq_bind, bind_some]
      match line, hfound with
      | .badDigit, _ => exact ⟨_, rfl, rfl⟩
      | .stop, _ => exact ⟨_, rfl, rfl⟩
      | .number start length, hfound =>
          by_cases hzero : length = 0
          · simp only [NumberLine.toOption, bind_some, if_pos hzero]
            exact ⟨_, rfl, rfl⟩
          · simp only [NumberLine.toOption, bind_some, if_neg hzero, Bool.not_false, if_true]
            exact payloadAt_eq (lineAt_range hrange hfound.symm) none
    · rw [if_neg hv1, if_neg hv1]
      exact ⟨_, rfl, rfl⟩

/-- A bad digit is read like the end of the journal. -/
theorem digitsAt_getD (hindex : index ≤ journal.length) :
    ∃ outcome lineEnd value, digitsAt journal index = some outcome ∧
      outcome.getD (journal.length, 0) = (lineEnd, value) ∧ index ≤ lineEnd ∧
        lineEnd ≤ journal.length ∧ lineAt journal index =
          if lineEnd = index ∨ lineEnd = journal.length then none
            else some (lineEnd + 1, value) := by
  rcases digitsAt_cases hdata hindex with ⟨hdigits, hline⟩ | ⟨lineEnd, value, hdigits, hrest⟩
  · exact ⟨none, journal.length, 0, hdigits, rfl, hindex, le_rfl, by simp [hline]⟩
  · exact ⟨_, lineEnd, value, hdigits, rfl, hrest⟩

theorem retainFrame_eq (hindex : index ≤ journal.length) :
    ∃ parsed, retainFrame journal index = some parsed ∧
    parsed.toOption = frameAt journal index := by
  unfold retainFrame frameAt
  rw [markerAt_eq hindex, bind_eq_bind, bind_some]
  by_cases hv2 : markerV2 <+: journal.drop index
  · have hrange := marker_range markerV2 rfl hv2
    obtain ⟨outcome, lineEnd, length, hdigits, hpair, -, hbound, hline⟩ :=
      digitsAt_getD hdata hrange
    rw [if_pos hv2, if_pos hv2, hline]
    simp only [add_eq (by omega : index + markerV2.length < 2 ^ 64), hdigits, hpair,
      bind_eq_bind, bind_some]
    -- the line has no digits, or no end: the test that `lineAt` makes as well
    by_cases hend : lineEnd = index + markerV2.length ∨ lineEnd = journal.length
    · rw [if_pos (by omega), if_pos hend]
      exact ⟨_, rfl, rfl⟩
    · rw [if_neg hend, bind_some]
      by_cases hzero : length = 0
      · rw [if_pos (by omega)]
        simp only [if_pos hzero]
        exact ⟨_, rfl, rfl⟩
      · have hnext : lineEnd + 1 ≤ journal.length := by omega
        obtain ⟨outcome, lineEnd', checksum, hdigits', hpair', -, hbound', hline'⟩ :=
          digitsAt_getD hdata hnext
        rw [if_neg (by omega)]
        simp only [add_eq (by omega : lineEnd + 1 < 2 ^ 64), hdigits', hpair', hline',
          if_neg hzero, bind_some, Bool.not_true, Bool.false_eq_true, if_false]
        by_cases hend' : lineEnd' = lineEnd + 1 ∨ lineEnd' = journal.length
        · rw [if_pos (by omega), if_pos hend']
          exact ⟨_, rfl, rfl⟩
        · rw [if_neg (by omega), if_neg hend', add_eq (by omega)]
          exact payloadAt_eq (by omega) (some checksum)
  · rw [if_neg hv2, if_neg hv2]
    by_cases hv1 : markerV1 <+: journal.drop index
    · have hrange := marker_range markerV1 rfl hv1
      obtain ⟨outcome, lineEnd, length, hdigits, hpair, -, hbound, hline⟩ :=
        digitsAt_getD hdata hrange
      rw [if_pos hv1, if_pos hv1, hline]
      simp only [add_eq (by omega : index + markerV2.length < 2 ^ 64), hdigits, hpair,
        bind_eq_bind, bind_some]
      by_cases hend : lineEnd = index + markerV2.length ∨ lineEnd = journal.length
      · rw [if_pos (by omega), if_pos hend]
        exact ⟨_, rfl, rfl⟩
      · rw [if_neg hend, bind_some]
        by_cases hzero : length = 0
        · rw [if_pos (by omega)]
          simp only [if_pos hzero]
          exact ⟨_, rfl, rfl⟩
        · rw [if_neg (by omega), add_eq (by omega)]
          simp only [if_neg hzero, bind_some, Bool.not_false, if_true]
          exact payloadAt_eq (by omega) none
    · rw [if_neg hv1, if_neg hv1]
      exact ⟨_, rfl, rfl⟩

/-- Recovery looks for the payload before it reads the checksum, which finds no other frames. -/
theorem recoverFrame_eq (hindex : index ≤ journal.length) :
    ∃ parsed, recoverFrame journal index = some parsed ∧
    parsed.toOption = frameAt journal index := by
  unfold recoverFrame frameAt
  rw [markerAt_eq hindex, bind_eq_bind, bind_some]
  by_cases hv2 : markerV2 <+: journal.drop index
  · have hrange := marker_range markerV2 rfl hv2
    rw [if_pos hv2, if_pos hv2]
    simp only [add_eq (by omega : index + markerV2.length < 2 ^ 64), bind_eq_bind,
      bind_some]
    rcases digitsAt_cases hdata hrange with ⟨hdigits, hline⟩ |
      ⟨lineEnd, length, hdigits, -, hbound, hline⟩
    · rw [hdigits, hline]
      exact ⟨_, rfl, rfl⟩
    simp only [hdigits, hline, bind_some]
    by_cases hend : lineEnd = index + markerV2.length ∨ lineEnd = journal.length
    · rw [if_pos (by omega), if_pos hend]
      exact ⟨_, rfl, rfl⟩
    rw [if_neg hend, bind_some]
    by_cases hzero : length = 0
    · rw [if_pos (by omega)]
      simp only [if_pos hzero]
      exact ⟨_, rfl, rfl⟩
    have hnext : lineEnd + 1 ≤ journal.length := by omega
    obtain ⟨outcome, lineEnd', checksum, hdigits', hpair', hle', hbound', hline'⟩ :=
      digitsAt_getD hdata hnext
    rw [if_neg (by omega), sub_eq (by omega), bind_some, sub_eq (by omega),
      bind_some]
    simp only [if_neg hzero, hline']
    -- tested too early: with a checksum line behind, the payload is shorter still
    by_cases hshort : length > journal.length - lineEnd - 1
    · rw [if_pos hshort]
      refine ⟨_, rfl, ?_⟩
      split
      · rfl
      · rw [bind_some]
        unfold payloadFound
        rw [if_neg (by omega)]
        rfl
    · rw [if_neg hshort]
      simp only [add_eq (by omega : lineEnd + 1 < 2 ^ 64), hdigits', hpair',
        bind_some, Bool.not_true, Bool.false_eq_true, if_false,
        sub_eq (by omega : 1 ≤ journal.length)]
      by_cases hend' : lineEnd' = lineEnd + 1 ∨ lineEnd' = journal.length
      · rw [if_pos (by omega), if_pos hend']
        exact ⟨_, rfl, rfl⟩
      · rw [if_neg hend', bind_some]
        by_cases hlast : lineEnd' + 1 = journal.length
        · -- nothing is left for the payload
          rw [if_pos (by omega)]
          unfold payloadFound
          rw [if_neg (by omega)]
          exact ⟨_, rfl, rfl⟩
        · rw [if_neg (by omega), add_eq (by omega)]
          exact payloadAt_eq (by omega) (some checksum)
  · rw [if_neg hv2, if_neg hv2]
    by_cases hv1 : markerV1 <+: journal.drop index
    · have hrange := marker_range markerV1 rfl hv1
      rw [if_pos hv1, if_pos hv1]
      simp only [add_eq (by omega : index + markerV2.length < 2 ^ 64), bind_eq_bind,
        bind_some]
      rcases digitsAt_cases hdata hrange with ⟨hdigits, hline⟩ |
        ⟨lineEnd, length, hdigits, -, hbound, hline⟩
      · rw [hdigits, hline]
        exact ⟨_, rfl, rfl⟩
      simp only [hdigits, hline, bind_some]
      by_cases hend : lineEnd = index + markerV2.length ∨ lineEnd = journal.length
      · rw [if_pos (by omega), if_pos hend]
        exact ⟨_, rfl, rfl⟩
      rw [if_neg hend, bind_some]
      by_cases hzero : length = 0
      · rw [if_pos (by omega)]
        simp only [if_pos hzero]
        exact ⟨_, rfl, rfl⟩
      rw [if_neg (by omega), sub_eq (by omega), bind_some,
        sub_eq (by omega), bind_some]
      simp only [if_neg hzero]
      unfold payloadFound
      by_cases hshort : length > journal.length - lineEnd - 1
      · rw [if_pos hshort, if_neg (by omega)]
        exact ⟨_, rfl, rfl⟩
      · rw [if_neg hshort, add_eq (by omega)]
        simp only [bind_some, Bool.not_false, if_true]
        exact ⟨_, rfl, by rw [if_pos ⟨by omega, fun c hc => absurd hc (by simp)⟩]; rfl⟩
    · rw [if_neg hv1, if_neg hv1]
      exact ⟨_, rfl, rfl⟩

end Parsers

end Jadren.Journal

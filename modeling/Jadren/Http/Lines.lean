import Mathlib.Data.List.DropRight
import Jadren.Http.Frames

/-!
# Lines and headers as text

What the scans by index find, said of the text itself: `data.drop cursor` is a line and what
follows it.  A header is a name, a colon and a value; `headerTo` finds these parts in every line
that has a colon.
-/

namespace Jadren.Http

open List

def crlf : Bytes := [13, 10]

/-- The text of a line does not contain the end of a line. -/
def IsLine (text : Bytes) : Prop := ¬ crlf <:+: text

/-- A token that is not empty. -/
def IsName (text : Bytes) : Prop := text ≠ [] ∧ ∀ c ∈ text, isToken c = true

/-- The text without the blanks at both ends. -/
def trimmed (text : Bytes) : Bytes := (text.dropWhile isBlank).rdropWhile isBlank

structure HeaderLine where
  name : Bytes
  value : Bytes
  isName : IsName name
  isLine : IsLine value

namespace HeaderLine

/-- The line with its end. -/
def bytes (line : HeaderLine) : Bytes := line.name ++ 58 :: line.value ++ crlf

/-- Where the parts of the line are if it begins at the cursor. -/
def field (line : HeaderLine) (cursor : ℕ) : Field where
  nameStart := cursor
  nameLength := line.name.length
  valueStart := cursor + line.name.length + 1 + (line.value.takeWhile isBlank).length
  valueLength := (trimmed line.value).length

end HeaderLine

/-- There is a line at the cursor, not the first of the data, that has no colon. -/
def Colonless (data : Bytes) (cursor : ℕ) : Prop :=
  0 < cursor ∧ ∃ line rest, data.drop cursor = line ++ crlf ++ rest ∧ IsLine line ∧ line ≠ [] ∧
    58 ∉ line

/-! ## Ends of lines -/

section Ends

variable {data line rest name value : Bytes} {start cursor i : ℕ} {c : UInt8}

theorem byteAt_drop (data : Bytes) (start i : ℕ) :
    byteAt (data.drop start) i = byteAt data (start + i) := by
  unfold byteAt
  rw [getD_eq_getElem?_getD, getElem?_drop, ← getD_eq_getElem?_getD]

theorem crlfAt_iff : crlfAt data i = true ↔ crlf <+: data.drop i := by
  have hshift : crlfAt data i = crlfAt (data.drop i) 0 := by
    unfold crlfAt
    rw [byteAt_drop, byteAt_drop]
    rfl
  rw [hshift]
  -- a missing byte is zero, which is neither of the two
  match data.drop i with
  | [] => decide
  | [a] => simp [crlfAt, byteAt, crlf]
  | a :: b :: rest =>
      simp only [crlfAt, byteAt, crlf, getD_cons_zero, getD_cons_succ, Bool.and_eq_true,
        beq_iff_eq, cons_prefix_cons, nil_prefix, and_true]
      rw [eq_comm, eq_comm (a := b)]

theorem isLine_nil : IsLine [] := by
  intro h
  exact absurd (infix_nil.mp h) (by decide)

theorem isLine_cons : IsLine (c :: line) ↔ ¬ crlf <+: c :: line ∧ IsLine line := by
  unfold IsLine
  rw [infix_cons_iff, not_or]

theorem isLine_cons_of_ne (hc : c ≠ 13) : IsLine (c :: line) ↔ IsLine line := by
  rw [isLine_cons, and_iff_right_iff_imp]
  intro _ h
  exact hc (cons_prefix_cons.mp h).1.symm

theorem isLine_append (hname : 13 ∉ name) : IsLine (name ++ line) ↔ IsLine line := by
  induction name with
  | nil => rfl
  | cons c name ih =>
      rw [mem_cons, not_or] at hname
      rw [cons_append, isLine_cons_of_ne (Ne.symm hname.1), ih hname.2]

theorem isLine_of_notMem (hline : 13 ∉ line) : IsLine line := by
  rw [← append_nil line, isLine_append hline]
  exact isLine_nil

/-- No line ends inside a line or one byte before its end. -/
theorem IsLine.not_crlf (h : IsLine line) (hi : i < line.length) :
    ¬ crlf <+: (line ++ crlf ++ rest).drop i := by
  induction line generalizing i with
  | nil => exact absurd hi (Nat.not_lt_zero i)
  | cons c line ih =>
      rw [isLine_cons] at h
      cases i with
      | zero =>
          intro hcrlf
          apply h.1
          cases line with
          | nil => exact absurd hcrlf (by simp [crlf])
          | cons => simpa [crlf] using hcrlf
      | succ => exact ih h.2 (Nat.lt_of_succ_lt_succ hi)

/-- The first end of a line after the cursor ends the line at the cursor. -/
theorem firstLine_eq_some : firstIndex (crlfAt data) cursor (data.length - 1) = some i ↔
    ∃ line rest, data.drop cursor = line ++ crlf ++ rest ∧ IsLine line ∧
    i = cursor + line.length := by
  rw [firstIndex_eq_some]
  constructor
  · rintro ⟨hle, -, hi, hbefore⟩
    obtain ⟨rest, hrest⟩ := crlfAt_iff.mp hi
    have hline : data.drop cursor = slice data cursor (i - cursor) ++ crlf ++ rest := by
      calc data.drop cursor
          = slice data cursor (i - cursor) ++ (data.drop cursor).drop (i - cursor) :=
            (take_append_drop _ _).symm
        _ = slice data cursor (i - cursor) ++ data.drop i := by
            rw [drop_drop, Nat.add_sub_cancel' hle]
        _ = slice data cursor (i - cursor) ++ crlf ++ rest := by rw [← hrest, append_assoc]
    have hbound : i < data.length := by
      by_contra hge
      rw [drop_of_length_le (by omega)] at hrest
      exact absurd hrest (by simp [crlf])
    have hlength : (slice data cursor (i - cursor)).length = i - cursor :=
      length_slice (by omega)
    refine ⟨slice data cursor (i - cursor), rest, hline, ?_, by omega⟩
    rintro ⟨before, after, hinfix⟩
    -- an end of a line inside the line would have been found first
    have hsplit : data.drop (cursor + before.length) = crlf ++ (after ++ crlf ++ rest) := by
      rw [← drop_drop, hline, ← hinfix]
      simp
    have hshort := congrArg length hinfix
    rw [length_append, length_append, hlength] at hshort
    have hnot := hbefore (cursor + before.length) (by omega) (by simp [crlf] at hshort; omega)
    rw [← Bool.not_eq_true, crlfAt_iff, hsplit] at hnot
    exact hnot (prefix_append _ _)
  · rintro ⟨line, rest, hdata, hline, rfl⟩
    have hlength := congrArg length hdata
    simp only [length_drop, length_append, crlf, length_cons, length_nil]
      at hlength
    refine ⟨by omega, by omega, ?_, fun j hj hlt => ?_⟩
    · rw [crlfAt_iff, ← drop_drop, hdata, append_assoc, drop_left]
      exact prefix_append _ _
    · obtain ⟨k, rfl⟩ := Nat.exists_eq_add_of_le hj
      rw [← Bool.not_eq_true, crlfAt_iff, ← drop_drop, hdata]
      exact hline.not_crlf (by omega)

end Ends

/-! ## Blanks -/

section Blanks

variable {data value rest : Bytes} {start : ℕ}

theorem trimLeft_eq (h : data.drop start = value ++ rest) : trimLeft data start value.length =
    (start + (value.takeWhile isBlank).length, (value.dropWhile isBlank).length) := by
  induction value generalizing start with
  | nil => rfl
  | cons c value ih =>
      have hc : byteAt data start = c := by
        have hzero := byteAt_drop data start 0
        rw [h] at hzero
        exact hzero.symm
      have hrest : data.drop (start + 1) = value ++ rest := by
        rw [← drop_drop, h]
        rfl
      rw [length_cons]
      unfold trimLeft
      rw [hc]
      split
      next hblank =>
        rw [ih hrest, takeWhile_cons_of_pos hblank, dropWhile_cons_of_pos hblank,
          length_cons, Nat.add_right_comm, Nat.add_assoc]
      next hblank =>
        rw [takeWhile_cons_of_neg hblank, dropWhile_cons_of_neg hblank]
        rfl

theorem trimRight_eq (h : data.drop start = value ++ rest) :
    trimRight data start value.length = (value.rdropWhile isBlank).length := by
  induction value using reverseRecOn generalizing rest with
  | nil => rfl
  | append_singleton value c ih =>
      have hc : byteAt data (start + value.length) = c := by
        rw [← byteAt_drop, h]
        simp [byteAt]
      have hvalue : data.drop start = value ++ (c :: rest) := by
        rw [h, append_assoc]
        rfl
      rw [length_append, length_singleton]
      unfold trimRight
      rw [hc]
      split
      next hblank => rw [ih hvalue, rdropWhile_concat_pos _ _ _ hblank]
      next hblank => simp [rdropWhile_concat_neg _ _ _ hblank]

theorem takeWhile_length_add (value : Bytes) :
    (value.takeWhile isBlank).length + (value.dropWhile isBlank).length = value.length := by
  rw [← length_append, takeWhile_append_dropWhile]

theorem trimmed_length_le (value : Bytes) :
    (trimmed value).length ≤ (value.dropWhile isBlank).length :=
  (List.rdropWhile_prefix _ _).length_le

end Blanks

/-! ## Separators -/

section Separators

variable {data line rest before after : Bytes} {cursor : ℕ} {c : UInt8}

/-- The first byte of a kind in a line ends what stands before it in the line. -/
theorem firstByte_of_line (h : data.drop cursor = line ++ rest)
    (hline : line = before ++ c :: after)
    (hbefore : c ∉ before) : firstIndex (isByte c data) cursor (cursor + line.length) =
      some (cursor + before.length) := by
  have hlength := congrArg length h
  rw [length_drop, length_append] at hlength
  have hpos : 0 < line.length := by simp [hline]
  refine (firstEntry_eq_some (p := fun b => b == c) (d := 0) (by omega)).mpr
    ⟨before, c, after, ?_, ?_, beq_self_eq_true c, rfl⟩
  · rw [Nat.add_sub_cancel_left, slice_of_drop h, hline]
  · intro b hb
    rw [beq_eq_false_iff_ne]
    rintro rfl
    exact hbefore hb

theorem firstByte_of_notMem (h : data.drop cursor = line ++ rest) (hline : c ∉ line) :
    firstIndex (isByte c data) cursor (cursor + line.length) = none := by
  rw [← Option.not_isSome_iff_eq_none, Option.isSome_iff_exists]
  rintro ⟨i, hi⟩
  have hlength := congrArg length h
  rw [length_drop, length_append] at hlength
  have hbound : cursor + line.length ≤ data.length := by
    have hlt := firstIndex_eq_some.mp hi
    omega
  obtain ⟨before, b, after, hslice, -, hb, -⟩ :=
    (firstEntry_eq_some (p := fun b => b == c) (d := 0) hbound).mp hi
  rw [Nat.add_sub_cancel_left, slice_of_drop h] at hslice
  apply hline
  rw [hslice, ← beq_iff_eq.mp hb]
  simp

theorem allBytes_iff (h : data.drop cursor = line ++ rest) (hpos : cursor ≤ data.length)
    (p : UInt8 → Bool) :
    allIndices (fun i => p (byteAt data i)) cursor (cursor + line.length) = true ↔
      ∀ b ∈ line, p b = true := by
  have hlength := congrArg length h
  rw [length_drop, length_append] at hlength
  have hbound : cursor + line.length ≤ data.length := by omega
  have hall := allEntries_iff hbound p 0 cursor
  rw [Nat.add_sub_cancel_left, slice_of_drop h] at hall
  exact hall

end Separators

/-! ## Headers in lines -/

section Headers

variable {data line rest name value : Bytes} {cursor : ℕ}

theorem headerTo_eq_header (line : HeaderLine) (hdata : data.length < 2 ^ 64)
    (h : data.drop cursor = line.bytes ++ rest) (hcolon : 58 ∉ line.name) :
    headerTo data cursor (cursor + (line.name ++ 58 :: line.value).length) =
      .header (line.field cursor) (cursor + line.bytes.length) := by
  obtain ⟨name, value, hname, hvalue⟩ := line
  have hlength := congrArg length h
  simp only [HeaderLine.bytes, length_drop, length_append, length_cons] at hlength
  have hnamePos : 0 < name.length := length_pos_iff.mpr hname.1
  have hline : data.drop cursor = (name ++ 58 :: value) ++ (crlf ++ rest) := by
    rw [h, HeaderLine.bytes]
    simp
  have hnameAt : data.drop cursor = name ++ (58 :: value ++ crlf ++ rest) := by
    rw [hline]
    simp
  have hvalueAt : data.drop (cursor + name.length + 1) = value ++ (crlf ++ rest) := by
    rw [Nat.add_assoc, ← drop_drop, hline]
    simp
  have hrestAt : data.drop (cursor + name.length + 1 + (value.takeWhile isBlank).length) =
      value.dropWhile isBlank ++ (crlf ++ rest) := by
    have hsplit : value = value.takeWhile isBlank ++ value.dropWhile isBlank :=
      takeWhile_append_dropWhile.symm
    rw [← drop_drop, hvalueAt]
    nth_rewrite 2 [hsplit]
    rw [append_assoc, drop_left]
  unfold headerTo
  rw [firstByte_of_line hline rfl hcolon]
  simp only [Option.getD_some]
  rw [if_neg (by omega), (allBytes_iff hnameAt (by omega) isToken).mpr hname.2]
  have hvalueLength : cursor + (name ++ 58 :: value).length - (cursor + name.length) - 1 =
      value.length := by
    rw [length_append, length_cons]
    omega
  have hwrap : (2 ^ 64 + (cursor + name.length) - cursor) % 2 ^ 64 = name.length := by omega
  rw [hvalueLength, trimLeft_eq hvalueAt, hwrap]
  simp only [Bool.not_true, Bool.false_eq_true, if_false]
  rw [trimRight_eq hrestAt]
  simp [HeaderLine.field, HeaderLine.bytes, trimmed, crlf, Nat.add_assoc]

/-- What is returned as a header at a line with a colon is its name and its value. -/
theorem headerTo_ne_malformed (h : data.drop cursor = line ++ crlf ++ rest)
    (hline : line = name ++ 58 :: value) (hcolon : 58 ∉ name)
    (hheader : headerTo data cursor (cursor + line.length) ≠ .malformed) : IsName name := by
  have hlength := congrArg length h
  simp only [hline, length_drop, length_append, length_cons] at hlength
  have hnameAt : data.drop cursor = name ++ (58 :: value ++ crlf ++ rest) := by
    rw [h, hline]
    simp
  rw [append_assoc] at h
  unfold headerTo at hheader
  rw [firstByte_of_line h hline hcolon] at hheader
  simp only [Option.getD_some] at hheader
  split at hheader
  · exact absurd rfl hheader
  next hne =>
    split at hheader
    · exact absurd rfl hheader
    next htokens =>
      rw [Bool.not_eq_true, Bool.not_eq_false', allBytes_iff hnameAt (by omega) isToken] at htokens
      refine ⟨?_, htokens⟩
      rintro rfl
      exact hne rfl

/-- Without a colon every line but the first is returned as a header. -/
theorem headerTo_colonless (h : data.drop cursor = line ++ crlf ++ rest) (hline : 58 ∉ line)
    (hcursor : 0 < cursor) : headerTo data cursor (cursor + line.length) ≠ .malformed := by
  rw [append_assoc] at h
  unfold headerTo
  rw [firstByte_of_notMem h hline]
  have hnone : allIndices (fun i => isToken (byteAt data i)) cursor 0 = true :=
    allIndices_iff.mpr fun j hle hlt => absurd hlt (Nat.not_lt_zero j)
  simp only [Option.getD_none]
  rw [if_neg (by omega), hnone]
  simp

theorem headerTo_first (h : data.drop 0 = line ++ crlf ++ rest) (hline : 58 ∉ line) :
    headerTo data 0 line.length = .malformed := by
  rw [append_assoc] at h
  have hnone := firstByte_of_notMem h hline
  rw [Nat.zero_add] at hnone
  unfold headerTo
  rw [hnone]
  rfl

end Headers

end Jadren.Http

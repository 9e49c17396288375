import Jadren.Http.Lines
import Jadren.Http.Receiving

/-!
# The language of heads

A head is a request line, header lines and an empty line.  Where every line of the headers has a
colon the parsers accept exactly the heads and return the ranges of their parts.

The scan for the colon starts from zero, which then also stands for a line without a colon.  Only
the first line of the data can have its colon at zero, so that such a line is returned as a header
of a name whose length has wrapped and of a value that begins with the second byte of the data.
-/

namespace Jadren.Http

open List

/-- What a call for the next header is to return. -/
structure CallCorrect (data : Bytes) (cursor : ℕ) : Prop where
  finished : ∀ next, nextHeader data cursor = .finished next ↔
    crlf <+: data.drop cursor ∧ next = cursor + 2
  header : ∀ field next, nextHeader data cursor = .header field next ↔
    ∃ (line : HeaderLine) (rest : Bytes), data.drop cursor = line.bytes ++ rest ∧
      field = line.field cursor ∧ next = cursor + line.bytes.length
  ranges : ∀ field next, nextHeader data cursor = .header field next →
    field.nameStart = cursor ∧ 0 < field.nameLength ∧
      byteAt data (field.nameStart + field.nameLength) = 58 ∧
      field.nameStart + field.nameLength < field.valueStart ∧
      field.valueStart + field.valueLength + 2 ≤ next ∧ next ≤ data.length ∧
      IsLine (slice data cursor (next - 2 - cursor))
  colonless : ∀ line rest, data.drop cursor = line ++ crlf ++ rest → IsLine line → line ≠ [] →
    58 ∉ line → nextHeader data cursor = .malformed

/-! ## A call -/

section Calls

variable {data line rest : Bytes} {cursor : ℕ}

theorem isToken_colon : isToken 58 = false := by decide

theorem isToken_return : isToken 13 = false := by decide

theorem IsName.notMem {name : Bytes} {c : UInt8} (h : IsName name) (hc : isToken c = false) :
    c ∉ name := by
  intro hmem
  rw [h.2 c hmem] at hc
  exact absurd hc (by simp)

theorem nextHeader_line (h : data.drop cursor = line ++ crlf ++ rest) (hline : IsLine line)
    (hpos : line ≠ []) : nextHeader data cursor = headerTo data cursor (cursor + line.length) := by
  have hfirst := firstLine_eq_some.mpr ⟨line, rest, h, hline, rfl⟩
  obtain ⟨-, hbound, -, hbefore⟩ := firstIndex_eq_some.mp hfirst
  have hlength := length_pos_iff.mpr hpos
  have hcursor := hbefore cursor le_rfl (by omega)
  unfold nextHeader
  rw [if_neg (by omega), if_neg (by simp [hcursor]), hfirst]
  simp only [Option.getD_some]
  rw [if_neg (by omega)]

theorem HeaderLine.split (line : HeaderLine) :
    line.bytes = (line.name ++ 58 :: line.value) ++ crlf ∧ IsLine (line.name ++ 58 :: line.value) ∧
      line.name ++ 58 :: line.value ≠ [] := by
  refine ⟨rfl, ?_, by simp⟩
  rw [isLine_append (line.isName.notMem isToken_return), isLine_cons_of_ne (by decide)]
  exact line.isLine

theorem nextHeader_of_headerLine (hdata : data.length < 2 ^ 64) (line : HeaderLine)
    (h : data.drop cursor = line.bytes ++ rest) :
    nextHeader data cursor = .header (line.field cursor) (cursor + line.bytes.length) := by
  obtain ⟨hbytes, hline, hpos⟩ := line.split
  rw [nextHeader_line (hbytes ▸ h) hline hpos]
  exact headerTo_eq_header line hdata h (line.isName.notMem isToken_colon)

/-- A header that is returned at a line with a colon is the header of that line. -/
theorem headerLine_of_nextHeader (hdata : data.length < 2 ^ 64) {field : Field} {next : ℕ}
    (hcolon : ¬ Colonless data cursor) (h : nextHeader data cursor = .header field next) :
    ∃ (line : HeaderLine) (rest : Bytes), data.drop cursor = line.bytes ++ rest ∧
      field = line.field cursor ∧ next = cursor + line.bytes.length := by
  obtain ⟨lineEnd, hfirst, hlt, hheader⟩ := nextHeader_eq_header.mp h
  obtain ⟨text, rest, htext, hline, rfl⟩ := firstLine_eq_some.mp hfirst
  have hpos : text ≠ [] := by
    rintro rfl
    simp at hlt
  have hmem : 58 ∈ text := by
    by_contra hnot
    rcases Nat.eq_zero_or_pos cursor with rfl | hcursor
    · rw [Nat.zero_add, headerTo_first htext hnot] at hheader
      exact absurd hheader (by simp)
    · exact hcolon ⟨hcursor, text, rest, htext, hline, hpos, hnot⟩
  obtain ⟨name, value, rfl, hname⟩ := eq_append_cons_of_mem hmem
  have hisName := headerTo_ne_malformed htext rfl hname (by rw [hheader]; simp)
  rw [isLine_append (hisName.notMem isToken_return), isLine_cons_of_ne (by decide)] at hline
  have hfound := nextHeader_of_headerLine hdata ⟨name, value, hisName, hline⟩ htext
  rw [h] at hfound
  obtain ⟨hfield, hnext⟩ := NextHeader.header.inj hfound
  exact ⟨⟨name, value, hisName, hline⟩, rest, htext, hfield, hnext⟩

theorem HeaderLine.ranges (line : HeaderLine) (h : data.drop cursor = line.bytes ++ rest) :
    0 < line.name.length ∧ byteAt data (cursor + line.name.length) = 58 ∧
      cursor + line.name.length < (line.field cursor).valueStart ∧
      (line.field cursor).valueStart + (line.field cursor).valueLength + 2 ≤
        cursor + line.bytes.length ∧ cursor + line.bytes.length ≤ data.length ∧
      IsLine (slice data cursor (line.bytes.length - 2)) := by
  obtain ⟨hbytes, hline, -⟩ := line.split
  have hlength := congrArg length h
  rw [length_drop, length_append] at hlength
  have hname := length_pos_iff.mpr line.isName.1
  have hvalue := takeWhile_length_add line.value
  have htrimmed := trimmed_length_le line.value
  have hbytesLength : line.bytes.length = line.name.length + line.value.length + 3 := by
    simp [HeaderLine.bytes, crlf]
    omega
  refine ⟨hname, ?_, ?_, ?_, by omega, ?_⟩
  · rw [← byteAt_drop, h, hbytes]
    simp [byteAt]
  · simp only [HeaderLine.field]
    omega
  · simp only [HeaderLine.field]
    omega
  · have htextLength : line.bytes.length - 2 = (line.name ++ 58 :: line.value).length := by
      rw [hbytesLength, length_append, length_cons]
      omega
    have htext : data.drop cursor = (line.name ++ 58 :: line.value) ++ (crlf ++ rest) := by
      rw [h, hbytes, append_assoc]
    rw [htextLength, slice_of_drop htext]
    exact hline

/-- Calls are right exactly where the line has a colon. -/
theorem callCorrect_iff (hdata : data.length < 2 ^ 64) :
    CallCorrect data cursor ↔ ¬ Colonless data cursor := by
  constructor
  · rintro h ⟨hcursor, line, rest, htext, hline, hpos, hnot⟩
    have hmalformed := h.colonless line rest htext hline hpos hnot
    rw [nextHeader_line htext hline hpos] at hmalformed
    exact headerTo_colonless htext hnot hcursor hmalformed
  · intro hcolon
    have hheader : ∀ field next, nextHeader data cursor = .header field next ↔
        ∃ (line : HeaderLine) (rest : Bytes), data.drop cursor = line.bytes ++ rest ∧
          field = line.field cursor ∧ next = cursor + line.bytes.length := by
      intro field next
      constructor
      · exact headerLine_of_nextHeader hdata hcolon
      · rintro ⟨line, rest, htext, rfl, rfl⟩
        exact nextHeader_of_headerLine hdata line htext
    refine ⟨fun next => ?_, hheader, fun field next h => ?_, ?_⟩
    · rw [nextHeader_eq_finished, crlfAt_iff]
      constructor
      · exact fun h => ⟨h.2.2, h.1⟩
      · rintro ⟨hcrlf, rfl⟩
        have hlength := hcrlf.length_le
        rw [length_drop] at hlength
        exact ⟨rfl, by simp [crlf] at hlength; omega, hcrlf⟩
    · obtain ⟨line, rest, htext, rfl, rfl⟩ := (hheader field next).mp h
      obtain ⟨hname, hbyte, hvalue, hend, hbound, hline⟩ := line.ranges htext
      have hcut : cursor + line.bytes.length - 2 - cursor = line.bytes.length - 2 := by omega
      rw [hcut]
      exact ⟨rfl, hname, hbyte, hvalue, hend, hbound, hline⟩
    · intro line rest htext hline hpos hnot
      rcases Nat.eq_zero_or_pos cursor with rfl | hcursor
      · rw [nextHeader_line htext hline hpos, Nat.zero_add]
        exact headerTo_first htext hnot
      · exact absurd ⟨hcursor, line, rest, htext, hline, hpos, hnot⟩ hcolon

end Calls

/-! ## The request line -/

/-- A byte of a target. -/
def isVisible (c : UInt8) : Bool := 0x21 ≤ c && c ≤ 0x7E

structure RequestText where
  method : Bytes
  target : Bytes
  isMethod : IsName method
  isTarget : target ≠ [] ∧ ∀ c ∈ target, isVisible c = true

namespace RequestText

def bytes (text : RequestText) : Bytes :=
  text.method ++ 32 :: (text.target ++ 32 :: httpVersion)

/-- Where the parts of the line are. -/
def parts (text : RequestText) : RequestLine where
  methodLength := text.method.length
  targetStart := text.method.length + 1
  targetLength := text.target.length
  headersStart := (text.bytes ++ crlf).length

end RequestText

section RequestLines

variable {data line rest method target version : Bytes} {result : RequestLine}

theorem isToken_space : isToken 32 = false := by decide

theorem isVisible_space : isVisible 32 = false := by decide

theorem isVisible_return : isVisible 13 = false := by decide

theorem notMem_of_visible {c : UInt8} (h : ∀ b ∈ target, isVisible b = true)
    (hc : isVisible c = false) : c ∉ target := by
  intro hmem
  rw [h c hmem] at hc
  exact absurd hc (by simp)

theorem RequestText.isLine (text : RequestText) : IsLine text.bytes := by
  apply isLine_of_notMem
  unfold RequestText.bytes
  simp only [List.mem_append, List.mem_cons, not_or]
  exact ⟨text.isMethod.notMem isToken_return, by decide,
    notMem_of_visible text.isTarget.2 isVisible_return, by decide, by decide⟩

/-- A line without a second space is not a request line. -/
theorem parseLineTo_eq_none (method : Bytes) (h : data = line ++ rest)
    (hspace : 32 ∉ line ∨ ∃ after, line = method ++ 32 :: after ∧ 32 ∉ method ∧ 32 ∉ after) :
    parseLineTo data line.length = none := by
  have hline : data.drop 0 = line ++ rest := h
  unfold parseLineTo
  rcases hspace with hnot | ⟨after, hsplit, hmethod, hafter⟩
  · have hfirst := firstByte_of_notMem hline hnot
    rw [Nat.zero_add] at hfirst
    rw [hfirst]
    simp
  · have hfirst := firstByte_of_line hline hsplit hmethod
    rw [Nat.zero_add, Nat.zero_add] at hfirst
    have hafterAt : data.drop (method.length + 1) = after ++ rest := by
      rw [h, hsplit]
      simp
    have hlength : method.length + 1 + after.length = line.length := by
      rw [hsplit, length_append, length_cons]
      omega
    have hsecond := firstByte_of_notMem hafterAt hafter
    rw [hlength] at hsecond
    rw [hfirst]
    simp only [Option.getD_some]
    rw [hsecond]
    simp

/-- A line with two spaces is a request line if its three parts are right. -/
theorem parseLineTo_eq_some (h : data = line ++ rest)
    (hsplit : line = method ++ 32 :: (target ++ 32 :: version)) (hmethod : 32 ∉ method)
    (htarget : 32 ∉ target) : parseLineTo data line.length = some result ↔
      version = httpVersion ∧ IsName method ∧ (target ≠ [] ∧ ∀ c ∈ target, isVisible c = true) ∧
        result = ⟨method.length, method.length + 1, target.length, line.length + 2⟩ := by
  -- the first space is the one after the method
  have hline : data.drop 0 = line ++ rest := h
  have hfirst := firstByte_of_line hline hsplit hmethod
  rw [Nat.zero_add, Nat.zero_add] at hfirst
  -- where the parts of the line are in the data
  have hmethodAt : data.drop 0 = method ++ (32 :: (target ++ 32 :: version) ++ rest) := by
    rw [hline, hsplit]
    simp
  have htargetAt : data.drop (method.length + 1) = target ++ (32 :: version ++ rest) := by
    rw [h, hsplit]
    simp
  have hafterAt : data.drop (method.length + 1) = (target ++ 32 :: version) ++ rest := by
    rw [htargetAt]
    simp
  have hversionAt : data.drop (method.length + 1 + target.length + 1) = version ++ rest := by
    rw [Nat.add_assoc, ← drop_drop, htargetAt]
    simp
  have hlength : line.length = method.length + 1 + target.length + 1 + version.length := by
    rw [hsplit]
    simp
    omega
  -- the second space is the one after the target
  have hsecond := firstByte_of_line hafterAt rfl htarget
  have hafterLength : method.length + 1 + (target ++ 32 :: version).length = line.length := by
    rw [length_append, length_cons]
    omega
  rw [hafterLength] at hsecond
  have hbound : line.length ≤ data.length := by simp [h]
  have htokens := allBytes_iff hmethodAt (Nat.zero_le _) isToken
  rw [Nat.zero_add] at htokens
  have hvisible := allBytes_iff htargetAt (by omega) isVisible
  unfold isVisible at hvisible
  unfold parseLineTo
  rw [hfirst]
  simp only [Option.getD_some]
  rw [hsecond]
  simp only [Option.getD_some]
  have hversion : line.length - (method.length + 1 + target.length + 1) = version.length := by omega
  rw [hversion]
  constructor
  · -- the tests in the order of the source
    rw [Option.ite_none_left_eq_some, Option.ite_none_left_eq_some, Option.ite_none_left_eq_some,
      Option.ite_none_left_eq_some, Option.ite_none_left_eq_some, Option.ite_none_right_eq_some]
    rintro ⟨hpos, hend, hname, htoken, hvisibles, hparts, hsome⟩
    have height : version.length = 8 := by omega
    rw [← height, slice_of_drop hversionAt] at hname
    rw [Bool.not_eq_true, Bool.not_eq_false'] at htoken hvisibles
    have htargetPos : 0 < target.length := by omega
    refine ⟨not_not.mp hname, ⟨length_pos_iff.mp hparts.1, htokens.mp htoken⟩,
      ⟨length_pos_iff.mp htargetPos, hvisible.mp hvisibles⟩, ?_⟩
    rw [← Option.some.inj hsome]
    congr 1
    omega
  · rintro ⟨rfl, hname, htargets, rfl⟩
    have hmethodPos := length_pos_iff.mpr hname.1
    have htargetPos := length_pos_iff.mpr htargets.1
    have height : httpVersion.length = 8 := rfl
    have hslice := slice_of_drop hversionAt
    rw [height] at hslice
    rw [if_neg (by omega), if_neg (by omega), hslice, htokens.mpr hname.2,
      hvisible.mpr htargets.2]
    simp only [ne_eq, not_true_eq_false, if_false, Bool.not_true, Bool.false_eq_true]
    rw [if_pos (by omega)]
    congr 2
    omega

/-- The line that is returned is the one at the beginning of the data. -/
theorem parseLine_iff : parseLine data = some result ↔
    ∃ (text : RequestText) (rest : Bytes), data = text.bytes ++ crlf ++ rest ∧
      result = text.parts := by
  rw [parseLine_eq_some]
  constructor
  · rintro ⟨lineEnd, -, hfirst, hresult⟩
    obtain ⟨line, rest, hdata, -, rfl⟩ := firstLine_eq_some.mp hfirst
    rw [drop_zero] at hdata
    have happend := hdata
    rw [append_assoc] at happend
    rw [Nat.zero_add] at hresult
    have hnone : parseLineTo data line.length ≠ none := by
      rw [hresult]
      simp
    -- a line with less than two spaces is not accepted
    by_cases hspace : 32 ∈ line
    · obtain ⟨method, after, hsplit, hmethod⟩ := eq_append_cons_of_mem hspace
      by_cases hsecond : 32 ∈ after
      · obtain ⟨target, version, rfl, htarget⟩ := eq_append_cons_of_mem hsecond
        obtain ⟨rfl, hisMethod, hisTarget, rfl⟩ :=
          (parseLineTo_eq_some happend hsplit hmethod htarget).mp hresult
        refine ⟨⟨method, target, hisMethod, hisTarget⟩, rest, ?_, ?_⟩
        · rw [hdata, hsplit]
          rfl
        · rw [hsplit]
          simp [RequestText.parts, RequestText.bytes, crlf]
          omega
      · exact absurd (parseLineTo_eq_none method happend (.inr ⟨after, hsplit, hmethod, hsecond⟩))
          hnone
    · exact absurd (parseLineTo_eq_none [] happend (.inl hspace)) hnone
  · rintro ⟨text, rest, hdata, rfl⟩
    have hline : data.drop 0 = text.bytes ++ crlf ++ rest := hdata
    have hfirst := firstLine_eq_some.mpr ⟨text.bytes, rest, hline, text.isLine, rfl⟩
    rw [Nat.zero_add] at hfirst
    refine ⟨text.bytes.length, by simp [RequestText.bytes], hfirst, ?_⟩
    rw [append_assoc] at hdata
    refine (parseLineTo_eq_some hdata rfl (text.isMethod.notMem isToken_space)
      (notMem_of_visible text.isTarget.2 isVisible_space)).mpr
        ⟨rfl, text.isMethod, text.isTarget, ?_⟩
    simp [RequestText.parts, crlf]

end RequestLines

end Jadren.Http

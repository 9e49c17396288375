import Jadren.Http.HeadLanguage

/-!
# Heads

The head as a whole: the loops over the headers see the lines of the text in their order, so that
the parser of the headers and the search for one of them agree on what the headers are.  All of it
holds exactly where no line without a colon follows the lines that are headers.
-/

namespace Jadren.Http

open Folds List Digits

structure HeadText where
  request : RequestText
  lines : List HeaderLine

/-- The lines, each with the index at which it begins. -/
def locate : ℕ → List HeaderLine → List (HeaderLine × ℕ)
  | _, [] => []
  | cursor, line :: lines => (line, cursor) :: locate (cursor + line.bytes.length) lines

def isNamed (name : Bytes) (line : HeaderLine) : Bool := line.name.map lower == name.map lower

namespace HeadText

/-- The request line and the headers. -/
def lead (text : HeadText) : Bytes :=
  text.request.bytes ++ crlf ++ text.lines.flatMap HeaderLine.bytes

def bytes (text : HeadText) : Bytes := text.lead ++ crlf

def located (text : HeadText) : List (HeaderLine × ℕ) :=
  locate text.request.parts.headersStart text.lines

/-- The values of the headers that are named `Content-Length`. -/
def lengths (text : HeadText) : List Bytes :=
  (text.lines.filter (isNamed contentLengthName)).map fun line => trimmed line.value

/-- There is no length, or one: the number that its digits stand for. -/
def DeclaresLength (text : HeadText) : Bool → ℕ → Prop
  | false, n => text.lengths = [] ∧ n = 0
  | true, n => ∃ value ds, text.lengths = [value] ∧ value ≠ [] ∧
      value.map decimal = ds.map some ∧ n = number 10 0 ds ∧ n ≤ maxLength

/-- The range of the value of the one header of the name. -/
def find (text : HeadText) (name : Bytes) : FindHeader :=
  match text.located.filter (fun located => isNamed name located.1) with
  | [] => .absent
  | [(line, cursor)] => .found (line.field cursor).valueStart (line.field cursor).valueLength
  | _ => .error

end HeadText

/-- The cursors of the calls for the next header. -/
inductive Reached (data : Bytes) (start : ℕ) : ℕ → Prop
  | start : Reached data start start
  | next {cursor next : ℕ} {field : Field} (before : Reached data start cursor)
      (h : nextHeader data cursor = .header field next) : Reached data start next

/-- What the parsers of a head are to do with the data. -/
structure HeadCorrect (data : Bytes) : Prop where
  accepted : ∀ line head, parseHead data = some (line, head) ↔
    ∃ text : HeadText, text.bytes <+: data ∧ line = text.request.parts ∧
      head.bodyStart = text.bytes.length ∧
      text.DeclaresLength head.hasContentLength head.contentLength ∧
      head.hasTransferEncoding = text.lines.any (isNamed transferEncodingName)
  calls : ∀ line, parseLine data = some line → ∀ cursor, Reached data line.headersStart cursor →
    CallCorrect data cursor
  found : ∀ text : HeadText, text.bytes <+: data → ∀ name, name ≠ [] →
    findHeader data text.request.parts.headersStart name = text.find name
  malformed : ∀ line, parseLine data = some line → (∀ text : HeadText, ¬ text.bytes <+: data) →
    headers data line.headersStart = none ∧
      ∀ name, findHeader data line.headersStart name = .error

/-- After the request line and some headers there is a line that has no colon. -/
def ReachesColonless (data : Bytes) : Prop :=
  ∃ (text : HeadText) (line rest : Bytes), data = text.lead ++ (line ++ crlf ++ rest) ∧
    IsLine line ∧ line ≠ [] ∧ 58 ∉ line

/-! ## Walks over lines -/

section Walks

variable {data rest : Bytes} {cursor start stop : ℕ} {lines : List HeaderLine}

/-- The header of a line that has been located. -/
def fieldOf (located : HeaderLine × ℕ) : Field := located.1.field located.2

theorem locate_at (h : data.drop cursor = lines.flatMap HeaderLine.bytes ++ rest) :
    ∀ located ∈ locate cursor lines, ∃ rest, data.drop located.2 = located.1.bytes ++ rest := by
  induction lines generalizing cursor with
  | nil => exact fun _ hmem => absurd hmem not_mem_nil
  | cons line lines ih =>
      rw [flatMap_cons, append_assoc] at h
      intro located hmem
      rcases mem_cons.mp hmem with rfl | hmem
      · exact ⟨_, h⟩
      · refine ih ?_ located hmem
        rw [← drop_drop, h, drop_left]

theorem walk_of_lines (hdata : data.length < 2 ^ 64)
    (h : data.drop cursor = lines.flatMap HeaderLine.bytes ++ crlf ++ rest) :
    Walk data cursor ((locate cursor lines).map fieldOf)
      (cursor + (lines.flatMap HeaderLine.bytes ++ crlf).length) := by
  induction lines generalizing cursor with
  | nil =>
      refine .finished (nextHeader_eq_finished.mpr ⟨rfl, ?_, ?_⟩)
      · have hlength := congrArg length h
        simp only [flatMap_nil, nil_append, length_drop, length_append,
          crlf, length_cons, length_nil] at hlength
        simp [crlf]
        omega
      · rw [crlfAt_iff, h]
        exact prefix_append _ _
  | cons line lines ih =>
      rw [flatMap_cons, append_assoc, append_assoc] at h
      have hrest : data.drop (cursor + line.bytes.length) =
          lines.flatMap HeaderLine.bytes ++ crlf ++ rest := by
        rw [← drop_drop, h, drop_left, append_assoc]
      have hwalk := Walk.header (nextHeader_of_headerLine hdata line h) (ih hrest)
      rw [flatMap_cons, append_assoc, length_append, ← Nat.add_assoc]
      exact hwalk

/-- Where every line has a colon there is nothing but headers on a walk. -/
theorem lines_of_walk {fields : List Field} (hdata : data.length < 2 ^ 64)
    (hwalk : Walk data cursor fields stop)
    (hcolon : ∀ (lines : List HeaderLine) rest,
      data.drop cursor = lines.flatMap HeaderLine.bytes ++ rest →
      ¬ Colonless data (cursor + (lines.flatMap HeaderLine.bytes).length)) :
    ∃ (lines : List HeaderLine) (rest : Bytes),
      data.drop cursor = lines.flatMap HeaderLine.bytes ++ crlf ++ rest := by
  induction hwalk with
  | finished hnext =>
      obtain ⟨-, -, hcrlf⟩ := nextHeader_eq_finished.mp hnext
      obtain ⟨rest, hrest⟩ := crlfAt_iff.mp hcrlf
      exact ⟨[], rest, hrest.symm⟩
  | @header cursor next stop field fields hnext _ ih =>
      have hhere : ¬ Colonless data cursor := hcolon [] (data.drop cursor) rfl
      obtain ⟨line, rest, hline, -, rfl⟩ := headerLine_of_nextHeader hdata hhere hnext
      obtain ⟨lines, rest', hlines⟩ := ih fun lines rest' hlines => by
        have hmore := hcolon (line :: lines) rest' (by
          rw [flatMap_cons, append_assoc, ← hlines, ← drop_drop, hline,
            drop_left])
        rw [flatMap_cons, length_append, ← Nat.add_assoc] at hmore
        exact hmore
      refine ⟨line :: lines, rest', ?_⟩
      rw [flatMap_cons, append_assoc, append_assoc, ← append_assoc _ crlf,
        ← hlines, ← drop_drop, hline, drop_left]

/-- The calls that are made are at the beginnings of lines. -/
theorem Reached.exists_lines (hdata : data.length < 2 ^ 64)
    (hcolon : ∀ (lines : List HeaderLine) rest,
      data.drop start = lines.flatMap HeaderLine.bytes ++ rest →
      ¬ Colonless data (start + (lines.flatMap HeaderLine.bytes).length))
    (h : Reached data start cursor) :
    ∃ (lines : List HeaderLine) (rest : Bytes),
      data.drop start = lines.flatMap HeaderLine.bytes ++ rest ∧
        cursor = start + (lines.flatMap HeaderLine.bytes).length := by
  induction h with
  | start => exact ⟨[], data.drop start, rfl, rfl⟩
  | next _ hnext ih =>
      obtain ⟨lines, rest, hlines, rfl⟩ := ih
      obtain ⟨line, rest', hline, -, rfl⟩ :=
        headerLine_of_nextHeader hdata (hcolon lines rest hlines) hnext
      rw [← drop_drop, hlines, drop_left] at hline
      refine ⟨lines ++ [line], rest', ?_, ?_⟩
      · rw [hlines, hline]
        simp
      · simp [Nat.add_assoc]

/-- A call is made after every line that is a header. -/
theorem reached_of_lines (hdata : data.length < 2 ^ 64)
    (h : data.drop start = lines.flatMap HeaderLine.bytes ++ rest) :
    Reached data start (start + (lines.flatMap HeaderLine.bytes).length) := by
  induction lines using reverseRecOn generalizing rest with
  | nil => exact .start
  | append_singleton lines line ih =>
      have hsplit : data.drop start = lines.flatMap HeaderLine.bytes ++ (line.bytes ++ rest) := by
        rw [h]
        simp
      have hline : data.drop (start + (lines.flatMap HeaderLine.bytes).length) =
          line.bytes ++ rest := by
        rw [← drop_drop, hsplit, drop_left]
      have hnext := Reached.next (ih hsplit) (nextHeader_of_headerLine hdata line hline)
      simpa [Nat.add_assoc] using hnext

end Walks

/-! ## What the loops see -/

section Visits

variable {data rest : Bytes} {line : HeaderLine} {cursor : ℕ}

variable (h : data.drop cursor = line.bytes ++ rest)
include h

theorem headerNameEquals_field (name : Bytes) :
    headerNameEquals data (line.field cursor).nameStart (line.field cursor).nameLength name =
      isNamed name line := by
  have hnameAt : data.drop cursor = line.name ++ (58 :: line.value ++ crlf ++ rest) := by
    rw [h, HeaderLine.bytes]
    simp
  have hname := slice_of_drop hnameAt
  unfold headerNameEquals isNamed HeaderLine.field
  simp only
  rw [hname, Bool.eq_iff_iff, Bool.and_eq_true, beq_iff_eq, beq_iff_eq, and_iff_right_iff_imp]
  intro hsame
  have hlengths := congrArg length hsame
  rw [length_map, length_map] at hlengths
  exact hlengths

theorem slice_value :
    slice data (line.field cursor).valueStart (line.field cursor).valueLength =
      trimmed line.value := by
  obtain ⟨blanks, hblanks⟩ := rdropWhile_prefix isBlank (line.value.dropWhile isBlank)
  have hvalue : data.drop (cursor + line.name.length + 1) = line.value ++ (crlf ++ rest) := by
    rw [Nat.add_assoc, ← drop_drop, h, HeaderLine.bytes]
    simp
  have hsplit : line.value =
      line.value.takeWhile isBlank ++ (trimmed line.value ++ blanks) := by
    rw [trimmed, hblanks, takeWhile_append_dropWhile]
  have hstart : data.drop (line.field cursor).valueStart =
      trimmed line.value ++ (blanks ++ crlf ++ rest) := by
    unfold HeaderLine.field
    rw [← drop_drop, hvalue]
    nth_rewrite 2 [hsplit]
    rw [append_assoc, drop_left]
    simp
  exact slice_of_drop hstart

omit h

/-- The number in the value of a header. -/
def readLength (line : HeaderLine) : Option ℕ :=
  if trimmed line.value = [] then none
  else read decimal 10 maxLength 0 (trimmed line.value)

/-- The state of the loop over the headers after a length and perhaps a transfer encoding. -/
def seenOf (found : Option ℕ) (hasTransferEncoding : Bool) : Seen where
  contentLength := found.getD 0
  hasContentLength := found.isSome
  hasTransferEncoding

theorem isNamed_transferEncoding (h : isNamed contentLengthName line = true) :
    isNamed transferEncodingName line = false := by
  unfold isNamed at h ⊢
  rw [beq_iff_eq.mp h]
  decide

include h

theorem visitHeader_field (found : Option ℕ)
    (transfer : Bool) : visitHeader data (seenOf found transfer) (line.field cursor) =
      (once (isNamed contentLengthName) readLength found line).map fun found' =>
        seenOf found' (transfer || isNamed transferEncodingName line) := by
  unfold visitHeader
  rw [headerNameEquals_field h, headerNameEquals_field h, slice_value h]
  by_cases hlength : isNamed contentLengthName line = true
  · rw [if_pos hlength]
    cases found with
    | some => simp [seenOf, once, hlength]
    | none =>
        have hvalue : (line.field cursor).valueLength = (trimmed line.value).length := rfl
        rw [hvalue]
        by_cases hempty : trimmed line.value = []
        · simp [seenOf, once, hlength, readLength, hempty]
        · cases hread : read decimal 10 maxLength 0 (trimmed line.value) <;>
            simp [seenOf, once, hlength, readLength, hempty, hread,
              isNamed_transferEncoding hlength]
  · rw [if_neg hlength]
    cases htransfer : isNamed transferEncodingName line <;>
      simp [seenOf, once, hlength]

omit h

theorem foldlM_visitHeader {lines : List (HeaderLine × ℕ)}
    (h : ∀ located ∈ lines, ∃ rest, data.drop located.2 = located.1.bytes ++ rest)
    (found : Option ℕ) (transfer : Bool) :
    (lines.map fieldOf).foldlM (visitHeader data) (seenOf found transfer) =
      ((lines.map Prod.fst).foldlM (once (isNamed contentLengthName) readLength) found).map
        fun found' => seenOf found'
          (transfer || (lines.map Prod.fst).any (isNamed transferEncodingName)) := by
  induction lines generalizing found transfer with
  | nil => simp
  | cons located lines ih =>
      obtain ⟨rest, hrest⟩ := h located mem_cons_self
      rw [map_cons, foldlM_cons, fieldOf, visitHeader_field hrest, map_cons,
        foldlM_cons, any_cons]
      cases once (isNamed contentLengthName) readLength found located.1 with
      | none => rfl
      | some found' =>
          have hrest' := ih (fun other hmem => h other (mem_cons_of_mem _ hmem)) found'
            (transfer || isNamed transferEncodingName located.1)
          rw [Bool.or_assoc] at hrest'
          exact hrest'

include h

theorem visitFind_field (name : Bytes)
    (found : Option (ℕ × ℕ)) : visitFind data name found (line.field cursor) =
      once (fun located : HeaderLine × ℕ => isNamed name located.1) (fun located =>
        some ((fieldOf located).valueStart, (fieldOf located).valueLength)) found
          (line, cursor) := by
  unfold visitFind once
  rw [headerNameEquals_field h]
  rfl

end Visits

/-! ## Heads are parsed -/

section Parsing

variable {data : Bytes} {text : HeadText}

/-- The lines and the end of the headers, after the request line. -/
theorem HeadText.drop_eq (h : text.bytes <+: data) :
    ∃ rest, data = text.request.bytes ++ crlf ++
        (text.lines.flatMap HeaderLine.bytes ++ crlf ++ rest) ∧
      data.drop text.request.parts.headersStart =
        text.lines.flatMap HeaderLine.bytes ++ crlf ++ rest := by
  obtain ⟨rest, rfl⟩ := h
  refine ⟨rest, by simp [HeadText.bytes, HeadText.lead], ?_⟩
  have hsplit : text.bytes ++ rest = (text.request.bytes ++ crlf) ++
      (text.lines.flatMap HeaderLine.bytes ++ crlf ++ rest) := by
    simp [HeadText.bytes, HeadText.lead]
  rw [hsplit]
  exact drop_left

theorem HeadText.lead_drop {rest : Bytes} (h : data = text.lead ++ rest) :
    data.drop text.request.parts.headersStart =
      text.lines.flatMap HeaderLine.bytes ++ rest := by
  rw [h, HeadText.lead, append_assoc]
  exact drop_left

theorem HeadText.length_bytes : text.bytes.length =
    text.request.parts.headersStart + (text.lines.flatMap HeaderLine.bytes ++ crlf).length := by
  rw [HeadText.bytes, HeadText.lead, append_assoc, length_append]
  rfl

theorem locate_fst (cursor : ℕ) (lines : List HeaderLine) :
    (locate cursor lines).map Prod.fst = lines := by
  induction lines generalizing cursor with
  | nil => rfl
  | cons line lines ih => exact congrArg (line :: ·) (ih _)

/-- What the loop over the headers of a head comes to. -/
theorem headers_of_text (hdata : data.length < 2 ^ 64) (h : text.bytes <+: data) :
    headers data text.request.parts.headersStart =
      (theOne readLength (text.lines.filter (isNamed contentLengthName))).map fun found =>
        ⟨text.bytes.length, found.getD 0, found.isSome,
          text.lines.any (isNamed transferEncodingName)⟩ := by
  obtain ⟨rest, -, hdrop⟩ := HeadText.drop_eq h
  have hat := hdrop
  rw [append_assoc] at hat
  have hwalk := walk_of_lines hdata hdrop
  have hfold := foldlM_visitHeader (locate_at hat) none false
  rw [locate_fst, foldlM_once] at hfold
  unfold headers
  rw [hwalk.walkHeaders_eq, ← HeadText.length_bytes]
  have hseen : (⟨0, false, false⟩ : Seen) = seenOf none false := rfl
  rw [hseen, hfold, Option.map_map, Option.map_map]
  congr 1

theorem findHeader_of_text (hdata : data.length < 2 ^ 64) (h : text.bytes <+: data)
    {name : Bytes} (hname : name ≠ []) :
    findHeader data text.request.parts.headersStart name = text.find name := by
  obtain ⟨rest, -, hdrop⟩ := HeadText.drop_eq h
  have hat := hdrop
  rw [append_assoc] at hat
  have hfold : ((locate text.request.parts.headersStart text.lines).map fieldOf).foldlM
      (visitFind data name) none = text.located.foldlM
        (once (fun located : HeaderLine × ℕ => isNamed name located.1) fun located =>
          some ((fieldOf located).valueStart, (fieldOf located).valueLength)) none := by
    rw [foldlM_map]
    refine foldlM_congr (fun located hmem found => ?_) none
    obtain ⟨rest', hrest⟩ := locate_at hat located hmem
    exact visitFind_field hrest name found
  unfold findHeader HeadText.find
  rw [if_neg (by simpa using hname), (walk_of_lines hdata hdrop).walkHeaders_eq, hfold,
    foldlM_once]
  generalize filter (fun located : HeaderLine × ℕ => isNamed name located.1) text.located = named
  match named with
  | [] => rfl
  | [(line, cursor)] => rfl
  | _ :: _ :: _ => rfl

/-- A length that is returned is the number that the digits stand for. -/
theorem declaresLength_iff {has : Bool} {n : ℕ} : text.DeclaresLength has n ↔
    ∃ found, theOne readLength (text.lines.filter (isNamed contentLengthName)) = some found ∧
      has = found.isSome ∧ n = found.getD 0 := by
  unfold HeadText.DeclaresLength HeadText.lengths
  match text.lines.filter (isNamed contentLengthName) with
  | [] =>
      cases has with
      | false => simp [theOne]
      | true => simp [theOne]
  | _ :: _ :: _ => cases has <;> simp [theOne]
  | [line] =>
      have hread : read decimal 10 maxLength 0 (trimmed line.value) = some n ↔ _ :=
        read_eq_some (by decide) decimal_le_maxLength (Nat.zero_le maxLength)
      cases has with
      | false =>
          simp only [theOne, map_cons, map_nil, reduceCtorEq, false_and,
            Option.map_eq_some_iff, false_iff]
          rintro ⟨found, ⟨m, -, rfl⟩, hsome, -⟩
          exact absurd hsome (by simp)
      | true =>
          simp only [theOne, map_cons, map_nil, List.cons.injEq, and_true]
          constructor
          · rintro ⟨value, ds, rfl, hpos, hds, hn, hle⟩
            refine ⟨some n, ?_, rfl, rfl⟩
            rw [readLength, if_neg hpos, hread.mpr ⟨ds, hds, hn, hle⟩]
            rfl
          · rintro ⟨found, hfound, hsome, hn⟩
            obtain ⟨m, hm, rfl⟩ := Option.map_eq_some_iff.mp hfound
            obtain rfl : n = m := hn
            unfold readLength at hm
            split at hm
            · exact absurd hm (by simp)
            next hpos =>
              obtain ⟨ds, hds, hvalue, hle⟩ := hread.mp hm
              exact ⟨trimmed line.value, ds, rfl, hpos, hds, hvalue, hle⟩

/-- The heads of texts are accepted. -/
theorem parseHead_of_text (hdata : data.length < 2 ^ 64) (h : text.bytes <+: data) {head : Head}
    (hstart : head.bodyStart = text.bytes.length)
    (hlength : text.DeclaresLength head.hasContentLength head.contentLength)
    (htransfer : head.hasTransferEncoding = text.lines.any (isNamed transferEncodingName)) :
    parseHead data = some (text.request.parts, head) := by
  obtain ⟨rest, hsplit, -⟩ := HeadText.drop_eq h
  refine parseHead_eq_some.mpr ⟨parseLine_iff.mpr ⟨text.request, _, hsplit, rfl⟩, ?_⟩
  obtain ⟨found, hfound, hhas, hn⟩ := declaresLength_iff.mp hlength
  rw [headers_of_text hdata h, hfound, Option.map_some, ← hhas, ← hn, ← hstart, ← htransfer]

/-- Behind a request line, what the conditions on lines say of the data. -/
theorem not_colonless_of_not_reaches (h : ¬ ReachesColonless data) (request : RequestText)
    {rest : Bytes} (hrequest : data = request.bytes ++ crlf ++ rest) :
    ∀ (lines : List HeaderLine) rest',
      data.drop request.parts.headersStart = lines.flatMap HeaderLine.bytes ++ rest' →
        ¬ Colonless data (request.parts.headersStart +
          (lines.flatMap HeaderLine.bytes).length) := by
  rintro lines rest' hlines ⟨-, line, after, hline, hisLine, hpos, hcolon⟩
  apply h
  refine ⟨⟨request, lines⟩, line, after, ?_, hisLine, hpos, hcolon⟩
  rw [← drop_drop, hlines, drop_left] at hline
  have hdrop : data.drop request.parts.headersStart = rest := by
    rw [hrequest]
    exact drop_left
  rw [HeadText.lead, hrequest, ← hdrop, hlines, hline, append_assoc _ (flatMap _ _)]

/-- The parsers of the head do what they are to do exactly where no line without a colon follows
the headers.  A call for the next header does so exactly where its line has a colon. -/
theorem headCorrect_iff (data : Bytes) (hdata : data.length < 2 ^ 64) :
    (∀ cursor, CallCorrect data cursor ↔ ¬ Colonless data cursor) ∧
      (HeadCorrect data ↔ ¬ ReachesColonless data) := by
  refine ⟨fun cursor => callCorrect_iff hdata, ?_, ?_⟩
  · rintro h ⟨text, line, rest, hsplit, hline, hpos, hcolon⟩
    have hdrop := HeadText.lead_drop hsplit
    have hrequest : parseLine data = some text.request.parts := by
      refine parseLine_iff.mpr ⟨text.request, ?_⟩
      rw [hsplit, HeadText.lead, append_assoc _ (flatMap _ _)]
      exact ⟨_, rfl, rfl⟩
    -- the call at the line is made, and goes wrong
    have hcall := h.calls _ hrequest _ (reached_of_lines hdata hdrop)
    refine (callCorrect_iff hdata).mp hcall ⟨?_, line, rest, ?_, hline, hpos, hcolon⟩
    · simp [RequestText.parts, crlf]
    · rw [← drop_drop, hdrop, drop_left]
  · intro hcolon
    have htext : ∀ line, parseLine data = some line → ∀ fields stop,
        Walk data line.headersStart fields stop → ∃ text : HeadText, text.bytes <+: data ∧
          line = text.request.parts := by
      intro line hline fields stop hwalk
      obtain ⟨request, rest, hrequest, rfl⟩ := parseLine_iff.mp hline
      obtain ⟨lines, after, hlines⟩ := lines_of_walk hdata hwalk
        (not_colonless_of_not_reaches hcolon request hrequest)
      refine ⟨⟨request, lines⟩, ⟨after, ?_⟩, rfl⟩
      have hdrop : data.drop request.parts.headersStart = rest := by
        rw [hrequest]
        exact drop_left
      rw [hrequest, ← hdrop, hlines]
      simp [HeadText.bytes, HeadText.lead]
    refine ⟨fun line head => ⟨fun h => ?_, ?_⟩, fun line hline cursor hreached => ?_,
      fun text h name hname => findHeader_of_text hdata h hname, fun line hline hnone => ?_⟩
    · obtain ⟨hline, hhead⟩ := parseHead_eq_some.mp h
      obtain ⟨fields, hwalk⟩ := headers_walk hhead
      obtain ⟨text, hbytes, rfl⟩ := htext line hline fields _ hwalk
      rw [headers_of_text hdata hbytes] at hhead
      obtain ⟨found, hfound, rfl⟩ := Option.map_eq_some_iff.mp hhead
      exact ⟨text, hbytes, rfl, rfl, declaresLength_iff.mpr ⟨found, hfound, rfl, rfl⟩, rfl⟩
    · rintro ⟨text, hbytes, rfl, hstart, hlength, htransfer⟩
      exact parseHead_of_text hdata hbytes hstart hlength htransfer
    · obtain ⟨request, rest, hrequest, rfl⟩ := parseLine_iff.mp hline
      have hnot := not_colonless_of_not_reaches hcolon request hrequest
      obtain ⟨lines, rest', hlines, rfl⟩ := hreached.exists_lines hdata hnot
      exact (callCorrect_iff hdata).mpr (hnot lines rest' hlines)
    · have hwalk : ∀ fields stop, ¬ Walk data line.headersStart fields stop := by
        intro fields stop hwalk
        obtain ⟨text, hbytes, -⟩ := htext line hline fields stop hwalk
        exact hnone text hbytes
      constructor
      · unfold headers
        rw [walkHeaders_eq_none hwalk]
        rfl
      · intro name
        unfold findHeader
        split
        · rfl
        · rw [walkHeaders_eq_none hwalk]

end Parsing

/-- `GET / HTTP/1.1` -/
def getLine : Bytes := [71, 69, 84, 32, 47, 32, 72, 84, 84, 80, 47, 49, 46, 49]

/-- A request with the header `a:b`. -/
def plainRequest : Bytes := getLine ++ [13, 10, 97, 58, 98, 13, 10, 13, 10]

/-- A request with the line `x` for a header. -/
def colonlessRequest : Bytes := getLine ++ [13, 10, 120, 13, 10, 13, 10]

theorem headCorrect_iff_plain :
    (∀ cursor, CallCorrect plainRequest cursor ↔ ¬ Colonless plainRequest cursor) ∧
      (HeadCorrect plainRequest ↔ ¬ ReachesColonless plainRequest) :=
  headCorrect_iff plainRequest (by decide)

/-- The line is returned as a header whose value begins in the request line. -/
theorem colonless_line_accepted :
    nextHeader colonlessRequest 16 = .header ⟨16, 2 ^ 64 - 16, 1, 16⟩ 19 ∧
      ¬ HeadCorrect colonlessRequest := by
  have hnext : nextHeader colonlessRequest 16 = .header ⟨16, 2 ^ 64 - 16, 1, 16⟩ 19 := by
    decide +kernel
  refine ⟨hnext, fun h => ?_⟩
  have hline : parseLine colonlessRequest = some ⟨3, 4, 1, 16⟩ := by decide +kernel
  have hcall := h.calls _ hline 16 .start
  have hmalformed := hcall.colonless [120] [13, 10] rfl (isLine_of_notMem (by decide)) (by decide)
    (by decide)
  rw [hnext] at hmalformed
  exact absurd hmalformed (by simp)

end Jadren.Http

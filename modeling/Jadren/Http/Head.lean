import Jadren.Library.Digits
import Jadren.Library.Loop
import Jadren.Library.Scanning

/-!
# The head of a request

The parsers work on a byte string by index; zero stands for an index that has not been found.
The lengths are those of objects in memory, so that sums of an index and a small number do not
overflow.  A difference can: the length of a name is the distance from its beginning to the
colon, modulo `2 ^ 64`.
-/

namespace Jadren.Http

abbrev Bytes := List UInt8

def byteAt (data : Bytes) (i : ℕ) : UInt8 := data.getD i 0

/-- A carriage return and a line feed. -/
def crlfAt (data : Bytes) (i : ℕ) : Bool := byteAt data i == 13 && byteAt data (i + 1) == 10

def isByte (c : UInt8) (data : Bytes) (i : ℕ) : Bool := byteAt data i == c

/-- `()<>@,;:\"/[]?={}` -/
def separators : Bytes := [40, 41, 60, 62, 64, 44, 59, 58, 92, 34, 47, 91, 93, 63, 61, 123, 125]

def isToken (c : UInt8) : Bool := 0x21 ≤ c && c ≤ 0x7E && !separators.contains c

def lower (c : UInt8) : UInt8 := if 65 ≤ c ∧ c ≤ 90 then c + 32 else c

def headerNameEquals (data : Bytes) (start length : ℕ) (name : Bytes) : Bool :=
  length == name.length && (slice data start length).map lower == name.map lower

/-! ## The request line -/

structure RequestLine where
  methodLength : ℕ
  targetStart : ℕ
  targetLength : ℕ
  headersStart : ℕ
  deriving DecidableEq

/-- `HTTP/1.1` -/
def httpVersion : Bytes := [72, 84, 84, 80, 47, 49, 46, 49]

/-- The parts of the line that ends before the given index. -/
def parseLineTo (data : Bytes) (lineEnd : ℕ) : Option RequestLine :=
  let firstSpace := (firstIndex (isByte 32 data) 0 lineEnd).getD 0
  if firstSpace = 0 ∨ firstSpace + 1 ≥ lineEnd then none
  else
    let secondSpace := (firstIndex (isByte 32 data) (firstSpace + 1) lineEnd).getD 0
    if secondSpace = 0 ∨ secondSpace + 1 ≥ lineEnd ∨ lineEnd - (secondSpace + 1) ≠ 8 then none
    else if slice data (secondSpace + 1) 8 ≠ httpVersion then none
    else if !allIndices (fun i => isToken (byteAt data i)) 0 firstSpace then none
    else if !allIndices (fun i => 0x21 ≤ byteAt data i && byteAt data i ≤ 0x7E)
        (firstSpace + 1) secondSpace then none
    else
      let targetLength := secondSpace - firstSpace - 1
      if firstSpace > 0 ∧ targetLength > 0 then
        some ⟨firstSpace, firstSpace + 1, targetLength, lineEnd + 2⟩
      else none

def parseLine (data : Bytes) : Option RequestLine :=
  let lineEnd := (firstIndex (crlfAt data) 0 (data.length - 1)).getD 0
  if lineEnd = 0 then none else parseLineTo data lineEnd

/-! ## Headers -/

structure Field where
  nameStart : ℕ
  nameLength : ℕ
  valueStart : ℕ
  valueLength : ℕ
  deriving DecidableEq

inductive NextHeader
  | malformed
  | finished (next : ℕ)
  | header (field : Field) (next : ℕ)
  deriving DecidableEq

def isBlank (c : UInt8) : Bool := c == 32 || c == 9

/-- The range without the blanks at its beginning. -/
def trimLeft (data : Bytes) (start : ℕ) : ℕ → ℕ × ℕ
  | 0 => (start, 0)
  | length + 1 =>
    if isBlank (byteAt data start) then trimLeft data (start + 1) length else (start, length + 1)

/-- The length of the range without the blanks at its end. -/
def trimRight (data : Bytes) (start : ℕ) : ℕ → ℕ
  | 0 => 0
  | length + 1 =>
    if isBlank (byteAt data (start + length)) then trimRight data start length else length + 1

/-- The header in the line that ends before the given index. -/
def headerTo (data : Bytes) (cursor lineEnd : ℕ) : NextHeader :=
  let colon := (firstIndex (isByte 58 data) cursor lineEnd).getD 0
  if colon = cursor then .malformed
  else if !allIndices (fun i => isToken (byteAt data i)) cursor colon then .malformed
  else
    let (valueStart, valueLength) := trimLeft data (colon + 1) (lineEnd - colon - 1)
    .header
      { nameStart := cursor
        nameLength := (2 ^ 64 + colon - cursor) % 2 ^ 64
        valueStart
        valueLength := trimRight data valueStart valueLength }
      (lineEnd + 2)

def nextHeader (data : Bytes) (cursor : ℕ) : NextHeader :=
  if cursor > data.length then .malformed
  else if cursor + 2 ≤ data.length ∧ crlfAt data cursor then .finished (cursor + 2)
  else
    let lineEnd := (firstIndex (crlfAt data) cursor (data.length - 1)).getD cursor
    if lineEnd = cursor ∨ lineEnd = data.length then .malformed else headerTo data cursor lineEnd

/-! ## Walks over the headers -/

section Walks

variable {β : Type*} (data : Bytes) (visit : β → Field → Option β)

/-- One round of a loop over the headers: a header is visited, which may fail. -/
def walkStep (s : ℕ × β) : ℕ × β ⊕ Option (ℕ × β) :=
  match nextHeader data s.1 with
  | .malformed => .inr none
  | .finished next => .inr (some (next, s.2))
  | .header field next =>
    match visit s.2 field with
    | none => .inr none
    | some seen => .inl (next, seen)

/-- The loop over the headers: where it ends, and what it has seen. -/
def walkHeaders (start : ℕ) (seen : β) : Option (ℕ × β) :=
  (Loop.run (walkStep data visit) (data.length + 2) (start, seen)).join

end Walks

structure Head where
  bodyStart : ℕ
  contentLength : ℕ
  hasContentLength : Bool
  hasTransferEncoding : Bool
  deriving DecidableEq

/-- `Content-Length` -/
def contentLengthName : Bytes := [67, 111, 110, 116, 101, 110, 116, 45, 76, 101, 110, 103, 116, 104]

/-- `Transfer-Encoding` -/
def transferEncodingName : Bytes :=
  [84, 114, 97, 110, 115, 102, 101, 114, 45, 69, 110, 99, 111, 100, 105, 110, 103]

/-- The largest number of 64 bits. -/
def maxLength : ℕ := 2 ^ 64 - 1

theorem decimal_le_maxLength (c : UInt8) (d : ℕ) (h : Digits.decimal c = some d) :
    d ≤ maxLength := by
  have hle := Digits.decimal_le h
  unfold maxLength
  omega

/-- What the headers so far have said about the body. -/
structure Seen where
  contentLength : ℕ
  hasContentLength : Bool
  hasTransferEncoding : Bool
  deriving DecidableEq

def visitHeader (data : Bytes) (seen : Seen) (field : Field) : Option Seen :=
  if headerNameEquals data field.nameStart field.nameLength contentLengthName then
    if seen.hasContentLength || field.valueLength == 0 then none
    else
      (Digits.read Digits.decimal 10 maxLength 0
        (slice data field.valueStart field.valueLength)).map fun parsedLength =>
          { seen with contentLength := parsedLength, hasContentLength := true }
  else if headerNameEquals data field.nameStart field.nameLength transferEncodingName then
    some { seen with hasTransferEncoding := true }
  else some seen

def headers (data : Bytes) (headersStart : ℕ) : Option Head :=
  (walkHeaders data (visitHeader data) headersStart ⟨0, false, false⟩).map fun (bodyStart, seen) =>
    ⟨bodyStart, seen.contentLength, seen.hasContentLength, seen.hasTransferEncoding⟩

/-- The outcome of a search: an error, no such header, or the range of its value. -/
inductive FindHeader
  | error
  | absent
  | found (valueStart valueLength : ℕ)
  deriving DecidableEq

/-- A header of the name ends the search with an error if there has been one. -/
def visitFind (data name : Bytes) (found : Option (ℕ × ℕ)) (field : Field) :
    Option (Option (ℕ × ℕ)) :=
  if headerNameEquals data field.nameStart field.nameLength name then
    if found.isSome then none else some (some (field.valueStart, field.valueLength))
  else some found

def findHeader (data : Bytes) (headersStart : ℕ) (name : Bytes) : FindHeader :=
  if name.isEmpty then .error
  else
    match walkHeaders data (visitFind data name) headersStart none with
    | none => .error
    | some (_, none) => .absent
    | some (_, some (valueStart, valueLength)) => .found valueStart valueLength

/-! ## Walks end -/

/-- A header that is returned lies before the next one. -/
theorem nextHeader_next {data : Bytes} {cursor next : ℕ} {field : Field}
    (h : nextHeader data cursor = .header field next) : cursor < next ∧ next ≤ data.length := by
  unfold nextHeader at h
  split at h
  · cases h
  split at h
  · cases h
  simp only at h
  split at h
  · cases h
  next hline =>
    cases hfirst : firstIndex (crlfAt data) cursor (data.length - 1) with
    | none =>
        rw [hfirst] at hline
        exact absurd (.inl rfl) hline
    | some lineEnd =>
        obtain ⟨hle, hlt, -⟩ := firstIndex_eq_some.mp hfirst
        rw [hfirst] at h
        have hnext : next = lineEnd + 2 := by
          unfold headerTo at h
          simp only [Option.getD_some] at h
          split at h
          · cases h
          split at h
          · cases h
          · exact (NextHeader.header.inj h).2.symm
        omega

/-- The headers from the cursor on, up to the empty line, and the index after it. -/
inductive Walk (data : Bytes) : ℕ → List Field → ℕ → Prop
  | finished {cursor next : ℕ} (h : nextHeader data cursor = .finished next) :
      Walk data cursor [] next
  | header {cursor next stop : ℕ} {field : Field} {fields : List Field}
      (h : nextHeader data cursor = .header field next) (rest : Walk data next fields stop) :
      Walk data cursor (field :: fields) stop

section Walks

variable {β : Type*} {data : Bytes} {visit : β → Field → Option β} {start stop : ℕ} {seen seen' : β}

theorem walkStep_down {s s' : ℕ × β} (h : walkStep data visit s = .inl s') :
    data.length + 1 - s'.1 < data.length + 1 - s.1 := by
  unfold walkStep at h
  cases hnext : nextHeader data s.1 with
  | malformed => simp [hnext] at h
  | finished => simp [hnext] at h
  | header =>
      have hbetween := nextHeader_next hnext
      simp only [hnext] at h
      split at h
      · cases h
      · rw [← Sum.inl.inj h]
        simp only
        omega

theorem walkHeaders_eq_iff {result : Option (ℕ × β)} : walkHeaders data visit start seen = result ↔
    Loop.Ends (walkStep data visit) (start, seen) result := by
  have hdown : ∀ s s', walkStep data visit s = .inl s' →
      data.length + 1 - s'.1 < data.length + 1 - s.1 := fun _ _ => walkStep_down
  obtain ⟨b, hrun, hends⟩ := Loop.run_spec (start, seen) (fun s => data.length + 1 - s.1) hdown
    (Nat.lt_succ_of_le (Nat.sub_le (data.length + 1) start))
  rw [hends]
  unfold walkHeaders
  rw [hrun]
  rfl

theorem Walk.unique {fields fields' : List Field} {stop' : ℕ} (h : Walk data start fields stop)
    (h' : Walk data start fields' stop') : fields = fields' ∧ stop = stop' := by
  induction h generalizing fields' with
  | finished hnext =>
      cases h' with
      | finished hnext' => exact ⟨rfl, NextHeader.finished.inj (hnext.symm.trans hnext')⟩
      | header hnext' => exact absurd (hnext.symm.trans hnext') (by simp)
  | header hnext _ ih =>
      cases h' with
      | finished hnext' => exact absurd (hnext.symm.trans hnext') (by simp)
      | header hnext' rest =>
          obtain ⟨rfl, rfl⟩ := NextHeader.header.inj (hnext.symm.trans hnext')
          obtain ⟨rfl, rfl⟩ := ih rest
          exact ⟨rfl, rfl⟩

/-- A loop over the headers visits the headers of the walk in their order. -/
theorem walkHeaders_eq_some : walkHeaders data visit start seen = some (stop, seen') ↔
    ∃ fields, Walk data start fields stop ∧ fields.foldlM visit seen = some seen' := by
  rw [walkHeaders_eq_iff]
  constructor
  · intro h
    -- induction on the rounds of the loop, with its state made general
    generalize hs : (start, seen) = s at h
    generalize hresult : some (stop, seen') = result at h
    induction h generalizing start seen with
    | done hstep =>
        subst hs
        subst hresult
        unfold walkStep at hstep
        cases hnext : nextHeader data start with
        | malformed => simp [hnext] at hstep
        | finished =>
            simp only [hnext, Sum.inr.injEq, Option.some.injEq, Prod.mk.injEq] at hstep
            obtain ⟨rfl, rfl⟩ := hstep
            exact ⟨[], .finished hnext, rfl⟩
        | header =>
            simp only [hnext] at hstep
            split at hstep <;> simp at hstep
    | next hstep _ ih =>
        subst hs
        unfold walkStep at hstep
        cases hnext : nextHeader data start with
        | malformed => simp [hnext] at hstep
        | finished => simp [hnext] at hstep
        | header field =>
            simp only [hnext] at hstep
            cases hvisit : visit seen field with
            | none => simp [hvisit] at hstep
            | some =>
                simp only [hvisit, Sum.inl.injEq] at hstep
                obtain ⟨fields, hwalk, hfold⟩ := ih hstep hresult
                refine ⟨field :: fields, .header hnext hwalk, ?_⟩
                simpa [hvisit] using hfold
  · rintro ⟨fields, hwalk, hfold⟩
    induction hwalk generalizing seen with
    | finished hnext =>
        obtain rfl : seen = seen' := Option.some.inj hfold
        exact .done (by simp [walkStep, hnext])
    | @header cursor next stop field fields hnext _ ih =>
        cases hvisit : visit seen field with
        | none => simp [hvisit] at hfold
        | some seen₁ =>
            have hrest : fields.foldlM visit seen₁ = some seen' := by simpa [hvisit] using hfold
            exact .next (by simp [walkStep, hnext, hvisit]) (ih hrest)

/-- On the headers of a walk the loop is a fold. -/
theorem Walk.walkHeaders_eq {fields : List Field} (h : Walk data start fields stop) :
    walkHeaders data visit start seen = (fields.foldlM visit seen).map fun seen' =>
      (stop, seen') := by
  cases hfold : fields.foldlM visit seen with
  | some => exact walkHeaders_eq_some.mpr ⟨fields, h, hfold⟩
  | none =>
      rw [Option.map_none, ← Option.not_isSome_iff_eq_none, Option.isSome_iff_exists]
      rintro ⟨⟨stop', seen'⟩, hsome⟩
      obtain ⟨fields', hwalk', hfold'⟩ := walkHeaders_eq_some.mp hsome
      obtain ⟨rfl, -⟩ := h.unique hwalk'
      rw [hfold] at hfold'
      exact absurd hfold' (by simp)

theorem walkHeaders_eq_none (h : ∀ fields stop, ¬ Walk data start fields stop) :
    walkHeaders data visit start seen = none := by
  rw [← Option.not_isSome_iff_eq_none, Option.isSome_iff_exists]
  rintro ⟨⟨stop, seen'⟩, hsome⟩
  obtain ⟨fields, hwalk, -⟩ := walkHeaders_eq_some.mp hsome
  exact h fields stop hwalk

end Walks

end Jadren.Http

import Jadren.Http.Head
import Jadren.Library.Chunks

/-!
# Frames of requests

The functions that detect a request at the beginning of a buffer, append to the buffer and take
the request out of it.  A detector returns zero where there is no complete request.

Everything a detector looks at lies in the frame it returns: on lists that agree there it returns
the same.
-/

namespace Jadren.Http

/-! ## Chunked bodies -/

/-- The loop over the trailers, and where they end. -/
def trailersEnd (data : Bytes) (cursor : ℕ) : Option ℕ :=
  (walkHeaders data (fun _ _ => some ()) cursor ()).map Prod.fst

/-- The end of the line at the cursor, and the size that the line begins with. -/
def chunkSize (data : Bytes) (cursor : ℕ) : Option (ℕ × ℕ) :=
  (firstIndex (crlfAt data) cursor (data.length - 1)).bind fun lineEnd =>
    if lineEnd = cursor then none
    else
      let sizeEnd := (firstIndex (isByte 59 data) cursor lineEnd).getD lineEnd
      if sizeEnd = cursor then none
      else
        (Digits.read Digits.hexadecimal 16 maxLength 0 (slice data cursor (sizeEnd - cursor))).map
          fun size => (lineEnd, size)

/-- One chunk: the state is the cursor and the length of the chunks so far. -/
def chunkedStep (data : Bytes) (s : ℕ × ℕ) : ℕ × ℕ ⊕ Option (ℕ × ℕ) :=
  match chunkSize data s.1 with
  | none => .inr none
  | some (lineEnd, size) =>
    let cursor := lineEnd + 2
    if size = 0 then .inr ((trailersEnd data cursor).map fun bodyEnd => (s.2, bodyEnd))
    else if size > data.length - cursor ∨ s.2 > maxLength - size then .inr none
    else if cursor + size + 1 ≥ data.length ∨ !crlfAt data (cursor + size) then .inr none
    else .inl (cursor + size + 2, s.2 + size)

/-- The length of a chunked body and the index after it. -/
def chunkedScan (data : Bytes) (bodyStart : ℕ) : Option (ℕ × ℕ) :=
  if bodyStart > data.length then none
  else (Loop.run (chunkedStep data) (data.length + 2) (bodyStart, 0)).join

/-! ## Detectors -/

/-- The request line and the headers. -/
def parseHead (data : Bytes) : Option (RequestLine × Head) :=
  (parseLine data).bind fun line => (headers data line.headersStart).map fun head => (line, head)

def isComplete (data : Bytes) : Bool :=
  match parseHead data with
  | none => false
  | some (_, head) =>
    if head.hasTransferEncoding then false
    else if !head.hasContentLength then head.bodyStart == data.length
    else head.bodyStart ≤ data.length && data.length - head.bodyStart ≥ head.contentLength

def frameLengthPrefix (data : Bytes) (capacity : UInt64) : ℕ :=
  if data.length > capacity.toNat then 0
  else
    match parseHead data with
    | none => 0
    | some (_, head) =>
      if head.hasTransferEncoding then 0
      else if !head.hasContentLength then head.bodyStart
      else if head.bodyStart > data.length ∨
        head.contentLength > data.length - head.bodyStart then 0
      else head.bodyStart + head.contentLength

/-- `chunked` -/
def chunkedName : Bytes := [99, 104, 117, 110, 107, 101, 100]

def chunkedFrameLengthPrefix (data : Bytes) (capacity : UInt64) : ℕ :=
  if data.length > capacity.toNat then 0
  else
    match parseHead data with
    | none => 0
    | some (line, head) =>
      if !head.hasTransferEncoding || head.hasContentLength then 0
      else
        match findHeader data line.headersStart transferEncodingName with
        | .error => 0
        | .absent => 0
        | .found transferStart transferLength =>
          if transferLength ≠ 7 ∨ data.length < transferLength ∨
              transferStart > data.length - transferLength then 0
          else if (slice data transferStart 7).map lower ≠ chunkedName then 0
          else
            match chunkedScan data head.bodyStart with
            | none => 0
            | some (_, bodyEnd) => bodyEnd

/-! ## The buffer -/

/-- The buffer after the chunk, if the chunk fits. -/
def append (buffer : Bytes) (capacity : UInt64) (chunk : Bytes) : Option Bytes :=
  if buffer.length > capacity.toNat ∨ chunk.length > capacity.toNat - buffer.length then none
  else some (buffer ++ chunk)

/-- The buffer without the bytes that are consumed: the others move down. -/
def consumePrefix (buffer : Bytes) (capacity : UInt64) (consumed : ℕ) : Bytes :=
  if buffer.length > capacity.toNat ∨ consumed > buffer.length then []
  else (Chunks.moveDown 0 consumed buffer.length buffer).take (buffer.length - consumed)

theorem consumePrefix_eq {buffer : Bytes} {capacity : UInt64} {consumed : ℕ}
    (hbuffer : buffer.length ≤ capacity.toNat) (hconsumed : consumed ≤ buffer.length) :
    consumePrefix buffer capacity consumed = buffer.drop consumed := by
  unfold consumePrefix
  rw [if_neg (by omega), Chunks.moveDown_eq hconsumed le_rfl]
  have hlength : ((buffer.drop consumed).take (buffer.length - consumed)).length =
      buffer.length - consumed := by simp
  rw [List.take_left' hlength, ← List.length_drop, List.take_length]

/-! ## What the parsers look at -/

section Locality

variable {data data' : Bytes} {n start stop cursor lineEnd : ℕ}

theorem crlfAt_agree (h : Agree data data' n) {i : ℕ} (hi : i + 1 < n) :
    crlfAt data i = crlfAt data' i := by
  unfold crlfAt byteAt
  rw [h.getD (by omega), h.getD hi]

theorem firstByte_agree (h : Agree data data' n) (start : ℕ) (c : UInt8) (hstop : stop ≤ n) :
    firstIndex (isByte c data) start stop = firstIndex (isByte c data') start stop := by
  apply firstIndex_congr
  intro j _ hj
  unfold isByte byteAt
  rw [h.getD (by omega)]

theorem allBytes_agree (h : Agree data data' n) (p : UInt8 → Bool) (hstop : stop ≤ n) :
    allIndices (fun i => p (byteAt data i)) start stop =
      allIndices (fun i => p (byteAt data' i)) start stop := by
  apply allIndices_congr
  intro j _ hj
  unfold byteAt
  rw [h.getD (by omega)]

theorem firstLine_agree (h : firstIndex (crlfAt data) start (data.length - 1) = some lineEnd)
    (hagree : Agree data data' (lineEnd + 2)) :
    firstIndex (crlfAt data') start (data'.length - 1) = some lineEnd := by
  have hle := hagree.right
  exact firstIndex_extend h (fun j _ hj => crlfAt_agree hagree (by omega)) (by omega)

theorem parseLineTo_agree (h : Agree data data' lineEnd) :
    parseLineTo data lineEnd = parseLineTo data' lineEnd := by
  unfold parseLineTo
  simp only [firstByte_agree h _ 32 le_rfl]
  generalize (firstIndex (isByte 32 data') 0 lineEnd).getD 0 = firstSpace
  split
  · rfl
  generalize (firstIndex (isByte 32 data') (firstSpace + 1) lineEnd).getD 0 = secondSpace
  split
  · rfl
  next hfirst hsecond =>
    rw [h.slice (by omega), allBytes_agree h isToken (by omega),
      allBytes_agree h (fun c => 0x21 ≤ c && c ≤ 0x7E) (by omega)]

variable {line : RequestLine}

/-- The request line that is returned ends before the headers. -/
theorem parseLine_eq_some : parseLine data = some line ↔
    ∃ lineEnd, lineEnd ≠ 0 ∧ firstIndex (crlfAt data) 0 (data.length - 1) = some lineEnd ∧
      parseLineTo data lineEnd = some line := by
  unfold parseLine
  cases hfirst : firstIndex (crlfAt data) 0 (data.length - 1) with
  | none => simp
  | some lineEnd =>
      simp only [Option.getD_some, Option.some.injEq]
      constructor
      · intro h
        split at h
        · cases h
        next hzero => exact ⟨lineEnd, hzero, rfl, h⟩
      · rintro ⟨_, hzero, rfl, hline⟩
        rw [if_neg hzero, hline]

theorem headersStart_eq (h : parseLineTo data lineEnd = some line) :
    line.headersStart = lineEnd + 2 := by
  unfold parseLineTo at h
  simp only [Option.ite_none_left_eq_some, Option.ite_none_right_eq_some, Option.some.injEq] at h
  obtain ⟨-, -, -, -, -, -, rfl⟩ := h
  rfl

theorem parseLine_agree (h : parseLine data = some line)
    (hagree : Agree data data' line.headersStart) : parseLine data' = some line := by
  obtain ⟨lineEnd, hzero, hfirst, hline⟩ := parseLine_eq_some.mp h
  rw [headersStart_eq hline] at hagree
  refine parseLine_eq_some.mpr ⟨lineEnd, hzero, firstLine_agree hfirst hagree, ?_⟩
  rw [← parseLineTo_agree (hagree.mono (by omega)), hline]

theorem trimLeft_agree (h : Agree data data' n) {length : ℕ} (hle : start + length ≤ n) :
    trimLeft data start length = trimLeft data' start length := by
  induction length generalizing start with
  | zero => rfl
  | succ length ih =>
      unfold trimLeft
      have hbyte : byteAt data start = byteAt data' start := h.getD (by omega) 0
      rw [hbyte, ih (by omega)]

theorem trimRight_agree (h : Agree data data' n) {length : ℕ} (hle : start + length ≤ n) :
    trimRight data start length = trimRight data' start length := by
  induction length with
  | zero => rfl
  | succ length ih =>
      unfold trimRight
      have hbyte : byteAt data (start + length) = byteAt data' (start + length) :=
        h.getD (by omega) 0
      rw [hbyte, ih (by omega)]

theorem trimLeft_range (data : Bytes) (start length : ℕ) :
    start ≤ (trimLeft data start length).1 ∧
      (trimLeft data start length).1 + (trimLeft data start length).2 = start + length := by
  induction length generalizing start with
  | zero => exact ⟨le_rfl, rfl⟩
  | succ length ih =>
      unfold trimLeft
      split
      · have hrest := ih (start + 1)
        omega
      · exact ⟨le_rfl, rfl⟩

theorem trimRight_le (data : Bytes) (start length : ℕ) : trimRight data start length ≤ length := by
  induction length with
  | zero => exact le_rfl
  | succ length ih =>
      unfold trimRight
      split
      · exact ih.trans (Nat.le_succ _)
      · exact le_rfl

theorem headerTo_agree (h : Agree data data' lineEnd) (hcursor : cursor < lineEnd) :
    headerTo data cursor lineEnd = headerTo data' cursor lineEnd := by
  unfold headerTo
  simp only [firstByte_agree h _ 58 le_rfl]
  have hcolon : (firstIndex (isByte 58 data') cursor lineEnd).getD 0 < lineEnd := by
    cases hfirst : firstIndex (isByte 58 data') cursor lineEnd with
    | none => exact (Nat.zero_le cursor).trans_lt hcursor
    | some => exact (firstIndex_eq_some.mp hfirst).2.1
  generalize (firstIndex (isByte 58 data') cursor lineEnd).getD 0 = colon at hcolon
  have htrim := trimLeft_range data' (colon + 1) (lineEnd - colon - 1)
  rw [allBytes_agree h isToken hcolon.le, trimLeft_agree h (by omega),
    trimRight_agree h (by omega)]

theorem nextHeader_eq_finished : nextHeader data cursor = .finished n ↔
    n = cursor + 2 ∧ n ≤ data.length ∧ crlfAt data cursor = true := by
  unfold nextHeader
  split
  next hover =>
    constructor
    · exact fun h => absurd h (by simp)
    · intro h
      omega
  split
  next hend =>
    constructor
    · intro h
      obtain rfl := NextHeader.finished.inj h
      exact ⟨rfl, hend.1, hend.2⟩
    · intro h
      rw [h.1]
  next hmore =>
    constructor
    · intro h
      simp only at h
      split at h
      · cases h
      · unfold headerTo at h
        simp only at h
        split at h
        · cases h
        split at h <;> cases h
    · rintro ⟨rfl, hle, hcrlf⟩
      exact absurd ⟨hle, hcrlf⟩ hmore

variable {field : Field}

theorem nextHeader_eq_header : nextHeader data cursor = .header field n ↔
    ∃ lineEnd, firstIndex (crlfAt data) cursor (data.length - 1) = some lineEnd ∧
      cursor < lineEnd ∧ headerTo data cursor lineEnd = .header field n := by
  constructor
  · intro h
    unfold nextHeader at h
    split at h
    · cases h
    split at h
    · cases h
    simp only at h
    split at h
    · cases h
    next hline =>
      cases hfirst : firstIndex (crlfAt data) cursor (data.length - 1) with
      | none =>
          rw [hfirst] at hline
          exact absurd (.inl rfl) hline
      | some lineEnd =>
          rw [hfirst] at h hline
          have hle := (firstIndex_eq_some.mp hfirst).1
          have hne : lineEnd ≠ cursor := fun heq => hline (.inl heq)
          exact ⟨lineEnd, rfl, by omega, h⟩
  · rintro ⟨lineEnd, hfirst, hlt, h⟩
    obtain ⟨-, hbound, -, hbefore⟩ := firstIndex_eq_some.mp hfirst
    have hcursor : crlfAt data cursor = false := hbefore cursor le_rfl hlt
    unfold nextHeader
    rw [if_neg (by omega), if_neg (by simp [hcursor]), hfirst]
    simp only [Option.getD_some]
    rw [if_neg (by omega), h]

theorem headerTo_next (h : headerTo data cursor lineEnd = .header field n) : n = lineEnd + 2 := by
  unfold headerTo at h
  simp only at h
  split at h
  · cases h
  split at h
  · cases h
  · exact (NextHeader.header.inj h).2.symm

theorem nextHeader_finished_agree (h : nextHeader data cursor = .finished n)
    (hagree : Agree data data' n) : nextHeader data' cursor = .finished n := by
  obtain ⟨hn, -, hcrlf⟩ := nextHeader_eq_finished.mp h
  refine nextHeader_eq_finished.mpr ⟨hn, hagree.right, ?_⟩
  rw [← crlfAt_agree hagree (by omega), hcrlf]

theorem nextHeader_header_agree (h : nextHeader data cursor = .header field n)
    (hagree : Agree data data' n) : nextHeader data' cursor = .header field n := by
  obtain ⟨lineEnd, hfirst, hlt, hheader⟩ := nextHeader_eq_header.mp h
  obtain rfl := headerTo_next hheader
  refine nextHeader_eq_header.mpr ⟨lineEnd, firstLine_agree hfirst hagree, hlt, ?_⟩
  rw [← headerTo_agree (hagree.mono (by omega)) hlt, hheader]

/-- Where the parts of a header that is returned lie.  The length of its name may have wrapped. -/
theorem nextHeader_ranges (h : nextHeader data cursor = .header field n) :
    field.nameStart = cursor ∧ field.valueStart + field.valueLength ≤ n ∧
      (cursor + field.nameLength ≤ n ∨ 2 ^ 64 ≤ cursor + field.nameLength) := by
  obtain ⟨lineEnd, hfirst, hlt, hheader⟩ := nextHeader_eq_header.mp h
  obtain rfl := headerTo_next hheader
  unfold headerTo at hheader
  have hcolon : (firstIndex (isByte 58 data) cursor lineEnd).getD 0 < lineEnd := by
    cases hfirst : firstIndex (isByte 58 data) cursor lineEnd with
    | none => exact (Nat.zero_le cursor).trans_lt hlt
    | some => exact (firstIndex_eq_some.mp hfirst).2.1
  simp only at hheader
  generalize (firstIndex (isByte 58 data) cursor lineEnd).getD 0 = colon at hcolon hheader
  split at hheader
  · cases hheader
  split at hheader
  · cases hheader
  obtain ⟨rfl, -⟩ := NextHeader.header.inj hheader
  have htrim := trimLeft_range data (colon + 1) (lineEnd - colon - 1)
  have hright := trimRight_le data (trimLeft data (colon + 1) (lineEnd - colon - 1)).1
    (trimLeft data (colon + 1) (lineEnd - colon - 1)).2
  refine ⟨rfl, ?_, ?_⟩
  · simp only
    omega
  · simp only
    omega

variable {fields : List Field}

theorem Walk.start_lt (h : Walk data start fields stop) : start < stop := by
  induction h with
  | finished hnext =>
      obtain ⟨hn, -⟩ := nextHeader_eq_finished.mp hnext
      omega
  | header hnext _ ih => exact (nextHeader_next hnext).1.trans ih

theorem Walk.stop_le (h : Walk data start fields stop) : stop ≤ data.length := by
  induction h with
  | finished hnext => exact (nextHeader_eq_finished.mp hnext).2.1
  | header _ _ ih => exact ih

/-- A walk sees nothing after the empty line. -/
theorem Walk.agree (h : Walk data start fields stop) (hagree : Agree data data' stop) :
    Walk data' start fields stop := by
  induction h with
  | finished hnext => exact .finished (nextHeader_finished_agree hnext hagree)
  | header hnext rest ih =>
      have hbefore := hagree.mono rest.start_lt.le
      exact .header (nextHeader_header_agree hnext hbefore) (ih hagree)

end Locality

end Jadren.Http

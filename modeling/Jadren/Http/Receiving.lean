import Jadren.Http.Frames
import Jadren.Library.Folds
import Jadren.Library.Framing

/-!
# Requests do not depend on how they arrive

A detector that has found a frame finds the same on every buffer that begins with the frame, up
to the frame itself.  With that it is a framing of the stream, whatever chunks the stream comes in.

Each reader depends only on the bytes before the place where it stops: on buffers that agree so far
(`Agree`), the walk over the headers, the chunk sizes and the trailers give the same, and
`frameLength_agree` puts them together for every detector.
-/

namespace Jadren.Http

open List Option

section Walks

variable {data data' : Bytes} {n start stop cursor : ℕ}

/-- The parts of a header lie before the index, unless the length of its name has wrapped. -/
def FieldIn (n : ℕ) (field : Field) : Prop :=
  field.valueStart + field.valueLength ≤ n ∧ field.nameStart ≤ n ∧
    (field.nameStart + field.nameLength ≤ n ∨ 2 ^ 64 ≤ field.nameStart + field.nameLength)

variable {fields : List Field}

theorem Walk.fieldIn (h : Walk data start fields stop) : ∀ field ∈ fields, FieldIn stop field := by
  induction h with
  | finished => exact fun field hfield => absurd hfield not_mem_nil
  | @header cursor next stop field fields hnext rest ih =>
      intro other hother
      rcases mem_cons.mp hother with rfl | hother
      · obtain ⟨hstart, hvalue, hname⟩ := nextHeader_ranges hnext
        have hlt := rest.start_lt
        have hbetween := nextHeader_next hnext
        unfold FieldIn
        rw [hstart]
        omega
      · exact ih other hother

/-- A name whose length has wrapped is longer than the data. -/
theorem headerNameEquals_wrapped {length : ℕ} {name : Bytes} (hdata : data.length < 2 ^ 64)
    (hstart : start ≤ data.length) (hwrap : 2 ^ 64 ≤ start + length) :
    headerNameEquals data start length name = false := by
  by_contra htrue
  rw [Bool.not_eq_false] at htrue
  unfold headerNameEquals at htrue
  rw [Bool.and_eq_true, beq_iff_eq, beq_iff_eq] at htrue
  have hlengths := congrArg List.length htrue.2
  rw [length_map, length_map, ← htrue.1] at hlengths
  unfold slice at hlengths
  rw [length_take, length_drop] at hlengths
  omega

variable {field : Field}

theorem headerNameEquals_agree (h : Agree data data' n) (hdata : data.length < 2 ^ 64)
    (hdata' : data'.length < 2 ^ 64) (hfield : FieldIn n field) (name : Bytes) :
    headerNameEquals data field.nameStart field.nameLength name =
      headerNameEquals data' field.nameStart field.nameLength name := by
  obtain ⟨-, hstart, hin | hwrap⟩ := hfield
  · unfold headerNameEquals
    rw [h.slice hin]
  · rw [headerNameEquals_wrapped hdata (hstart.trans h.left) hwrap,
      headerNameEquals_wrapped hdata' (hstart.trans h.right) hwrap]

theorem visitHeader_agree (h : Agree data data' n) (hdata : data.length < 2 ^ 64)
    (hdata' : data'.length < 2 ^ 64) (hfield : FieldIn n field) (seen : Seen) :
    visitHeader data seen field = visitHeader data' seen field := by
  unfold visitHeader
  rw [headerNameEquals_agree h hdata hdata' hfield, headerNameEquals_agree h hdata hdata' hfield,
    h.slice hfield.1]

theorem visitFind_agree (h : Agree data data' n) (hdata : data.length < 2 ^ 64)
    (hdata' : data'.length < 2 ^ 64) (hfield : FieldIn n field) (name : Bytes)
    (found : Option (ℕ × ℕ)) :
    visitFind data name found field = visitFind data' name found field := by
  unfold visitFind
  rw [headerNameEquals_agree h hdata hdata' hfield]

/-- A loop over headers sees nothing after the empty line. -/
theorem walkHeaders_agree {β : Type*} {visit visit' : β → Field → Option β} {seen seen' : β}
    (h : walkHeaders data visit start seen = some (stop, seen')) (hagree : Agree data data' stop)
    (hvisit : ∀ field, FieldIn stop field → ∀ seen, visit seen field = visit' seen field) :
    walkHeaders data' visit' start seen = some (stop, seen') := by
  obtain ⟨fields, hwalk, hfold⟩ := walkHeaders_eq_some.mp h
  refine walkHeaders_eq_some.mpr ⟨fields, hwalk.agree hagree, ?_⟩
  rw [← Folds.foldlM_congr (fun field hfield => hvisit field (hwalk.fieldIn field hfield)), hfold]

variable {head : Head}

theorem headers_eq_some : headers data start = some head ↔
    walkHeaders data (visitHeader data) start ⟨0, false, false⟩ = some (head.bodyStart,
      ⟨head.contentLength, head.hasContentLength, head.hasTransferEncoding⟩) := by
  unfold headers
  constructor
  · intro h
    obtain ⟨⟨bodyStart, seen⟩, hwalk, rfl⟩ := map_eq_some_iff.mp h
    exact hwalk
  · intro h
    rw [h]
    rfl

theorem headers_agree (h : headers data start = some head)
    (hagree : Agree data data' head.bodyStart) (hdata : data.length < 2 ^ 64)
    (hdata' : data'.length < 2 ^ 64) : headers data' start = some head := by
  rw [headers_eq_some] at h ⊢
  exact walkHeaders_agree h hagree fun field hfield seen =>
    visitHeader_agree hagree hdata hdata' hfield seen

/-- A search ends where the headers do. -/
theorem findHeader_agree (h : Walk data start fields stop) (hagree : Agree data data' stop)
    (hdata : data.length < 2 ^ 64) (hdata' : data'.length < 2 ^ 64) (name : Bytes) :
    findHeader data start name = findHeader data' start name := by
  have hsame : walkHeaders data (visitFind data name) start none =
      walkHeaders data' (visitFind data' name) start none := by
    have hfold := Folds.foldlM_congr (fun field hfield =>
      visitFind_agree hagree hdata hdata' (h.fieldIn field hfield) name) none
    rw [h.walkHeaders_eq, (h.agree hagree).walkHeaders_eq, hfold]
  unfold findHeader
  rw [hsame]

theorem headers_walk (h : headers data start = some head) :
    ∃ fields, Walk data start fields head.bodyStart := by
  rw [headers_eq_some] at h
  obtain ⟨fields, hwalk, -⟩ := walkHeaders_eq_some.mp h
  exact ⟨fields, hwalk⟩

variable {line : RequestLine}

theorem parseHead_eq_some : parseHead data = some (line, head) ↔
    parseLine data = some line ∧ headers data line.headersStart = some head := by
  unfold parseHead
  constructor
  · intro h
    obtain ⟨line', hline, hmap⟩ := bind_eq_some_iff.mp h
    obtain ⟨head', hhead, hpair⟩ := map_eq_some_iff.mp hmap
    obtain ⟨rfl, rfl⟩ := Prod.mk.inj hpair
    exact ⟨hline, hhead⟩
  · rintro ⟨hline, hhead⟩
    rw [hline, bind_some, hhead]
    rfl

theorem parseHead_agree (h : parseHead data = some (line, head))
    (hagree : Agree data data' head.bodyStart) (hdata : data.length < 2 ^ 64)
    (hdata' : data'.length < 2 ^ 64) : parseHead data' = some (line, head) := by
  obtain ⟨hline, hhead⟩ := parseHead_eq_some.mp h
  obtain ⟨fields, hwalk⟩ := headers_walk hhead
  refine parseHead_eq_some.mpr ⟨?_, headers_agree hhead hagree hdata hdata'⟩
  exact parseLine_agree hline (hagree.mono hwalk.start_lt.le)

theorem bodyStart_le (h : parseHead data = some (line, head)) : head.bodyStart ≤ data.length := by
  obtain ⟨fields, hwalk⟩ := headers_walk (parseHead_eq_some.mp h).2
  exact hwalk.stop_le

end Walks

section Chunks

variable {data data' : Bytes} {n cursor lineEnd size bodyLength bodyEnd : ℕ}

theorem trailersEnd_eq_some : trailersEnd data cursor = some n ↔
    ∃ fields, Walk data cursor fields n := by
  unfold trailersEnd
  constructor
  · intro h
    obtain ⟨⟨stop, seen⟩, hwalk, rfl⟩ := map_eq_some_iff.mp h
    obtain ⟨fields, hfields, -⟩ := walkHeaders_eq_some.mp hwalk
    exact ⟨fields, hfields⟩
  · rintro ⟨fields, hfields⟩
    have hfold : ∀ fields : List Field, fields.foldlM (fun _ _ => some ()) () = some () := by
      intro fields
      induction fields with
      | nil => rfl
      | cons field fields ih => exact ih
    rw [walkHeaders_eq_some.mpr ⟨fields, hfields, hfold fields⟩]
    rfl

theorem chunkSize_agree (h : chunkSize data cursor = some (lineEnd, size))
    (hagree : Agree data data' (lineEnd + 2)) : chunkSize data' cursor = some (lineEnd, size) := by
  unfold chunkSize at h ⊢
  obtain ⟨lineEnd', hfirst, hrest⟩ := bind_eq_some_iff.mp h
  split at hrest
  · cases hrest
  next hne =>
    simp only at hrest
    split at hrest
    · cases hrest
    next hsize =>
      obtain ⟨size', hread, hpair⟩ := map_eq_some_iff.mp hrest
      obtain ⟨rfl, rfl⟩ := Prod.mk.inj hpair
      have hsizeEnd := firstByte_agree hagree cursor 59 (Nat.le_add_right lineEnd' 2)
      have hle : (firstIndex (isByte 59 data) cursor lineEnd').getD lineEnd' ≤ lineEnd' := by
        cases hsemicolon : firstIndex (isByte 59 data) cursor lineEnd' with
        | none => exact le_rfl
        | some => exact (firstIndex_eq_some.mp hsemicolon).2.1.le
      have hcursor := (firstIndex_eq_some.mp hfirst).1
      rw [firstLine_agree hfirst hagree, bind_some, if_neg hne, ← hsizeEnd]
      simp only
      rw [if_neg hsize, ← hagree.slice (by omega), hread]
      rfl

theorem chunkSize_le (h : chunkSize data cursor = some (lineEnd, size)) :
    cursor ≤ lineEnd ∧ lineEnd + 2 ≤ data.length := by
  unfold chunkSize at h
  obtain ⟨lineEnd', hfirst, hrest⟩ := bind_eq_some_iff.mp h
  obtain ⟨hle, hlt, -⟩ := firstIndex_eq_some.mp hfirst
  split at hrest
  · cases hrest
  · simp only at hrest
    split at hrest
    · cases hrest
    · obtain ⟨size', -, hpair⟩ := map_eq_some_iff.mp hrest
      obtain ⟨rfl, rfl⟩ := Prod.mk.inj hpair
      omega

variable {s : ℕ × ℕ}

/-- What one round of the scan of chunks does. -/
theorem chunkedStep_eq_inl {s' : ℕ × ℕ} : chunkedStep data s = .inl s' ↔
    ∃ lineEnd size, chunkSize data s.1 = some (lineEnd, size) ∧ size ≠ 0 ∧
      s.2 ≤ maxLength - size ∧ lineEnd + 2 + size + 1 < data.length ∧
      crlfAt data (lineEnd + 2 + size) = true ∧ s' = (lineEnd + 2 + size + 2, s.2 + size) := by
  unfold chunkedStep
  cases hchunk : chunkSize data s.1 with
  | none => simp
  | some chunk =>
      obtain ⟨lineEnd, size⟩ := chunk
      simp only [Option.some.injEq, Prod.mk.injEq]
      constructor
      · intro h
        split at h
        · cases h
        split at h
        · cases h
        split at h
        · cases h
        next hzero hover hcrlf =>
          simp only [not_or, Bool.not_eq_true', Bool.not_eq_false] at hover hcrlf
          exact ⟨lineEnd, size, ⟨rfl, rfl⟩, hzero, by omega, by omega, hcrlf.2,
            (Sum.inl.inj h).symm⟩
      · rintro ⟨_, _, ⟨rfl, rfl⟩, hzero, htotal, hlength, hcrlf, rfl⟩
        rw [if_neg hzero, if_neg (by omega), if_neg (by simp [hcrlf]; omega)]

theorem chunkedStep_eq_inr_some {result : ℕ × ℕ} :
    chunkedStep data s = .inr (some result) ↔
    ∃ lineEnd, chunkSize data s.1 = some (lineEnd, 0) ∧ result.1 = s.2 ∧
      trailersEnd data (lineEnd + 2) = some result.2 := by
  unfold chunkedStep
  cases hchunk : chunkSize data s.1 with
  | none => simp
  | some chunk =>
      obtain ⟨lineEnd, size⟩ := chunk
      simp only [Option.some.injEq, Prod.mk.injEq]
      constructor
      · intro h
        split at h
        next hzero =>
          obtain ⟨bodyEnd, hend, rfl⟩ := map_eq_some_iff.mp (Sum.inr.inj h)
          exact ⟨lineEnd, ⟨rfl, hzero⟩, rfl, hend⟩
        · split at h
          · cases h
          · split at h <;> cases h
      · rintro ⟨_, ⟨rfl, rfl⟩, hlength, hend⟩
        rw [if_pos rfl, hend, ← hlength]
        rfl

theorem chunkedStep_down {s' : ℕ × ℕ} (h : chunkedStep data s = .inl s') :
    data.length + 1 - s'.1 < data.length + 1 - s.1 := by
  obtain ⟨lineEnd, size, hchunk, hzero, htotal, hlength, hcrlf, rfl⟩ := chunkedStep_eq_inl.mp h
  have hle := (chunkSize_le hchunk).1
  simp only
  omega

theorem chunkedScan_eq_some {bodyStart : ℕ} {result : ℕ × ℕ} :
    chunkedScan data bodyStart = some result ↔ bodyStart ≤ data.length ∧
      Loop.Ends (chunkedStep data) (bodyStart, 0) (some result) := by
  obtain ⟨b, hrun, hends⟩ := Loop.run_spec (bodyStart, 0) (fun s => data.length + 1 - s.1)
    (fun _ _ => chunkedStep_down) (Nat.lt_succ_of_le (Nat.sub_le (data.length + 1) bodyStart))
  rw [hends]
  unfold chunkedScan
  rw [hrun]
  split
  next hover =>
    constructor
    · exact fun h => absurd h (by simp)
    · intro h
      omega
  next hin =>
    constructor
    · exact fun h => ⟨by omega, h⟩
    · exact fun h => h.2

/-- The scan of chunks sees nothing after the end of the body. -/
theorem chunked_agree (h : Loop.Ends (chunkedStep data) s (some (bodyLength, bodyEnd))) :
    s.1 ≤ bodyEnd ∧ bodyEnd ≤ data.length ∧ ∀ {data'}, Agree data data' bodyEnd →
      Loop.Ends (chunkedStep data') s (some (bodyLength, bodyEnd)) := by
  generalize hresult : some (bodyLength, bodyEnd) = result at h
  induction h with
  | done hstep =>
      subst hresult
      obtain ⟨lineEnd, hchunk, hlength, hend⟩ := chunkedStep_eq_inr_some.mp hstep
      obtain ⟨fields, hwalk⟩ := trailersEnd_eq_some.mp hend
      have hlt := hwalk.start_lt
      have hle := (chunkSize_le hchunk).1
      refine ⟨by simp only at hlt; omega, hwalk.stop_le, fun hagree => .done ?_⟩
      refine chunkedStep_eq_inr_some.mpr ⟨lineEnd, ?_, hlength, ?_⟩
      · exact chunkSize_agree hchunk (hagree.mono hlt.le)
      · exact trailersEnd_eq_some.mpr ⟨fields, hwalk.agree hagree⟩
  | next hstep _ ih =>
      obtain ⟨lineEnd, size, hchunk, hzero, htotal, hlength, hcrlf, rfl⟩ :=
        chunkedStep_eq_inl.mp hstep
      obtain ⟨hle, hbound, hrest⟩ := ih hresult
      have hcursor := (chunkSize_le hchunk).1
      simp only at hle
      refine ⟨by omega, hbound, fun hagree => .next ?_ (hrest hagree)⟩
      have hright := hagree.right
      refine chunkedStep_eq_inl.mpr ⟨lineEnd, size, ?_, hzero, htotal, by omega, ?_, rfl⟩
      · exact chunkSize_agree hchunk (hagree.mono (by omega))
      · rw [← crlfAt_agree hagree (by omega), hcrlf]

theorem chunkedScan_agree {bodyStart : ℕ}
    (h : chunkedScan data bodyStart = some (bodyLength, bodyEnd))
    (hagree : Agree data data' bodyEnd) :
    chunkedScan data' bodyStart = some (bodyLength, bodyEnd) := by
  obtain ⟨-, hends⟩ := chunkedScan_eq_some.mp h
  obtain ⟨hle, -, hsame⟩ := chunked_agree hends
  exact chunkedScan_eq_some.mpr ⟨hle.trans hagree.right, hsame hagree⟩

end Chunks

/-! ## Detectors -/

section Detectors

variable {data data' : Bytes} {capacity capacity' : UInt64} {n : ℕ}

/-- The value that is found lies before the end of the headers. -/
theorem findHeader_le {name : Bytes} {start stop valueStart valueLength : ℕ} {fields : List Field}
    (hwalk : Walk data start fields stop)
    (h : findHeader data start name = .found valueStart valueLength) :
    valueStart + valueLength ≤ stop := by
  unfold findHeader at h
  split at h
  · cases h
  split at h
  · cases h
  · cases h
  next stop' start' length' hfound =>
    obtain ⟨rfl, rfl⟩ := FindHeader.found.inj h
    obtain ⟨fields', hwalk', hfold⟩ := walkHeaders_eq_some.mp hfound
    obtain ⟨rfl, rfl⟩ := hwalk.unique hwalk'
    have hin := Folds.foldlM_invariant
        (fun found => ∀ range ∈ found, range.1 + range.2 ≤ stop) hfold
      (fun range hrange => absurd hrange (by simp)) fun field hfield found found' hI hvisit => by
        unfold visitFind at hvisit
        split at hvisit
        · split at hvisit
          · cases hvisit
          · obtain rfl := some.inj hvisit
            intro range hrange
            obtain rfl := some.inj hrange
            exact (hwalk.fieldIn field hfield).1
        · obtain rfl := some.inj hvisit
          exact hI
    exact hin _ rfl

theorem frameLengthPrefix_pos (hpos : 0 < n) : frameLengthPrefix data capacity = n ↔
    data.length ≤ capacity.toNat ∧ ∃ line head, parseHead data = some (line, head) ∧
      head.hasTransferEncoding = false ∧
      ((head.hasContentLength = false ∧ n = head.bodyStart) ∨
        (head.hasContentLength = true ∧ n = head.bodyStart + head.contentLength ∧
          n ≤ data.length)) := by
  unfold frameLengthPrefix
  constructor
  · intro h
    -- zero is the answer of every test that fails; `n` is not zero
    split at h
    · omega
    next hfits =>
      cases hhead : parseHead data with
      | none =>
          simp only [hhead] at h
          omega
      | some parsed =>
          obtain ⟨line, head⟩ := parsed
          simp only [hhead] at h
          refine ⟨by omega, line, head, rfl, ?_⟩
          split at h
          · omega
          next hencoding =>
            refine ⟨by simpa using hencoding, ?_⟩
            split at h
            next hplain => exact .inl ⟨by simpa using hplain, h.symm⟩
            next hlength =>
              split at h
              · omega
              next hbody =>
                have hle := bodyStart_le hhead
                exact .inr ⟨by simpa using hlength, h.symm, by omega⟩
  · rintro ⟨hfits, line, head, hhead, hencoding, ⟨hplain, rfl⟩ | ⟨hlength, rfl, hle⟩⟩
    · rw [if_neg (by omega), hhead]
      simp [hencoding, hplain]
    · have hbody : ¬ (head.bodyStart > data.length ∨
          head.contentLength > data.length - head.bodyStart) := by omega
      rw [if_neg (by omega), hhead]
      simp only [hencoding, hlength, Bool.not_true, Bool.false_eq_true, if_false]
      rw [if_neg hbody]

theorem chunkedFrameLengthPrefix_pos (hpos : 0 < n) : chunkedFrameLengthPrefix data capacity = n ↔
    data.length ≤ capacity.toNat ∧ ∃ line head transferStart bodyLength,
      parseHead data = some (line, head) ∧ head.hasTransferEncoding = true ∧
      head.hasContentLength = false ∧
      findHeader data line.headersStart transferEncodingName = .found transferStart 7 ∧
      (slice data transferStart 7).map lower = chunkedName ∧
      chunkedScan data head.bodyStart = some (bodyLength, n) := by
  unfold chunkedFrameLengthPrefix
  constructor
  · intro h
    -- as above: every test that fails answers zero
    split at h
    · omega
    next hfits =>
      cases hhead : parseHead data with
      | none =>
          simp only [hhead] at h
          omega
      | some parsed =>
          obtain ⟨line, head⟩ := parsed
          simp only [hhead] at h
          split at h
          · omega
          next hencoding =>
            simp only [Bool.or_eq_true, Bool.not_eq_true', not_or, Bool.not_eq_false,
              Bool.not_eq_true] at hencoding
            cases hfind : findHeader data line.headersStart transferEncodingName with
            | error | absent =>
                simp only [hfind] at h
                omega
            | found transferStart transferLength =>
                simp only [hfind] at h
                split at h
                · omega
                next hrange =>
                  obtain rfl : transferLength = 7 := by omega
                  split at h
                  · omega
                  next hname =>
                    cases hscan : chunkedScan data head.bodyStart with
                    | none =>
                        simp only [hscan] at h
                        omega
                    | some scanned =>
                        obtain ⟨bodyLength, bodyEnd⟩ := scanned
                        simp only [hscan] at h
                        subst h
                        exact ⟨by omega, line, head, transferStart, bodyLength, rfl, hencoding.1,
                          hencoding.2, hfind, by simpa using hname, hscan⟩
  · rintro ⟨hfits, line, head, transferStart, bodyLength, hhead, hencoding, hlength, hfind, hname,
      hscan⟩
    obtain ⟨fields, hwalk⟩ := headers_walk (parseHead_eq_some.mp hhead).2
    have hrange := (findHeader_le hwalk hfind).trans hwalk.stop_le
    rw [if_neg (by omega), hhead]
    simp only [hencoding, hlength, hfind, Bool.not_true, Bool.or_self, Bool.false_eq_true, if_false]
    rw [if_neg (by omega), if_neg (by simpa using hname), hscan]

/-- The two ways to detect a request: by its headers alone, or with a chunked body. -/
inductive Detector
  | plain
  | chunked

namespace Detector

def frameLength : Detector → Bytes → UInt64 → ℕ
  | plain => frameLengthPrefix
  | chunked => chunkedFrameLengthPrefix

/-- The bytes are a request and nothing else. -/
def Complete : Detector → Bytes → Prop
  | plain, data => isComplete data = true
  | chunked, data => ∃ line head bodyLength, parseHead data = some (line, head) ∧
      chunkedScan data head.bodyStart = some (bodyLength, data.length)

theorem frameLength_fits (d : Detector) (hpos : 0 < d.frameLength data capacity) :
    data.length ≤ capacity.toNat := by
  cases d with
  | plain => exact ((frameLengthPrefix_pos hpos).mp rfl).1
  | chunked => exact ((chunkedFrameLengthPrefix_pos hpos).mp rfl).1

theorem frameLength_le (d : Detector) (data : Bytes) (capacity : UInt64) :
    d.frameLength data capacity ≤ data.length := by
  rcases Nat.eq_zero_or_pos (d.frameLength data capacity) with hzero | hpos
  · omega
  · cases d with
    | plain =>
        obtain ⟨-, line, head, hhead, -, ⟨-, hn⟩ | ⟨-, -, hle⟩⟩ :=
          (frameLengthPrefix_pos hpos).mp rfl
        · exact hn.le.trans (bodyStart_le hhead)
        · exact hle
    | chunked =>
        obtain ⟨-, line, head, transferStart, bodyLength, -, -, -, -, -, hscan⟩ :=
          (chunkedFrameLengthPrefix_pos hpos).mp rfl
        exact (chunked_agree (chunkedScan_eq_some.mp hscan).2).2.1

/-- A frame that is detected is detected in every buffer that begins with it. -/
theorem frameLength_agree (d : Detector) (h : d.frameLength data capacity = n) (hpos : 0 < n)
    (hagree : Agree data data' n) (hfits : data'.length ≤ capacity'.toNat) :
    d.frameLength data' capacity' = n := by
  have hsmall : ∀ {bytes : Bytes} {bound : UInt64}, bytes.length ≤ bound.toNat →
      bytes.length < 2 ^ 64 := fun hle => hle.trans_lt (UInt64.toNat_lt _)
  cases d with
  | plain =>
      obtain ⟨hdata, line, head, hhead, hencoding, hbody⟩ := (frameLengthPrefix_pos hpos).mp h
      have hstart : head.bodyStart ≤ n := by
        rcases hbody with ⟨-, rfl⟩ | ⟨-, rfl, -⟩
        · exact le_rfl
        · exact Nat.le_add_right _ _
      refine (frameLengthPrefix_pos hpos).mpr ⟨hfits, line, head, ?_, hencoding, ?_⟩
      · exact parseHead_agree hhead (hagree.mono hstart) (hsmall hdata) (hsmall hfits)
      · exact hbody.imp_right fun hlength => ⟨hlength.1, hlength.2.1, hagree.right⟩
  | chunked =>
      obtain ⟨hdata, line, head, transferStart, bodyLength, hhead, hencoding, hlength, hfind, hname,
        hscan⟩ := (chunkedFrameLengthPrefix_pos hpos).mp h
      obtain ⟨fields, hwalk⟩ := headers_walk (parseHead_eq_some.mp hhead).2
      have hstart : head.bodyStart ≤ n := (chunked_agree (chunkedScan_eq_some.mp hscan).2).1
      have hbefore := hagree.mono hstart
      refine (chunkedFrameLengthPrefix_pos hpos).mpr ⟨hfits, line, head, transferStart, bodyLength,
        ?_, hencoding, hlength, ?_, ?_, chunkedScan_agree hscan hagree⟩
      · exact parseHead_agree hhead hbefore (hsmall hdata) (hsmall hfits)
      · rw [← findHeader_agree hwalk hbefore (hsmall hdata) (hsmall hfits), hfind]
      · rw [← hbefore.slice (findHeader_le hwalk hfind), hname]

/-- A frame is a request and nothing else. -/
theorem complete_take (d : Detector) (h : d.frameLength data capacity = n) (hpos : 0 < n) :
    d.Complete (data.take n) := by
  have hle : n ≤ data.length := h ▸ d.frameLength_le data capacity
  have hlength : (data.take n).length = n := by simp [hle]
  have hfits : (data.take n).length ≤ capacity.toNat := by
    rw [hlength]
    exact hle.trans (d.frameLength_fits (h ▸ hpos))
  have hsame := d.frameLength_agree h hpos (.restrict hle) hfits
  cases d with
  | plain =>
      obtain ⟨-, line, head, hhead, hencoding, hbody⟩ := (frameLengthPrefix_pos hpos).mp hsame
      have hcomplete : isComplete (data.take n) = true := by
        unfold isComplete
        rw [hhead]
        rcases hbody with ⟨hplain, hn⟩ | ⟨hcontent, hn, -⟩
        · simp [hencoding, hplain, hlength, ← hn]
        · have hrest : head.bodyStart ≤ n ∧ head.contentLength ≤ n - head.bodyStart := by omega
          simp [hencoding, hcontent, hlength, hrest]
      exact hcomplete
  | chunked =>
      obtain ⟨-, line, head, transferStart, bodyLength, hhead, -, -, -, -, hscan⟩ :=
        (chunkedFrameLengthPrefix_pos hpos).mp hsame
      exact ⟨line, head, bodyLength, hhead, by rw [hlength, hscan]⟩

/-- The detector cuts the stream into frames. -/
def framing (d : Detector) (capacity : UInt64) : Framing UInt8 where
  capacity := capacity.toNat
  detect buffer := d.frameLength buffer capacity
  le buffer := d.frameLength_le buffer capacity
  fits _ hpos := d.frameLength_fits hpos
  extend buffer more hpos hfits :=
    d.frameLength_agree rfl hpos
      ((Agree.append buffer more).mono (d.frameLength_le buffer capacity)) hfits

end Detector

end Detectors

/-! ## Receiving -/

/-- A connection that has received some bytes in chunks, the frames taken out and the buffer. -/
inductive Received (d : Detector) (capacity : UInt64) : Bytes → List Bytes → Bytes → Prop
  | start : Received d capacity [] [] []
  | chunk {stream : Bytes} {frames : List Bytes} {buffer buffer' chunk : Bytes}
      (h : Received d capacity stream frames buffer)
      (happend : append buffer capacity chunk = some buffer') :
      Received d capacity (stream ++ chunk) frames buffer'
  | frame {stream : Bytes} {frames : List Bytes} {buffer : Bytes} {n : ℕ}
      (h : Received d capacity stream frames buffer)
      (hdetect : d.frameLength buffer capacity = n) (hpos : 0 < n) :
      Received d capacity stream (frames ++ [buffer.take n]) (consumePrefix buffer capacity n)

theorem Received.receives {d : Detector} {capacity : UInt64} {stream : Bytes} {frames : List Bytes}
    {buffer : Bytes} (h : Received d capacity stream frames buffer) :
    (d.framing capacity).Receives stream frames buffer := by
  induction h with
  | start => exact .start
  | chunk _ happend ih =>
      unfold append at happend
      split at happend
      · cases happend
      next hfits =>
        obtain rfl := some.inj happend
        refine .append _ ih ?_
        rw [length_append]
        have hcapacity : (d.framing capacity).capacity = capacity.toNat := rfl
        omega
  | frame _ hdetect hpos ih =>
      subst hdetect
      rw [consumePrefix_eq (d.frameLength_fits hpos) (d.frameLength_le _ _)]
      exact .take ih hpos

/-- From any buffer the frames can be taken out until none is detected. -/
theorem Received.exists_drained {d : Detector} {capacity : UInt64} {stream : Bytes}
    {frames : List Bytes} {buffer : Bytes} (h : Received d capacity stream frames buffer) :
    ∃ others rest, Received d capacity stream (frames ++ others) rest ∧
      d.frameLength rest capacity = 0 := by
  induction hlength : buffer.length using Nat.strong_induction_on generalizing frames buffer with
  | _ length ih =>
      by_cases hdrained : d.frameLength buffer capacity = 0
      · exact ⟨[], buffer, by rwa [append_nil], hdrained⟩
      · have hpos := Nat.pos_of_ne_zero hdrained
        have hle := d.frameLength_le buffer capacity
        have hshort : (consumePrefix buffer capacity (d.frameLength buffer capacity)).length <
            length := by
          rw [consumePrefix_eq (d.frameLength_fits hpos) hle, length_drop]
          omega
        obtain ⟨others, rest, hrest, hend⟩ := ih _ hshort (h.frame rfl hpos) rfl
        exact ⟨_ :: others, rest, by rwa [append_assoc] at hrest, hend⟩

/-- Frames do not depend on how the stream arrives: they are the stream up to what is buffered, and
every connection can go on until no further frame is detected. -/
structure Framed (d : Detector) (capacity : UInt64) : Prop where
  le : ∀ buffer, d.frameLength buffer capacity ≤ buffer.length
  complete : ∀ buffer n, d.frameLength buffer capacity = n → 0 < n → d.Complete (buffer.take n)
  extend : ∀ buffer more n, d.frameLength buffer capacity = n → 0 < n →
    (buffer ++ more).length ≤ capacity.toNat → d.frameLength (buffer ++ more) capacity = n
  shorter : ∀ buffer n m, d.frameLength buffer capacity = n → m < n →
    d.frameLength (buffer.take m) capacity = 0
  whole : ∀ stream frames buffer, Received d capacity stream frames buffer →
    stream = frames.flatten ++ buffer
  requests : ∀ stream frames buffer, Received d capacity stream frames buffer →
    ∀ frame ∈ frames, d.Complete frame
  drains : ∀ stream frames buffer, Received d capacity stream frames buffer →
    ∃ others rest, Received d capacity stream (frames ++ others) rest ∧
      d.frameLength rest capacity = 0
  frames : ∀ stream frames frames' buffer buffer', Received d capacity stream frames buffer →
    Received d capacity stream frames' buffer' → d.frameLength buffer capacity = 0 →
    d.frameLength buffer' capacity = 0 → frames = frames' ∧ buffer = buffer'

theorem framed (d : Detector) (capacity : UInt64) : Framed d capacity where
  le buffer := d.frameLength_le buffer capacity
  complete _ _ h hpos := d.complete_take h hpos
  extend buffer more n h hpos hfits := by
    subst h
    exact (d.framing capacity).extend buffer more hpos hfits
  shorter buffer n m h hlt := by
    subst h
    exact Framing.detect_take (F := d.framing capacity) hlt
  whole _ _ _ h := h.receives.cuts.1
  requests stream frames buffer h := by
    induction h with
    | start => exact fun frame hframe => nomatch hframe
    | chunk _ _ ih => exact ih
    | frame _ hdetect hpos ih =>
        exact forall_mem_append.mpr
          ⟨ih, forall_mem_singleton.mpr (d.complete_take hdetect hpos)⟩
  drains _ _ _ h := h.exists_drained
  frames _ _ _ _ _ h h' hdrained hdrained' := h.receives.unique h'.receives hdrained hdrained'

/-- `POST / HTTP/1.1`, `Content-Length:1`, an empty line and a body of one byte. -/
def posted : Bytes :=
  [80, 79, 83, 84, 32, 47, 32] ++ httpVersion ++ [13, 10] ++ contentLengthName ++
    [58, 49, 13, 10, 13, 10, 120]

/-- Two requests in three chunks, each cut between the two bytes of a line's end; however else they
are cut, the same two are taken out. -/
theorem framed_twoRequests :
    Received .plain 96 (posted ++ posted) [posted, posted] [] ∧
      ∀ frames buffer, Received .plain 96 (posted ++ posted) frames buffer →
        Detector.plain.frameLength buffer 96 = 0 → frames = [posted, posted] ∧ buffer = [] := by
  have hframe : Detector.plain.frameLength (posted ++ posted.take 16) 96 = 38 := by decide +kernel
  have hlast : Detector.plain.frameLength posted 96 = 38 := by decide +kernel
  have first : Received .plain 96 (posted.take 16) [] (posted.take 16) := .chunk .start rfl
  have second : Received .plain 96 (posted ++ posted.take 16) [] (posted ++ posted.take 16) :=
    first.chunk (show append _ _ (posted.drop 16 ++ posted.take 16) = _ by decide +kernel)
  have taken : Received .plain 96 (posted ++ posted.take 16) [posted] (posted.take 16) :=
    second.frame hframe (by decide)
  have third : Received .plain 96 (posted ++ posted) [posted] posted :=
    taken.chunk (show append _ _ (posted.drop 16) = _ by decide +kernel)
  have received : Received .plain 96 (posted ++ posted) [posted, posted] [] :=
    third.frame hlast (by decide)
  exact ⟨received, fun frames buffer h hdrained =>
    (framed .plain 96).frames _ _ _ _ _ h received hdrained (by decide +kernel)⟩

end Jadren.Http

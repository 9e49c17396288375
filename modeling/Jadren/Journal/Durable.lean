import Jadren.Journal.Agreement

/-!
# Scanners on files

What the scanners return for the file of a journal: the count of its frames, each frame with its
offset and size, the model of the last frame, and for retention the file of the last frames.
Retention leaves a journal alone that has no more frames than it keeps, whatever its tail is.
-/

namespace Jadren.Journal

open Http (Bytes)

/-! ## Files -/

namespace Files

variable {files files' : Files} {path path' : Path} {data : Bytes}

theorem opened_eq_some : files.opened path = some data ↔
    path ≠ [] ∧ files.locked path = false ∧ files.content path = some data := by
  unfold opened
  cases hlocked : files.locked path <;> cases path <;> simp

theorem fileSize_eq (h : files.opened path = some data) : files.fileSize path = data.length := by
  unfold fileSize
  rw [h, Option.getD_some]

theorem fileRead_eq (h : files.opened path = some data) {length : ℕ} (hle : data.length ≤ length) :
    files.fileRead path length = data := by
  unfold fileRead
  rw [h, Option.getD_some, List.take_of_length_le hle]

theorem put_eq_some : files.put path data = some files' ↔ path ≠ [] ∧ files.locked path = false ∧
    files' = { files with content := Function.update files.content path (some data) } := by
  unfold put
  cases hlocked : files.locked path <;> cases path <;> simp [eq_comm]

theorem opened_put (h : files.put path data = some files') : files'.opened path = some data := by
  obtain ⟨hpath, hlocked, rfl⟩ := put_eq_some.mp h
  exact opened_eq_some.mpr ⟨hpath, hlocked, Function.update_self ..⟩

theorem locked_put (h : files.put path data = some files') : files'.locked = files.locked := by
  obtain ⟨-, -, rfl⟩ := put_eq_some.mp h
  rfl

theorem put_of_free (hpath : path ≠ []) (hlocked : files.locked path = false) (data : Bytes) :
    ∃ files', files.put path data = some files' :=
  ⟨_, put_eq_some.mpr ⟨hpath, hlocked, rfl⟩⟩

/-- The target of a replacement has the bytes of the source. -/
theorem opened_replace {source target : Path} (hsource : files.opened source = some data)
    (htarget : target ≠ []) (hlocked : files.locked target = false) :
    ∃ files', files.fileReplaceAtomic source target = some files' ∧
      files'.opened target = some data ∧ files'.locked = files.locked := by
  unfold fileReplaceAtomic
  rw [hsource, Option.bind_some, if_neg (by simp [htarget, hlocked])]
  exact ⟨_, rfl, opened_eq_some.mpr ⟨htarget, hlocked, Function.update_self ..⟩, rfl⟩

end Files

section Journals

variable {files : Files} {path : Path} {journal tail : Bytes} {frames : List Frame}

theorem journalDocumentMax_lt : journalDocumentMax < 2 ^ 64 := by decide

theorem readJournal_eq (h : files.opened path = some journal)
    (hlimit : journal.length ≤ journalDocumentMax) :
    readJournal files path = if journal = [] then none else some journal := by
  unfold readJournal
  rw [Files.fileSize_eq h]
  simp only
  by_cases hnil : journal = []
  · simp [hnil]
  · have hpos := List.length_pos_iff.mpr hnil
    rw [if_neg (by omega), if_neg hnil, Files.fileRead_eq h le_rfl, if_pos rfl]

/-- An empty journal has no frames. -/
theorem Splits.nil (h : Splits [] frames tail) : frames = [] := by
  obtain ⟨htext, -⟩ := h
  cases frames with
  | nil => rfl
  | cons frame =>
      have hpos := List.length_pos_iff.mpr frame.bytes_ne
      have hlength := congrArg List.length htext
      simp only [List.length_nil, List.flatMap_cons, List.length_append] at hlength
      omega

theorem validFrameCount_eq (h : files.opened path = some journal)
    (hlimit : journal.length ≤ journalDocumentMax) (hsplits : Splits journal frames tail) :
    validFrameCount files path = some frames.length := by
  unfold validFrameCount
  rw [readJournal_eq h hlimit]
  have hmax := journalDocumentMax_lt
  by_cases hnil : journal = []
  · subst hnil
    rw [if_pos rfl, hsplits.nil]
    rfl
  · rw [if_neg hnil]
    exact loop_countStep (by omega) hsplits

theorem readFrameExact_eq (h : files.opened path = some journal)
    (hlimit : journal.length ≤ journalDocumentMax) (hsplits : Splits journal frames tail)
    (k outputLength : ℕ) : readFrameExact files path k outputLength =
      some (match frames[k]? with
        | none => { returned := false }
        | some frame => frame.read ((frames.take k).flatMap Frame.bytes).length outputLength) := by
  unfold readFrameExact
  rw [readJournal_eq h hlimit]
  have hmax := journalDocumentMax_lt
  by_cases hnil : journal = []
  · subst hnil
    rw [if_pos rfl, hsplits.nil]
    rfl
  · have hloop := loop_readStep (by omega) (Nat.zero_le _) hsplits
      (by omega : journal.length < 0 + (journal.length + 1)) outputLength k 0
    simp only [Nat.zero_add] at hloop
    rw [if_neg hnil]
    exact hloop

theorem recover_eq {Model : Type*} (load : Bytes → Model → Option Model) (world : World Model)
    (scratchPath : Path) (h : world.files.opened path = some journal)
    (hlimit : journal.length ≤ journalDocumentMax) (hsplits : Splits journal frames tail) :
    recover load world path scratchPath =
      some (match frames.getLast? with
        | none => (false, world)
        | some frame => restore load world scratchPath frame.payload) := by
  unfold recover
  rw [readJournal_eq h hlimit]
  have hmax := journalDocumentMax_lt
  by_cases hnil : journal = []
  · subst hnil
    rw [if_pos rfl, hsplits.nil]
    rfl
  · obtain ⟨found, hloop, hcopy, hnone⟩ := loop_recoverStep (by omega) hsplits
    rw [if_neg hnil]
    simp only [hloop, Option.bind_some]
    cases found with
    | none => rw [hnone.mp rfl]; rfl
    | some found =>
        obtain ⟨payloadStart, payloadLength⟩ := found
        rw [Option.bind_some] at hcopy
        cases hlast : frames.getLast? with
        | none =>
            rw [List.getLast?_eq_none_iff] at hlast
            exact absurd (hnone.mpr hlast) (by simp)
        | some => simp [hcopy, hlast]

/-- The bytes of frames are a journal without a tail. -/
theorem splits_frames (frames : List Frame) : Splits (frames.flatMap Frame.bytes) frames [] := by
  refine ⟨(List.append_nil _).symm, fun frame h => ?_⟩
  exact frame.bytes_ne (List.prefix_nil.mp h)

theorem lastFrames_length {frames : List Frame} {maxFrames : ℕ} (h : maxFrames ≤ frames.length) :
    (lastFrames frames maxFrames).length = maxFrames := by
  unfold lastFrames
  rw [List.length_drop]
  omega

/-- The frames that are retained are the whole journal afterwards. -/
theorem retainFrames_eq {journalPath temporaryPath : Path} {maxFrames : ℕ}
    (htemporary : temporaryPath ≠ []) (hfree : files.locked temporaryPath = false)
    (h : files.opened journalPath = some journal)
    (hlimit : journal.length ≤ journalDocumentMax) (hsplits : Splits journal frames tail)
    (hpos : 0 < maxFrames) (hmore : maxFrames < frames.length) :
    ∃ files', retainFrames files journalPath temporaryPath frames.length maxFrames =
        some (true, files') ∧ files'.locked = files.locked ∧
      files'.opened journalPath = some ((lastFrames frames maxFrames).flatMap Frame.bytes) := by
  have hmax := journalDocumentMax_lt
  have hnil : journal ≠ [] := by
    rintro rfl
    rw [hsplits.nil] at hmore
    exact absurd hmore (Nat.not_lt_zero _)
  obtain ⟨hjournal, hjournalFree, -⟩ := Files.opened_eq_some.mp h
  -- the first pass finds where the frames to keep begin and where the last one ends
  obtain ⟨s, hloop, hcount, hstart, hend, hslice⟩ :=
    loop_retainStep (by omega) hsplits (by omega : frames.length - maxFrames < frames.length)
  obtain ⟨files₁, hwrite⟩ :=
    Files.put_of_free htemporary hfree ((lastFrames frames maxFrames).flatMap Frame.bytes)
  have hopened := Files.opened_put hwrite
  have hlocked := Files.locked_put hwrite
  obtain ⟨files₂, hreplace, hreplaced, hlocked₂⟩ :=
    Files.opened_replace hopened hjournal (by rw [hlocked]; exact hjournalFree)
  have hretained : ((lastFrames frames maxFrames).flatMap Frame.bytes).length ≤
      journalDocumentMax := by
    unfold lastFrames
    rw [← hslice, length_slice (by omega)]
    omega
  -- the journal is read again after the replacement, and has the frames kept
  have hcount₂ := validFrameCount_eq hreplaced hretained (splits_frames _)
  rw [lastFrames_length hmore.le] at hcount₂
  refine ⟨files₂, ?_, hlocked₂.trans hlocked, hreplaced⟩
  unfold retainFrames
  rw [readJournal_eq h hlimit, if_neg hnil]
  have hwrite' : files.fileWrite temporaryPath ((frames.drop (frames.length - maxFrames)).flatMap
      Frame.bytes) = some files₁ := hwrite
  simp only [Checked.sub_eq hmore.le, hloop, hcount, Option.bind_eq_bind, Option.bind_some]
  rw [if_neg (by omega), Checked.sub_eq hstart.le, Option.bind_some,
    Checked.copy_eq (by omega), Option.bind_some, hslice]
  simp only [hwrite', Files.fileFlush, hopened, hreplace, hreplaced, hcount₂, Option.isSome_some,
    Bool.not_true, Bool.false_eq_true, if_false, Option.bind_some]
  simp

/-- Taking a lock leaves the other files alone. -/
theorem Files.lock_eq {lockPath : Path} (hpath : lockPath ≠ [])
    (hfree : files.locked lockPath = false) :
    ∃ files', files.fileLock lockPath = some files' ∧ ∀ path, path ≠ lockPath →
      files'.opened path = files.opened path ∧ files'.locked path = files.locked path ∧
        files'.content path = files.content path := by
  unfold Files.fileLock
  rw [if_neg (by simp [hpath, hfree])]
  refine ⟨_, rfl, fun path hne => ?_⟩
  simp [Files.opened, Function.update_of_ne hne]

end Journals

/-- The frames of a journal, as the four scanners have them. -/
structure ScannersAgree (journal : Bytes) (frames : List Frame) : Prop where
  count : ∀ (files : Files) path, files.opened path = some journal →
    validFrameCount files path = some frames.length
  read : ∀ (files : Files) path, files.opened path = some journal → ∀ k outputLength,
    readFrameExact files path k outputLength = some (match frames[k]? with
      | none => { returned := false }
      | some frame => frame.read ((frames.take k).flatMap Frame.bytes).length outputLength)
  recover : ∀ (Model : Type) (load : Bytes → Model → Option Model) (world : World Model)
    path scratchPath, world.files.opened path = some journal →
      recover load world path scratchPath = some (match frames.getLast? with
        | none => (false, world)
        | some frame => restore load world scratchPath frame.payload)
  retain : ∀ (files : Files) journalPath scratchPath temporaryPath lockPath maxFrames,
    files.opened journalPath = some journal → journalPath ≠ temporaryPath →
      scratchPath ≠ temporaryPath → lockPath ≠ journalPath → lockPath ≠ temporaryPath →
      temporaryPath ≠ [] → lockPath ≠ [] → files.locked temporaryPath = false →
      files.locked lockPath = false → 0 < maxFrames →
      ∃ files', retainLastDurable files journalPath scratchPath temporaryPath lockPath maxFrames =
          some (true, files') ∧
        files'.content journalPath =
          if maxFrames < frames.length then
            some ((lastFrames frames maxFrames).flatMap Frame.bytes)
          else some journal

/-- The scanners agree on one list of frames, for every journal up to the limit. -/
theorem scanners_agree (journal : Bytes) (hlimit : journal.length ≤ journalDocumentMax) :
    ∃ frames tail, Splits journal frames tail ∧ ScannersAgree journal frames := by
  obtain ⟨frames, tail, hsplits⟩ := exists_splits journal
  refine ⟨frames, tail, hsplits, ⟨?_, ?_, ?_, ?_⟩⟩
  · exact fun files path h => validFrameCount_eq h hlimit hsplits
  · exact fun files path h k outputLength => readFrameExact_eq h hlimit hsplits k outputLength
  · exact fun Model load world path scratchPath h =>
      recover_eq load world scratchPath h hlimit hsplits
  · intro files journalPath scratchPath temporaryPath lockPath maxFrames h hjournal hscratch
      hlock hlockTemporary htemporary hlockPath hfree hlockFree hpos
    obtain ⟨hjournalPath, hjournalFree, hcontent⟩ := Files.opened_eq_some.mp h
    obtain ⟨files₁, hfiles₁, hsame⟩ := Files.lock_eq hlockPath hlockFree
    obtain ⟨hopened, hlocked, hcontent₁⟩ := hsame journalPath hlock.symm
    obtain ⟨-, htemporaryFree, -⟩ := hsame temporaryPath hlockTemporary.symm
    rw [h] at hopened
    have hcount := validFrameCount_eq hopened hlimit hsplits
    unfold retainLastDurable
    rw [if_neg (by simp [hjournalPath, htemporary, hlockPath]; omega),
      if_neg (by simp [hjournal, hscratch])]
    simp only [hfiles₁, hcount, Option.bind_eq_bind, Option.bind_some]
    by_cases hmore : maxFrames < frames.length
    · obtain ⟨files₂, hretain, hlocked₂, hopened₂⟩ := retainFrames_eq htemporary
        (htemporaryFree.trans hfree) hopened hlimit hsplits hpos hmore
      simp only [hmore, if_true, hretain, Option.bind_some]
      refine ⟨_, rfl, ?_⟩
      exact (Files.opened_eq_some.mp hopened₂).2.2
    · simp only [hmore, if_false]
      refine ⟨_, rfl, ?_⟩
      unfold Files.fileUnlock
      rw [hcontent₁, hcontent]

/-- A frame of the payload `x`, and the first byte of another frame. -/
def tornJournal : Bytes := markerV1 ++ [49, 10, 120] ++ [74]

theorem scanners_agree_torn :
    ∃ frames tail, Splits tornJournal frames tail ∧ ScannersAgree tornJournal frames :=
  scanners_agree tornJournal (by decide)

/-- A file with the torn journal. -/
def tornFiles : Files where
  content := fun path => if path = [1] then some tornJournal else none
  locked := fun _ => false

/-- The journal is left as it is, which is not the bytes of its last frame. -/
theorem retain_keeps_torn_tail :
    ∃ files', retainLastDurable tornFiles [1] [2] [3] [4] 1 = some (true, files') ∧
      ∀ frames tail, Splits tornJournal frames tail →
        files'.content [1] ≠ some ((lastFrames frames 1).flatMap Frame.bytes) := by
  have hrun : (retainLastDurable tornFiles [1] [2] [3] [4] 1).map
      (fun r => (r.1, r.2.content [1])) = some (true, some tornJournal) := by decide +kernel
  obtain ⟨⟨returned, files'⟩, hretain, hpair⟩ := Option.map_eq_some_iff.mp hrun
  obtain ⟨rfl, hcontent⟩ := Prod.mk.inj hpair
  refine ⟨files', hretain, fun frames tail hsplits heq => ?_⟩
  rw [hcontent] at heq
  have hbytes : tornJournal = (lastFrames frames 1).flatMap Frame.bytes := Option.some.inj heq
  have hone : (lastFrames frames 1).length ≤ 1 := by
    unfold lastFrames
    rw [List.length_drop]
    omega
  match hlast : lastFrames frames 1, hone with
  | [], _ => exact absurd (hlast ▸ hbytes) (by decide)
  | [frame], _ =>
      rw [hlast, List.flatMap_cons, List.flatMap_nil] at hbytes
      have hframe : FrameAt tornJournal 0 (0 + frame.head.length) frame.payload.length :=
        ⟨frame, [], hbytes, rfl, rfl⟩
      have hfound : frameAt tornJournal 0 = some (25, 1) := by decide +kernel
      rw [← frameAt_eq_some (by decide), hfound] at hframe
      obtain ⟨hhead, hpayload⟩ := Prod.mk.inj (Option.some.inj hframe)
      have hlength := congrArg List.length hbytes
      have htorn : tornJournal.length = 27 := by decide
      rw [List.length_append, Frame.length_bytes, htorn, List.length_nil] at hlength
      omega

end Jadren.Journal

import Jadren.Journal.Frames

/-!
# The scanners agree

A journal is a list of frames and a tail that begins with no frame.  The four scanners walk along
this list: each step passes one frame, and each ends where the tail begins.
-/

namespace Jadren.Journal

open Http (Bytes)
open Journal.Frame Checked List Option

/-- The frames of a journal, and what is left of it. -/
def Splits (text : Bytes) (frames : List Frame) (tail : Bytes) : Prop :=
  text = frames.flatMap bytes ++ tail ∧ ∀ frame : Frame, ¬ frame.bytes <+: tail

/-- What a call to read the frame at the offset returns. -/
def Frame.read (frame : Frame) (offset outputLength : ℕ) : FrameRead :=
  let span := some (offset, frame.bytes.length)
  if outputLength = 0 then { returned := true, written := some frame.payload.length, span }
  else if frame.payload.length > outputLength then { returned := false, span }
  else
    { returned := true
      output := some frame.payload
      written := some frame.payload.length
      span }

/-- The last frames of the list, as many as the number says. -/
def lastFrames (frames : List Frame) (maxFrames : ℕ) : List Frame :=
  frames.drop (frames.length - maxFrames)

theorem exists_splits (text : Bytes) : ∃ frames tail, Splits text frames tail := by
  induction hn : text.length using Nat.strong_induction_on generalizing text with
  | _ n ih =>
      subst hn
      by_cases h : ∃ frame : Frame, frame.bytes <+: text
      · obtain ⟨frame, rest, rfl⟩ := h
        have hpos := length_pos_iff.mpr frame.bytes_ne
        obtain ⟨frames, tail, rfl, htail⟩ :=
          ih rest.length (by rw [length_append]; omega) rest rfl
        exact ⟨frame :: frames, tail, by simp, htail⟩
      · exact ⟨[], text, rfl, fun frame hframe => h ⟨frame, hframe⟩⟩

section Scans

variable {journal tail : Bytes} {frame : Frame} {frames : List Frame} {index fuel : ℕ}
  {parsed : Parsed}

theorem Frame.length_bytes (frame : Frame) :
    frame.bytes.length = frame.head.length + frame.payload.length := length_append

/-- The frame that the journal goes on with is the first of its list. -/
theorem Splits.step (h : Splits (journal.drop index) (frame :: frames) tail)
    (hindex : index ≤ journal.length) :
    journal.drop index = frame.bytes ++ journal.drop (index + frame.bytes.length) ∧
      Splits (journal.drop (index + frame.bytes.length)) frames tail ∧
        index + frame.bytes.length ≤ journal.length ∧
          index + frame.head.length + frame.payload.length = index + frame.bytes.length := by
  obtain ⟨htext, htail⟩ := h
  rw [flatMap_cons, append_assoc] at htext
  have hrest : journal.drop (index + frame.bytes.length) = frames.flatMap bytes ++ tail := by
    rw [← drop_drop, htext, drop_left]
  have hlength := length_of_drop hindex htext
  rw [length_append] at hlength
  refine ⟨by rw [hrest, htext], ⟨hrest, htail⟩, by omega, ?_⟩
  rw [Frame.length_bytes]
  omega

theorem Splits.parsed_frame (hdata : journal.length < 2 ^ 64) (hindex : index ≤ journal.length)
    (h : Splits (journal.drop index) (frame :: frames) tail)
    (hparsed : parsed.toOption = frameAt journal index) :
    parsed = .frame (index + frame.head.length) frame.payload.length := by
  have hframe : FrameAt journal index (index + frame.head.length) frame.payload.length :=
    ⟨frame, _, (h.step hindex).1, rfl, rfl⟩
  rw [(frameAt_eq_some hdata).mpr hframe] at hparsed
  cases parsed with
  | frame =>
      obtain ⟨rfl, rfl⟩ := Prod.mk.inj (Option.some.inj hparsed)
      rfl
  | badDigit | stop => exact absurd hparsed (by simp [Parsed.toOption])

theorem Splits.parsed_tail (hdata : journal.length < 2 ^ 64)
    (h : Splits (journal.drop index) [] tail)
    (hparsed : parsed.toOption = frameAt journal index) : parsed = .badDigit ∨ parsed = .stop := by
  cases parsed with
  | badDigit => exact .inl rfl
  | stop => exact .inr rfl
  | frame =>
      exfalso
      obtain ⟨frame, rest, hdrop, -⟩ := (frameAt_eq_some hdata).mp hparsed.symm
      obtain ⟨htext, htail⟩ := h
      rw [flatMap_nil, nil_append] at htext
      exact htail frame ⟨rest, by rw [← hdrop, htext]⟩

theorem Splits.index_lt (h : Splits (journal.drop index) (frame :: frames) tail)
    (hindex : index ≤ journal.length) : index < journal.length := by
  have hpos := length_pos_iff.mpr frame.bytes_ne
  have hle := (h.step hindex).2.2.1
  omega

/-- A loop that passes a frame in each round comes to the tail. -/
theorem loop_frames {S β : Type} {step : S → Option (S ⊕ β)} (position : S → ℕ)
    (next : S → Frame → S) (out : S → β)
    (hnext : ∀ s frame frames, position s ≤ journal.length →
      Splits (journal.drop (position s)) (frame :: frames) tail →
        step s = some (.inl (next s frame)) ∧
          position (next s frame) = position s + frame.bytes.length)
    (hout : ∀ s, position s ≤ journal.length → Splits (journal.drop (position s)) [] tail →
      step s = some (.inr (out s)))
    (s : S) (hs : position s ≤ journal.length) (h : Splits (journal.drop (position s)) frames tail)
    (hfuel : journal.length < position s + fuel) :
    loop step fuel s = some (out (frames.foldl next s)) := by
  obtain ⟨fuel, rfl⟩ := Nat.exists_eq_succ_of_ne_zero (by omega : fuel ≠ 0)
  induction frames generalizing s fuel with
  | nil => exact loop_done (hout s hs h) fuel
  | cons frame frames ih =>
      have hpos := length_pos_iff.mpr frame.bytes_ne
      obtain ⟨-, hrest, hle, -⟩ := h.step hs
      obtain ⟨hstep, hposition⟩ := hnext s frame frames hs h
      rw [← hposition] at hrest hle
      obtain ⟨fuel, rfl⟩ := Nat.exists_eq_succ_of_ne_zero (by omega : fuel ≠ 0)
      rw [loop_next hstep, ih (next s frame) hle hrest fuel (by omega), foldl_cons]

/-! ## Counting -/

theorem countStep_frame (hdata : journal.length < 2 ^ 64) {s : ℕ × ℕ} (hs : s.1 ≤ journal.length)
    (h : Splits (journal.drop s.1) (frame :: frames) tail) :
    countStep journal s = some (.inl (s.1 + frame.bytes.length, s.2 + 1)) := by
  obtain ⟨parsed, hparse, hparsed⟩ := parseFrame_eq hdata hs
  obtain rfl := h.parsed_frame hdata hs hparsed
  obtain ⟨-, -, hle, hnext⟩ := h.step hs
  have hlt := h.index_lt hs
  unfold countStep
  simp only [hlt, hparse, if_true, bind_eq_bind, bind_some]
  rw [add_eq (by omega), hnext]
  rfl

theorem countStep_tail (hdata : journal.length < 2 ^ 64) {s : ℕ × ℕ} (hs : s.1 ≤ journal.length)
    (h : Splits (journal.drop s.1) [] tail) : countStep journal s = some (.inr s.2) := by
  obtain ⟨parsed, hparse, hparsed⟩ := parseFrame_eq hdata hs
  unfold countStep
  split
  · rcases h.parsed_tail hdata hparsed with rfl | rfl <;> simp [hparse]
  · rfl

theorem foldl_count (frames : List Frame) (s : ℕ × ℕ) :
    (frames.foldl (fun s frame => (s.1 + frame.bytes.length, s.2 + 1)) s).2 =
      s.2 + frames.length := by
  induction frames generalizing s with
  | nil => rfl
  | cons frame frames ih =>
      rw [foldl_cons, ih, length_cons]
      omega

theorem loop_countStep (hdata : journal.length < 2 ^ 64) (h : Splits journal frames tail) :
    loop (countStep journal) (journal.length + 1) (0, 0) = some frames.length := by
  rw [loop_frames Prod.fst (fun s frame => (s.1 + frame.bytes.length, s.2 + 1)) Prod.snd
    (fun s frame frames hs h => ⟨countStep_frame hdata hs h, rfl⟩)
    (fun s hs h => countStep_tail hdata hs h) (0, 0) (Nat.zero_le _) h (by simp), foldl_count]
  simp

/-! ## Reading -/

/-- The reading scanner passes the frames before the one that it reads. -/
theorem loop_readStep (hdata : journal.length < 2 ^ 64) (hindex : index ≤ journal.length)
    (h : Splits (journal.drop index) frames tail) (hfuel : journal.length < index + fuel)
    (outputLength k current : ℕ) :
    loop (readStep journal (current + k) outputLength) fuel (index, current) =
      some (match frames[k]? with
        | none => { returned := false }
        | some frame =>
            frame.read (index + ((frames.take k).flatMap bytes).length) outputLength) := by
  obtain ⟨parsed, hparse, hparsed⟩ := parseFrame_eq hdata hindex
  obtain ⟨fuel, rfl⟩ := Nat.exists_eq_succ_of_ne_zero (by omega : fuel ≠ 0)
  -- induction on the frames; each round passes one, until the counter is met
  induction frames generalizing index k current parsed fuel with
  | nil =>
      apply loop_done
      unfold readStep
      split
      · rcases h.parsed_tail hdata hparsed with rfl | rfl <;> simp [hparse]
      · rfl
  | cons frame frames ih =>
      have hlt := h.index_lt hindex
      have hpos := length_pos_iff.mpr frame.bytes_ne
      obtain rfl := h.parsed_frame hdata hindex hparsed
      obtain ⟨hdrop, hrest, hle, hnext⟩ := h.step hindex
      cases k with
      | zero =>
          apply loop_done
          -- the frame asked for: its payload is copied if the output has the room
          have hpayload : journal.drop (index + frame.head.length) =
              frame.payload ++ journal.drop (index + frame.bytes.length) := by
            rw [← drop_drop, hdrop, bytes, append_assoc, drop_left]
          unfold readStep
          simp only [hlt, hparse, if_true, bind_eq_bind, bind_some]
          rw [add_eq (by omega), hnext, bind_some, if_pos (Nat.add_zero current).symm,
            sub_eq (by omega), bind_some, Nat.add_sub_cancel_left,
            copy_eq (by omega), slice_of_drop hpayload]
          simp only [Frame.read, getElem?_cons_zero, take_zero, flatMap_nil,
            length_nil, Nat.add_zero, bind_some]
          split
          · rfl
          split <;> rfl
      | succ k =>
          have hstep : readStep journal (current + (k + 1)) outputLength (index, current) =
              some (.inl (index + frame.bytes.length, current + 1)) := by
            unfold readStep
            simp only [hlt, hparse, if_true, bind_eq_bind, bind_some]
            rw [add_eq (by omega), hnext, bind_some, if_neg (by omega)]
          obtain ⟨parsed, hparse', hparsed'⟩ := parseFrame_eq hdata hle
          obtain ⟨fuel, rfl⟩ := Nat.exists_eq_succ_of_ne_zero (by omega : fuel ≠ 0)
          have hrun := ih hle hrest k (current + 1) parsed hparse' hparsed' fuel (by omega)
          have hk : current + 1 + k = current + (k + 1) := by omega
          rw [hk] at hrun
          rw [loop_next hstep, hrun, getElem?_cons_succ, take_succ_cons,
            flatMap_cons, length_append, Nat.add_assoc]

/-! ## Recovering -/

theorem recoverStep_frame (hdata : journal.length < 2 ^ 64) {s : ℕ × Option (ℕ × ℕ)}
    (hs : s.1 ≤ journal.length) (h : Splits (journal.drop s.1) (frame :: frames) tail) :
    recoverStep journal s = some (.inl (s.1 + frame.bytes.length,
      some (s.1 + frame.head.length, frame.payload.length))) := by
  obtain ⟨parsed, hparse, hparsed⟩ := recoverFrame_eq hdata hs
  obtain rfl := h.parsed_frame hdata hs hparsed
  obtain ⟨-, -, hle, hnext⟩ := h.step hs
  have hlt := h.index_lt hs
  unfold recoverStep
  simp only [hlt, hparse, if_true, bind_eq_bind, bind_some]
  rw [add_eq (by omega), hnext]
  rfl

theorem recoverStep_tail (hdata : journal.length < 2 ^ 64) {s : ℕ × Option (ℕ × ℕ)}
    (hs : s.1 ≤ journal.length) (h : Splits (journal.drop s.1) [] tail) :
    recoverStep journal s = some (.inr s.2) := by
  obtain ⟨parsed, hparse, hparsed⟩ := recoverFrame_eq hdata hs
  unfold recoverStep
  split
  · rcases h.parsed_tail hdata hparsed with rfl | rfl <;> simp [hparse]
  · rfl

/-- Where the latest payload is after some frames. -/
def latest (s : ℕ × Option (ℕ × ℕ)) (frame : Frame) : ℕ × Option (ℕ × ℕ) :=
  (s.1 + frame.bytes.length, some (s.1 + frame.head.length, frame.payload.length))

theorem foldl_latest_fst (frames : List Frame) (s : ℕ × Option (ℕ × ℕ)) :
    (frames.foldl latest s).1 = s.1 + (frames.flatMap bytes).length := by
  induction frames generalizing s with
  | nil => rfl
  | cons frame frames ih =>
      rw [foldl_cons, ih, flatMap_cons, length_append, latest]
      simp only
      omega

/-- The latest payload is the one of the last frame. -/
theorem loop_recoverStep (hdata : journal.length < 2 ^ 64) (h : Splits journal frames tail) :
    ∃ found, loop (recoverStep journal) (journal.length + 1) (0, none) = some found ∧
      (found.bind fun found => copy journal found.1 found.2) =
        frames.getLast?.map payload ∧ (found = none ↔ frames = []) := by
  refine ⟨(frames.foldl latest (0, none)).2, ?_, ?_, ?_⟩
  · exact loop_frames Prod.fst latest Prod.snd
      (fun s frame frames hs h => ⟨recoverStep_frame hdata hs h, rfl⟩)
      (fun s hs h => recoverStep_tail hdata hs h) (0, none) (Nat.zero_le _) h (by simp)
  · rcases eq_nil_or_concat' frames with rfl | ⟨init, last, rfl⟩
    · rfl
    · rw [foldl_append, foldl_cons, foldl_nil, getLast?_append]
      simp only [latest, foldl_latest_fst, bind_some, getLast?_singleton,
        some_or, map_some, Nat.zero_add]
      obtain ⟨rfl, -⟩ := h
      have hsplit : init.flatMap bytes ++ last.head ++ (last.payload ++ tail) =
          (init ++ [last]).flatMap bytes ++ tail := by
        simp [bytes]
      rw [← hsplit, ← length_append, copy_eq (by simp; omega),
        slice_of_drop drop_left]
  · rcases eq_nil_or_concat' frames with rfl | ⟨init, last, rfl⟩
    · simp
    · rw [foldl_append]
      simp [latest]

/-! ## Retaining -/

/-- The state of the retaining scanner after one more frame. -/
def retain (framesToSkip : ℕ) (s : Retained) (frame : Frame) : Retained where
  index := s.index + frame.bytes.length
  frameIndex := s.frameIndex + 1
  retainedStart := if s.frameIndex = framesToSkip then s.index else s.retainedStart
  retainedEnd := s.index + frame.bytes.length

theorem retainStep_frame (hdata : journal.length < 2 ^ 64) (framesToSkip : ℕ) {s : Retained}
    (hs : s.index ≤ journal.length) (h : Splits (journal.drop s.index) (frame :: frames) tail) :
    retainStep journal framesToSkip s = some (.inl (retain framesToSkip s frame)) := by
  obtain ⟨parsed, hparse, hparsed⟩ := retainFrame_eq hdata hs
  obtain rfl := h.parsed_frame hdata hs hparsed
  obtain ⟨-, -, hle, hnext⟩ := h.step hs
  have hlt := h.index_lt hs
  unfold retainStep
  simp only [hlt, hparse, if_true, bind_eq_bind, bind_some]
  rw [add_eq (by omega), hnext]
  rfl

theorem retainStep_tail (hdata : journal.length < 2 ^ 64) (framesToSkip : ℕ) {s : Retained}
    (hs : s.index ≤ journal.length) (h : Splits (journal.drop s.index) [] tail) :
    retainStep journal framesToSkip s = some (.inr s) := by
  obtain ⟨parsed, hparse, hparsed⟩ := retainFrame_eq hdata hs
  unfold retainStep
  split
  · rcases h.parsed_tail hdata hparsed with rfl | rfl <;> simp [hparse]
  · rfl

/-- After some frames: how many, where they end, and where the first that is kept begins. -/
theorem foldl_retain (framesToSkip : ℕ) (frames : List Frame) (s : Retained)
    (hend : s.retainedEnd = s.index) :
    (frames.foldl (retain framesToSkip) s).frameIndex = s.frameIndex + frames.length ∧
      (frames.foldl (retain framesToSkip) s).retainedEnd =
        s.index + (frames.flatMap bytes).length ∧
      (s.frameIndex ≤ framesToSkip → framesToSkip < s.frameIndex + frames.length →
        (frames.foldl (retain framesToSkip) s).retainedStart = s.index +
          ((frames.take (framesToSkip - s.frameIndex)).flatMap bytes).length) ∧
      (framesToSkip < s.frameIndex →
        (frames.foldl (retain framesToSkip) s).retainedStart = s.retainedStart) := by
  induction frames generalizing s with
  | nil => exact ⟨rfl, hend, fun _ _ => by simp at *; omega, fun _ => rfl⟩
  | cons frame frames ih =>
      obtain ⟨hcount, hstop, hstart, hkept⟩ := ih (retain framesToSkip s frame) rfl
      simp only [retain] at hcount hstop hstart hkept
      rw [foldl_cons]
      refine ⟨?_, ?_, fun hle hlt => ?_, fun hlt => ?_⟩
      · rw [length_cons]
        exact hcount.trans (by omega)
      · rw [flatMap_cons, length_append]
        exact hstop.trans (by omega)
      · rw [length_cons] at hlt
        rcases Nat.eq_or_lt_of_le hle with heq | hless
        · -- this frame is the first that is kept
          have hstart := hkept (by omega)
          rw [if_pos heq] at hstart
          rw [← heq, Nat.sub_self]
          simpa [heq, retain] using hstart
        · have hrest := hstart (by omega) (by omega)
          have hskip : framesToSkip - s.frameIndex = framesToSkip - (s.frameIndex + 1) + 1 := by
            omega
          rw [hskip, take_succ_cons, flatMap_cons, length_append, ← Nat.add_assoc]
          exact hrest
      · have hne : s.frameIndex ≠ framesToSkip := by omega
        have hrest := hkept (by omega)
        rw [if_neg hne] at hrest
        simpa [retain, hne] using hrest

/-- The retaining scanner finds where the frames to keep begin and end. -/
theorem loop_retainStep (hdata : journal.length < 2 ^ 64) (h : Splits journal frames tail)
    {framesToSkip : ℕ} (hskip : framesToSkip < frames.length) :
    ∃ s, loop (retainStep journal framesToSkip) (journal.length + 1) ⟨0, 0, 0, 0⟩ = some s ∧
      s.frameIndex = frames.length ∧ s.retainedStart < s.retainedEnd ∧
        s.retainedEnd ≤ journal.length ∧
          slice journal s.retainedStart (s.retainedEnd - s.retainedStart) =
            (frames.drop framesToSkip).flatMap bytes := by
  obtain ⟨hcount, hend, hstart, -⟩ := foldl_retain framesToSkip frames ⟨0, 0, 0, 0⟩ rfl
  have hstart := hstart (Nat.zero_le _) (by simpa using hskip)
  simp only [Nat.zero_add, Nat.sub_zero] at hcount hend hstart
  refine ⟨_, loop_frames Retained.index (retain framesToSkip) id
    (fun s frame frames hs h => ⟨retainStep_frame hdata framesToSkip hs h, rfl⟩)
    (fun s hs h => retainStep_tail hdata framesToSkip hs h) ⟨0, 0, 0, 0⟩ (Nat.zero_le _) h
    (by simp), ?_⟩
  simp only [id]
  have hsplit : frames.flatMap bytes = (frames.take framesToSkip).flatMap bytes ++
      (frames.drop framesToSkip).flatMap bytes := by
    rw [← flatMap_append, take_append_drop]
  have hlength := congrArg length hsplit
  rw [length_append] at hlength
  have hpos : 0 < ((frames.drop framesToSkip).flatMap bytes).length := by
    rw [drop_eq_getElem_cons hskip, flatMap_cons, length_append]
    have hframe := length_pos_iff.mpr (frames.get ⟨framesToSkip, hskip⟩).bytes_ne
    exact Nat.lt_of_lt_of_le hframe (Nat.le_add_right _ _)
  obtain ⟨rfl, -⟩ := h
  refine ⟨hcount, by omega, by rw [hend]; simp, ?_⟩
  have hsize : (frames.foldl (retain framesToSkip) ⟨0, 0, 0, 0⟩).retainedEnd -
      (frames.foldl (retain framesToSkip) ⟨0, 0, 0, 0⟩).retainedStart =
        ((frames.drop framesToSkip).flatMap bytes).length := by omega
  rw [hsize, hstart]
  have hdrop : (frames.flatMap bytes ++ tail).drop
      ((frames.take framesToSkip).flatMap bytes).length =
        (frames.drop framesToSkip).flatMap bytes ++ tail := by
    rw [hsplit, append_assoc, drop_left]
  exact slice_of_drop hdrop

end Scans

end Jadren.Journal

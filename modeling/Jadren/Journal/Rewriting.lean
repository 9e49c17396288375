import Jadren.Journal.Scanners

/-!
# Appending to a journal, recovering from it and rewriting it

The document of the model and its parser are parameters: `save` builds the document, which can
fail, and `load` parses one into the model, which changes nothing if it fails.
-/

namespace Jadren.Journal

open Http (Bytes)
open Checked

/-! ## Retaining -/

/-- The parser of the function that retains frames: a bad digit moves the index to the end. -/
def retainFrame (journal : Bytes) (index : ℕ) : Option Parsed := do
  match ← markerAt journal index with
  | none => some .stop
  | some hasChecksum =>
    let digitsStart ← add index markerV2.length
    let (lineEnd, parsedLength) := (← digitsAt journal digitsStart).getD (journal.length, 0)
    if lineEnd = journal.length ∨ lineEnd = digitsStart ∨ parsedLength = 0 then some .stop
    else
      let index ← add lineEnd 1
      if !hasChecksum then payloadAt journal index parsedLength none
      else
        let (lineEnd, parsedChecksum) := (← digitsAt journal index).getD (journal.length, 0)
        if lineEnd = journal.length ∨ lineEnd = index then some .stop
        else
          let next ← add lineEnd 1
          payloadAt journal next parsedLength (some parsedChecksum)

structure Retained where
  index : ℕ
  frameIndex : ℕ
  retainedStart : ℕ
  retainedEnd : ℕ

def retainStep (journal : Bytes) (framesToSkip : ℕ) (s : Retained) : Option (Retained ⊕ Retained) :=
  if s.index < journal.length then do
    match ← retainFrame journal s.index with
    | .badDigit => some (.inr s)
    | .stop => some (.inr s)
    | .frame payloadStart payloadLength =>
      let next ← add payloadStart payloadLength
      some (.inl
        { index := next
          frameIndex := s.frameIndex + 1
          retainedStart := if s.frameIndex = framesToSkip then s.index else s.retainedStart
          retainedEnd := next })
  else some (.inr s)

/-- The journal is written anew from the frame after the ones to skip. -/
def retainFrames (files : Files) (journalPath temporaryPath : Path) (frameCount maxFrames : ℕ) :
    Option (Bool × Files) :=
  match readJournal files journalPath with
  | none => some (false, files)
  | some journal => do
    let framesToSkip ← sub frameCount maxFrames
    let s ← loop (retainStep journal framesToSkip) (journal.length + 1) ⟨0, 0, 0, 0⟩
    if s.frameIndex ≠ frameCount ∨ s.retainedStart ≥ s.retainedEnd then some (false, files)
    else
      let length ← sub s.retainedEnd s.retainedStart
      let retained ← copy journal s.retainedStart length
      match files.fileWrite temporaryPath retained with
      | none => some (false, files)
      | some files =>
        if !files.fileFlush temporaryPath then some (false, files)
        else
          match files.fileReplaceAtomic temporaryPath journalPath with
          | none => some (false, files)
          | some files =>
            if !files.fileFlush journalPath then some (false, files)
            else
              let count ← validFrameCount files journalPath
              some (!decide (count > maxFrames), files)

def retainLastDurable (files : Files) (journalPath scratchPath temporaryPath lockPath : Path)
    (maxFrames : ℕ) : Option (Bool × Files) :=
  if journalPath = [] ∨ temporaryPath = [] ∨ lockPath = [] ∨ maxFrames = 0 then some (false, files)
  else if journalPath = temporaryPath ∨ scratchPath = temporaryPath then some (false, files)
  else
    match files.fileLock lockPath with
    | none => some (false, files)
    | some files => do
      let frameCount ← validFrameCount files journalPath
      let (compacted, files) ←
        if frameCount > maxFrames then
          retainFrames files journalPath temporaryPath frameCount maxFrames
        else some (true, files)
      some (compacted, files.fileUnlock lockPath)

/-! ## Recovering -/

/-- The parser of the function that recovers: it looks for the payload before the checksum. -/
def recoverFrame (journal : Bytes) (index : ℕ) : Option Parsed := do
  match ← markerAt journal index with
  | none => some .stop
  | some hasChecksum =>
    let digitsStart ← add index markerV2.length
    match ← digitsAt journal digitsStart with
    | none => some .badDigit
    | some (lineEnd, parsedLength) =>
      if lineEnd = digitsStart ∨ lineEnd ≥ journal.length ∨ parsedLength = 0 then some .stop
      else
        let behindLine ← sub journal.length lineEnd
        let behind ← sub behindLine 1
        if parsedLength > behind then some .stop
        else
          let index ← add lineEnd 1
          if !hasChecksum then some (.frame index parsedLength)
          else
            let (lineEnd, parsedChecksum) := (← digitsAt journal index).getD (journal.length, 0)
            let last ← sub journal.length 1
            if lineEnd = journal.length ∨ lineEnd = index ∨ lineEnd ≥ last then some .stop
            else
              let next ← add lineEnd 1
              payloadAt journal next parsedLength (some parsedChecksum)

/-- The state is the index and where the latest payload is. -/
def recoverStep (journal : Bytes) (s : ℕ × Option (ℕ × ℕ)) :
    Option ((ℕ × Option (ℕ × ℕ)) ⊕ Option (ℕ × ℕ)) :=
  if s.1 < journal.length then do
    match ← recoverFrame journal s.1 with
    | .badDigit => some (.inr s.2)
    | .stop => some (.inr s.2)
    | .frame payloadStart payloadLength =>
      let next ← add payloadStart payloadLength
      some (.inl (next, some (payloadStart, payloadLength)))
  else some (.inr s.2)

structure World (Model : Type*) where
  files : Files
  model : Model

section Data

variable {Model : Type*} (save : Model → Option Bytes) (load : Bytes → Model → Option Model)

/-- The file is written with the document of the model. -/
def dataSave (world : World Model) (path : Path) : Option (World Model) :=
  (save world.model).bind fun document =>
    (world.files.fileWrite path document).map fun files => { world with files }

def dataLoad (world : World Model) (path : Path) : Option (World Model) :=
  if world.files.fileSize path > dataDocumentMax then none
  else
    (load (world.files.fileRead path dataDocumentMax) world.model).map fun model =>
      { world with model }

/-- The payload is written to the scratch file and loaded from there. -/
def restore (world : World Model) (scratchPath : Path) (payload : Bytes) : Bool × World Model :=
  match world.files.fileWrite scratchPath payload with
  | none => (false, world)
  | some files =>
    match dataLoad load { world with files } scratchPath with
    | none => (false, { world with files })
    | some world => (true, world)

/-- The latest payload is restored, if there is one. -/
def recover (world : World Model) (journalPath scratchPath : Path) :
    Option (Bool × World Model) :=
  match readJournal world.files journalPath with
  | none => some (false, world)
  | some journal =>
    (loop (recoverStep journal) (journal.length + 1) (0, none)).bind fun latest =>
      match latest with
      | none => some (false, world)
      | some (payloadStart, payloadLength) =>
        (copy journal payloadStart payloadLength).map (restore load world scratchPath)

end Data

end Jadren.Journal

import Jadren.Journal.Files
import Jadren.Library.Checked

/-!
# The scanners of a journal

A frame is a marker, the length of its payload in decimal, in frames of version 0.2 a checksum in
decimal, each followed by a line feed, and the payload.  The frames are scanned by four functions,
each with its own text of the same parser.  All reads and all arithmetic are checked.
-/

namespace Jadren.Journal

open Http (Bytes maxLength)
open Checked

/-- `JADREN-APP-JOURNAL-0.1` and a line feed. -/
def markerV1 : Bytes :=
  [74, 65, 68, 82, 69, 78, 45, 65, 80, 80, 45, 74, 79, 85, 82, 78, 65, 76, 45, 48, 46, 49, 10]

/-- `JADREN-APP-JOURNAL-0.2` and a line feed. -/
def markerV2 : Bytes :=
  [74, 65, 68, 82, 69, 78, 45, 65, 80, 80, 45, 74, 79, 85, 82, 78, 65, 76, 45, 48, 46, 50, 10]

def dataDocumentMax : ℕ := 4194304

def journalDocumentMax : ℕ := dataDocumentMax * 4

def checksumStep (hash : UInt64) (byte : UInt8) : UInt64 :=
  (hash ^^^ byte.toUInt64) * 1099511628211

def checksumStart : UInt64 := 1469598103934665603

/-- The checksum of a range of the journal. -/
def journalChecksum (journal : Bytes) : ℕ → ℕ → UInt64 → Option UInt64
  | _, 0, hash => some hash
  | index, length + 1, hash => do
    let byte ← load journal index
    journalChecksum journal (index + 1) length (checksumStep hash byte)

/-! ## Parts of a frame -/

def matchesAt (journal : Bytes) : ℕ → Bytes → Option Bool
  | _, [] => some true
  | index, c :: marker => do
    let byte ← load journal index
    if byte = c then matchesAt journal (index + 1) marker else some false

def hasMarker (journal : Bytes) (index : ℕ) (marker : Bytes) : Option Bool := do
  let remaining ← sub journal.length index
  if marker.length ≤ remaining then matchesAt journal index marker else some false

/-- The marker at the index: whether the frame has a checksum. -/
def markerAt (journal : Bytes) (index : ℕ) : Option (Option Bool) := do
  let isV2 ← hasMarker journal index markerV2
  if isV2 then some (some true)
  else
    let isV1 ← hasMarker journal index markerV1
    some (if isV1 then some false else none)

/-- One digit: the state is the index and the number so far.  The loop ends with nothing at a byte
that is not a digit or makes the number too large. -/
def digitStep (journal : Bytes) (s : ℕ × ℕ) : Option ((ℕ × ℕ) ⊕ Option (ℕ × ℕ)) :=
  if s.1 < journal.length then do
    let byte ← load journal s.1
    if byte = 10 then some (.inr (some s))
    else
      match Digits.decimal byte with
      | none => some (.inr none)
      | some digit =>
        if s.2 > (maxLength - digit) / 10 then some (.inr none)
        else do
          let tens ← mul s.2 10
          let value ← add tens digit
          let index ← add s.1 1
          some (.inl (index, value))
  else some (.inr (some s))

/-- The digits from the index on, up to a line feed or the end of the journal. -/
def digitsAt (journal : Bytes) (index : ℕ) : Option (Option (ℕ × ℕ)) :=
  loop (digitStep journal) (journal.length + 1) (index, 0)

/-- How a scanner goes on at an index: with the payload of a frame, or it leaves its loop, which
it does in another place after a bad digit. -/
inductive Parsed
  | badDigit
  | stop
  | frame (payloadStart payloadLength : ℕ)
  deriving DecidableEq

inductive NumberLine
  | badDigit
  | stop
  | number (index value : ℕ)
  deriving DecidableEq

/-- A line with a number, and the index after it. -/
def numberLine (journal : Bytes) (index : ℕ) : Option NumberLine := do
  match ← digitsAt journal index with
  | none => some .badDigit
  | some (lineEnd, value) =>
    if lineEnd = index ∨ lineEnd ≥ journal.length then some .stop
    else
      let next ← add lineEnd 1
      some (.number next value)

/-- The payload, if it is all there and has the checksum. -/
def payloadAt (journal : Bytes) (index length : ℕ) (checksum : Option ℕ) : Option Parsed := do
  let remaining ← sub journal.length index
  if length > remaining then some .stop
  else
    match checksum with
    | none => some (.frame index length)
    | some parsedChecksum =>
      let hash ← journalChecksum journal index length checksumStart
      some (if hash.toNat ≠ parsedChecksum then .stop else .frame index length)

/-! ## Counting and reading -/

/-- The parser of the counting and of the reading scanner. -/
def parseFrame (journal : Bytes) (index : ℕ) : Option Parsed := do
  match ← markerAt journal index with
  | none => some .stop
  | some hasChecksum =>
    let index ← add index markerV2.length
    match ← numberLine journal index with
    | .badDigit => some .badDigit
    | .stop => some .stop
    | .number index parsedLength =>
      if parsedLength = 0 then some .stop
      else if !hasChecksum then payloadAt journal index parsedLength none
      else
        match ← numberLine journal index with
        | .badDigit => some .badDigit
        | .stop => some .stop
        | .number index parsedChecksum => payloadAt journal index parsedLength (some parsedChecksum)

/-- The bytes of a journal that is not empty and not too long. -/
def readJournal (files : Files) (path : Path) : Option Bytes :=
  let length := files.fileSize path
  if length = 0 ∨ length > journalDocumentMax then none
  else
    let journal := files.fileRead path length
    if journal.length = length then some journal else none

/-- The state is the index and the number of frames before it. -/
def countStep (journal : Bytes) (s : ℕ × ℕ) : Option ((ℕ × ℕ) ⊕ ℕ) :=
  if s.1 < journal.length then do
    match ← parseFrame journal s.1 with
    | .badDigit => some (.inr s.2)
    | .stop => some (.inr s.2)
    | .frame payloadStart payloadLength =>
      let next ← add payloadStart payloadLength
      some (.inl (next, s.2 + 1))
  else some (.inr s.2)

def validFrameCount (files : Files) (path : Path) : Option ℕ :=
  match readJournal files path with
  | none => some 0
  | some journal => loop (countStep journal) (journal.length + 1) (0, 0)

/-- What a call to read a frame has written: its result, the output, the length of the payload,
and the offset and the size of the frame. -/
structure FrameRead where
  returned : Bool
  output : Option Bytes := none
  written : Option ℕ := none
  span : Option (ℕ × ℕ) := none
  deriving DecidableEq

/-- The state is the index and the number of frames before it; there is no output if its length
is zero. -/
def readStep (journal : Bytes) (frameIndex outputLength : ℕ) (s : ℕ × ℕ) :
    Option ((ℕ × ℕ) ⊕ FrameRead) :=
  if s.1 < journal.length then do
    match ← parseFrame journal s.1 with
    | .badDigit => some (.inr { returned := false })
    | .stop => some (.inr { returned := false })
    | .frame payloadStart payloadLength =>
      let next ← add payloadStart payloadLength
      if s.2 = frameIndex then
        let total ← sub next s.1
        let span := some (s.1, total)
        if outputLength = 0 then
          some (.inr { returned := true, written := some payloadLength, span })
        else if payloadLength > outputLength then some (.inr { returned := false, span })
        else
          let output ← copy journal payloadStart payloadLength
          some (.inr { returned := true, output, written := some payloadLength, span })
      else some (.inl (next, s.2 + 1))
  else some (.inr { returned := false })

def readFrameExact (files : Files) (path : Path) (frameIndex outputLength : ℕ) :
    Option FrameRead :=
  match readJournal files path with
  | none => some { returned := false }
  | some journal =>
    loop (readStep journal frameIndex outputLength) (journal.length + 1) (0, 0)

end Jadren.Journal

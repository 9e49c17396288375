import Jadren.App.Numbers
import Jadren.App.Transactions

/-!
# The state of an application

The state has 32 slots for entries, each of which has a key and a value of one of five kinds.  A
call that writes a value finds the slot of its key, or takes the first that is free: that slot is
then in use, without a kind, until the value is written.

Doubles are kept here as their bits, since calls check them.
-/

namespace Jadren.App

namespace StateStore

def keyMax : ℕ := 64

def textMax : ℕ := 256

/-- The kinds of values. -/
def kindInt : ℕ := 1

def kindUint : ℕ := 2

def kindBool : ℕ := 3

def kindText : ℕ := 4

def kindFloat : ℕ := 5

structure Entry where
  used : Bool
  kind : ℕ
  key : Text
  intValue : Int64
  uintValue : UInt64
  boolValue : Bool
  floatValue : Double
  text : Text

abbrev Slot := Fin stateMaxEntries

abbrev Entries := Slot → Entry

structure Store where
  entries : Entries
  backup : Entries
  transactionActive : Bool
  dataTransactionActive : Bool
  revision : ℕ

/-- A call returns whether it succeeded. -/
abbrev StoreCall := Store → Bool × Store

def bumpRevision (s : Store) : Store :=
  if s.revision ≠ 2 ^ 64 - 1 then { s with revision := s.revision + 1 } else s

def keyIsSafe (key : Text) : Bool :=
  !key.isEmpty && key.length ≤ keyMax && key.all fun c => !(c < 32 || c == 34 || c == 92)

def slots : List Slot := List.finRange stateMaxEntries

def findIn (entries : Entries) (key : Text) : Option Slot :=
  slots.find? fun slot => (entries slot).used && (entries slot).key == key

/-- The entry of a free slot, for a key: in use, without a kind. -/
def Entry.taken (entry : Entry) (key : Text) : Entry := { entry with used := true, kind := 0, key }

/-- The slot of the key, or the first free one, which is then in use. -/
def slotIn (entries : Entries) (key : Text) : Option (Slot × Entries) :=
  match findIn entries key with
  | some slot => some (slot, entries)
  | none =>
    (slots.find? fun slot => !(entries slot).used).map fun slot =>
      (slot, Function.update entries slot ((entries slot).taken key))

def clearEntry : Entry := ⟨false, 0, [], 0, 0, false, 0, []⟩

def clearEntries : Entries := fun _ => clearEntry

def initial : Store := ⟨clearEntries, clearEntries, false, false, 0⟩

/-! ## Transactions -/

def txBegin : StoreCall := fun s =>
  if s.transactionActive || s.dataTransactionActive then (false, s)
  else (true, { s with backup := s.entries, transactionActive := true })

def txCommit : StoreCall := fun s =>
  if !s.transactionActive then (false, s)
  else (true, { s with backup := clearEntries, transactionActive := false })

def txRollback : StoreCall := fun s =>
  if !s.transactionActive then (false, s)
  else
    (true, bumpRevision
      { s with entries := s.backup, backup := clearEntries, transactionActive := false })

def clear : StoreCall := fun s => (true, bumpRevision { s with entries := clearEntries })

/-! ## Removal -/

/-- The entries behind a slot move up by one, as far as there are any, and the last slot is
cleared. -/
def closeGap (entries : Entries) (slot : ℕ) : Entries :=
  if h : slot + 1 < stateMaxEntries then
    if !(entries ⟨slot + 1, h⟩).used then
      Function.update entries ⟨slot, Nat.lt_of_succ_lt h⟩ clearEntry
    else
      closeGap (Function.update entries ⟨slot, Nat.lt_of_succ_lt h⟩ (entries ⟨slot + 1, h⟩))
        (slot + 1)
  else Function.update entries (Fin.last _) clearEntry
termination_by stateMaxEntries - slot

def remove (key : Text) : StoreCall := fun s =>
  if !keyIsSafe key then (false, s)
  else
    match findIn s.entries key with
    | none => (false, s)
    | some slot => (true, bumpRevision { s with entries := closeGap s.entries slot })

/-- A call that is made only if the revision is the one the caller expects. -/
def ifRevision (expectedRevision : ℕ) (call : StoreCall) : StoreCall := fun s =>
  if s.revision ≠ expectedRevision then (false, s) else call s

def removeIfRevision (key : Text) (expectedRevision : ℕ) : StoreCall :=
  ifRevision expectedRevision (remove key)

/-! ## Values -/

/-- The entry of the key is changed, if there is a slot and the change is accepted. -/
def change (key : Text) (accept : Entry → Option Entry) : StoreCall := fun s =>
  match slotIn s.entries key with
  | none => (false, s)
  | some (slot, entries) =>
    match accept (entries slot) with
    | none => (false, { s with entries })
    | some entry =>
      (true, bumpRevision { s with entries := Function.update entries slot entry })

def setInt (key : Text) (value : Int64) : StoreCall := fun s =>
  if !keyIsSafe key then (false, s)
  else change key (fun entry => some { entry with kind := kindInt, intValue := value }) s

def setIntIfRevision (key : Text) (value : Int64) (expectedRevision : ℕ) : StoreCall :=
  ifRevision expectedRevision (setInt key value)

/-- A value that is there starts the sum; a new entry starts it at zero. -/
def current {α : Type} (kind : ℕ) (zero : α) (value : Entry → α) (entry : Entry) : Option α :=
  if entry.kind = 0 then some zero
  else if entry.kind = kind then some (value entry)
  else none

def addedInt (delta : Int64) (entry : Entry) : Option Entry :=
  (current kindInt 0 Entry.intValue entry).bind fun current =>
    if (0 < delta ∧ Int64.maxValue - delta < current) ∨
        (delta < 0 ∧ current < Int64.minValue - delta) then none
    else some { entry with kind := kindInt, intValue := current + delta }

def addInt (key : Text) (delta : Int64) : StoreCall := fun s =>
  if !keyIsSafe key then (false, s) else change key (addedInt delta) s

def addIntIfRevision (key : Text) (delta : Int64) (expectedRevision : ℕ) : StoreCall :=
  ifRevision expectedRevision (addInt key delta)

def setUint (key : Text) (value : UInt64) : StoreCall := fun s =>
  if !keyIsSafe key then (false, s)
  else change key (fun entry => some { entry with kind := kindUint, uintValue := value }) s

def setUintIfRevision (key : Text) (value : UInt64) (expectedRevision : ℕ) : StoreCall :=
  ifRevision expectedRevision (setUint key value)

def addedUint (delta : UInt64) (entry : Entry) : Option Entry :=
  (current kindUint 0 Entry.uintValue entry).bind fun current =>
    if 0xFFFFFFFFFFFFFFFF - delta < current then none
    else some { entry with kind := kindUint, uintValue := current + delta }

def addUint (key : Text) (delta : UInt64) : StoreCall := fun s =>
  if !keyIsSafe key then (false, s) else change key (addedUint delta) s

def addUintIfRevision (key : Text) (delta : UInt64) (expectedRevision : ℕ) : StoreCall :=
  ifRevision expectedRevision (addUint key delta)

/-- A finite double that has a text. -/
def isStorable (value : Double) : Bool := value.isFinite && (formatFloat value 32).isSome

def setFloat (key : Text) (value : Double) : StoreCall := fun s =>
  if !keyIsSafe key || !isStorable value then (false, s)
  else change key (fun entry => some { entry with kind := kindFloat, floatValue := value }) s

def setFloatIfRevision (key : Text) (value : Double) (expectedRevision : ℕ) : StoreCall :=
  ifRevision expectedRevision (setFloat key value)

def addedFloat (delta : Double) (entry : Entry) : Option Entry :=
  (current kindFloat 0 Entry.floatValue entry).bind fun current =>
    if !isStorable (current.add delta) then none
    else some { entry with kind := kindFloat, floatValue := current.add delta }

def addFloat (key : Text) (delta : Double) : StoreCall := fun s =>
  if !keyIsSafe key || !delta.isFinite then (false, s) else change key (addedFloat delta) s

def addFloatIfRevision (key : Text) (delta : Double) (expectedRevision : ℕ) : StoreCall :=
  ifRevision expectedRevision (addFloat key delta)

def setBool (key : Text) (value : Bool) : StoreCall := fun s =>
  if !keyIsSafe key then (false, s)
  else change key (fun entry => some { entry with kind := kindBool, boolValue := value }) s

def setBoolIfRevision (key : Text) (value : Bool) (expectedRevision : ℕ) : StoreCall :=
  ifRevision expectedRevision (setBool key value)

/-- The text of a value, or `none` for a null pointer with a positive length. -/
abbrev TextValue := Option Text

def setText (key : Text) (value : TextValue) : StoreCall := fun s =>
  match value with
  | none => (false, s)
  | some text =>
    if !keyIsSafe key || textMax < text.length then (false, s)
    else change key (fun entry => some { entry with kind := kindText, text }) s

def setTextIfRevision (key : Text) (value : TextValue) (expectedRevision : ℕ) : StoreCall :=
  ifRevision expectedRevision (setText key value)

/-- The bytes of a buffer, up to a length: nothing is read through a null pointer. -/
def textOfBytes (bytes : Option Text) (length : ℕ) : TextValue :=
  match bytes with
  | none => if 0 < length then none else some []
  | some bytes => some (bytes.take length)

/-- A length above that of the buffer is cut. -/
def setTextBytes (key : Text) (bytes : Option Text) (length : ℕ) : StoreCall :=
  setText key (textOfBytes bytes length)

/-- A length above that of the buffer is refused. -/
def setTextBytesWithin (key : Text) (bytes : Option Text) (length : ℕ) : StoreCall := fun s =>
  if bytes.any fun bytes => bytes.length < length then (false, s)
  else setText key (textOfBytes bytes length) s

def setTextBytesIfRevision (key : Text) (bytes : Option Text) (length expectedRevision : ℕ) :
    StoreCall :=
  ifRevision expectedRevision (setTextBytesWithin key bytes length)

/-- The revision of the whole model, which also covers what is not in the state, is the one the
caller expects. -/
def setTextBytesIfModelRevision (key : Text) (bytes : Option Text)
    (length modelRevision expectedRevision : ℕ) : StoreCall := fun s =>
  if modelRevision ≠ expectedRevision then (false, s) else setTextBytesWithin key bytes length s

end StateStore

end Jadren.App

import Jadren.App.JsonStrings

/-!
# The document of the model

`app_data_save` writes the whole model into one document: a line with the version, the state, the
lists and the tables, each as a segment behind a line with its label and its length.  The segments
are built in buffers of their own, and there is no document if one of them does not fit, if a text
has a character that JSON strings are not written with, or if the state has a number with a
fraction.
-/

namespace Jadren.App

open JsonStrings List

namespace DataDocument

def stateDocumentMax : ℕ := 16384

def listDocumentMax : ℕ := 65536

def tableDocumentMax : ℕ := 524288

def tableFullSchemaDocumentMax : ℕ := 1024

def dataDocumentMax : ℕ := 4194304

def formatInt (value : ℤ) (outputLength : ℕ) : Option Text :=
  let text := if value < 0 then 45 :: decimalDigits value.natAbs else decimalDigits value.natAbs
  if outputLength = 0 ∨ outputLength < text.length then none else some text

/-! ## Parts of documents -/

def succeed : OutputCall := fun out => (true, out)

def fail : OutputCall := fun out => (false, out)

/-- A number that was formatted into a buffer of its own. -/
def appendNumber : Option Text → OutputCall
  | none => fail
  | some text => appendBytes text

/-- All calls one after the other. -/
def appendAll : List OutputCall → OutputCall
  | [] => succeed
  | call :: rest => call.andThen (appendAll rest)

/-- The items with a comma in front of each but the first. -/
def appendItems : Bool → List OutputCall → OutputCall
  | _, [] => succeed
  | first, item :: rest =>
    (if first then succeed else appendByte 44).andThen (item.andThen (appendItems false rest))

/-- What was built in a buffer, if it fits. -/
def built (capacity : ℕ) (call : OutputCall) : Option Text :=
  match call ⟨replicate capacity 0, capacity, 0, length_replicate⟩ with
  | (true, out) => some (out.data.take out.offset)
  | (false, _) => none

/-! ## Segments -/

/-- `true` and `false`. -/
def boolText (value : ℕ) : Text :=
  if value ≠ 0 then [116, 114, 117, 101] else [102, 97, 108, 115, 101]

def appendValue (entry : StateEntry) : OutputCall :=
  if entry.kind = StateStore.kindText then appendJsonString entry.text
  else if entry.kind = StateStore.kindBool then appendBytes (boolText entry.boolValue)
  else if entry.kind = StateStore.kindInt then appendNumber (formatInt entry.intValue 32)
  else if entry.kind = StateStore.kindUint then appendNumber (formatUint entry.uintValue 32)
  else fail

def appendEntry (entry : StateEntry) : OutputCall :=
  appendAll [appendJsonString entry.key, appendByte 58, appendValue entry]

def buildStateDocument (state : Entries) : Option Text :=
  let entries := ((finRange stateMaxEntries).map state).filter fun entry =>
    entry.used && entry.kind != 0
  built stateDocumentMax <|
    appendAll [appendByte 123, appendItems true (entries.map appendEntry), appendByte 125]

def buildListDocument (items : List Text) : Option Text :=
  built listDocumentMax <|
    appendAll [appendByte 91, appendItems true (items.map appendJsonString), appendByte 93]

def appendRow (cells : Column → Text) : OutputCall :=
  appendAll [appendByte 91,
    appendItems true ((finRange tableMaxColumns).map fun column => appendJsonString (cells column)),
    appendByte 93]

def buildTableRowsDocument (t : Table) : Option Text :=
  let rows := (finRange tableMaxRows).take t.rowCount
  built tableDocumentMax <|
    appendAll [appendByte 91, appendItems true (rows.map fun row => appendRow (t.cells row)),
      appendByte 93]

def columnKindNumber : ColumnKind → ℤ
  | .text => 0
  | .int => 1
  | .uint => 2
  | .bool => 3
  | .float => 4

/-- `{"name":`, the name, `,"kind":`, the kind and the closing brace. -/
def appendColumn (name : Text) (kind : ColumnKind) : OutputCall :=
  appendAll [appendBytes [123, 34, 110, 97, 109, 101, 34, 58], appendJsonString name,
    appendBytes [44, 34, 107, 105, 110, 100, 34, 58],
    appendNumber (formatInt (columnKindNumber kind) 16), appendByte 125]

/-- `{"version":`, the version, `,"columns":[`, the columns and `]}`. -/
def buildTableSchemaDocument (t : Table) : Option Text :=
  let columns := (finRange tableMaxColumns).map fun column =>
    appendColumn (t.columnNames column) (t.columnTypes column)
  built tableFullSchemaDocumentMax <|
    appendAll [appendBytes [123, 34, 118, 101, 114, 115, 105, 111, 110, 34, 58],
      appendNumber (formatInt t.schemaVersion 16),
      appendBytes [44, 34, 99, 111, 108, 117, 109, 110, 115, 34, 58, 91],
      appendItems true columns, appendBytes [93, 125]]

/-! ## The whole document -/

def appendUint (value : ℕ) : OutputCall := appendNumber (formatUint value 32)

def appendSegmentHeader (label : Text) (payloadLength : ℕ) : OutputCall :=
  appendAll [appendBytes label, appendByte 58, appendUint payloadLength, appendByte 10]

def appendTableHeader (id : TableId) (schemaLength rowsLength : ℕ) : OutputCall :=
  appendAll [appendBytes [84, 65, 66, 76, 69], appendNumber (formatInt id.val 16), appendByte 58,
    appendUint schemaLength, appendByte 58, appendUint rowsLength, appendByte 10]

/-- A segment behind its header, or nothing if the segment could not be built. -/
def appendSegment (label : Text) : Option Text → OutputCall
  | none => fail
  | some payload => (appendSegmentHeader label payload.length).andThen (appendBytes payload)

def appendTable (id : TableId) (schema rows : Option Text) : OutputCall :=
  match schema, rows with
  | some schema, some rows =>
    appendAll [appendTableHeader id schema.length rows.length, appendBytes schema, appendBytes rows]
  | _, _ => fail

/-- `JADREN-APP-DATA-0.1` and a line feed. -/
def versionLine : Text :=
  [74, 65, 68, 82, 69, 78, 45, 65, 80, 80, 45, 68, 65, 84, 65, 45, 48, 46, 49, 10]

/-- `STATE`. -/
def stateLabel : Text := [83, 84, 65, 84, 69]

/-- `LIST` and the digit of the list. -/
def listLabel (id : Fin listMaxLists) : Text := [76, 73, 83, 84, UInt8.ofNat (48 + id)]

def appendModel (model : Contents) : OutputCall :=
  appendAll [appendBytes versionLine, appendSegment stateLabel (buildStateDocument model.state),
    appendAll ((finRange listMaxLists).map fun id =>
      appendSegment (listLabel id) (buildListDocument (model.lists id))),
    appendAll ((finRange tableMaxTables).map fun id =>
      appendTable id (buildTableSchemaDocument (model.tables id))
        (buildTableRowsDocument (model.tables id)))]

end DataDocument

/-- The document of the model, if there is one. -/
def dataDocument (model : Contents) : Option Text :=
  DataDocument.built DataDocument.dataDocumentMax (DataDocument.appendModel model)

/-! ## What every document begins with -/

namespace DataDocument

/-- A call that succeeds leaves what was in use and adds to it. -/
def Extends (call : OutputCall) : Prop :=
  ∀ ⦃out out'⦄, call out = (true, out') →
    out.data.take out.offset <+: out'.data.take out'.offset

theorem Extends.of_puts {call : OutputCall} {text : Text} (h : Puts call text) : Extends call := by
  intro out out' hcall
  rw [h.take hcall]
  exact prefix_append _ _

theorem extends_succeed : Extends succeed := by
  intro out out' h
  cases h
  exact prefix_rfl

theorem extends_fail : Extends fail := by
  intro out out' h
  cases h

theorem Extends.andThen {first second : OutputCall} (hfirst : Extends first)
    (hsecond : Extends second) : Extends (first.andThen second) := by
  intro out out' h
  obtain ⟨mid, hmid, h⟩ := andThen_eq h
  exact (hfirst hmid).trans (hsecond h)

theorem extends_appendBytes (input : Text) : Extends (appendBytes input) :=
  .of_puts (puts_appendBytes input)

theorem extends_appendNumber (text : Option Text) : Extends (appendNumber text) := by
  cases text with
  | none => exact extends_fail
  | some text => exact extends_appendBytes text

theorem extends_appendAll {calls : List OutputCall} (h : ∀ call ∈ calls, Extends call) :
    Extends (appendAll calls) := by
  induction calls with
  | nil => exact extends_succeed
  | cons call rest ih =>
      exact (h call mem_cons_self).andThen
        (ih fun other hother => h other (mem_cons_of_mem call hother))

theorem extends_appendSegment (label : Text) (payload : Option Text) :
    Extends (appendSegment label payload) := by
  cases payload with
  | none => exact extends_fail
  | some payload =>
      refine (extends_appendAll ?_).andThen (extends_appendBytes payload)
      simp only [forall_mem_cons, not_mem_nil, false_imp_iff, implies_true, and_true]
      exact ⟨extends_appendBytes _, extends_appendBytes _, extends_appendNumber _,
        extends_appendBytes _⟩

theorem extends_appendTable (id : TableId) (schema rows : Option Text) :
    Extends (appendTable id schema rows) := by
  unfold appendTable
  split
  · simp only [appendTableHeader]
    apply extends_appendAll
    simp only [forall_mem_cons, not_mem_nil, false_imp_iff, implies_true, and_true]
    refine ⟨extends_appendAll ?_, extends_appendBytes _, extends_appendBytes _⟩
    simp only [forall_mem_cons, not_mem_nil, false_imp_iff, implies_true, and_true]
    exact ⟨extends_appendBytes _, extends_appendNumber _, extends_appendBytes _,
      extends_appendNumber _, extends_appendBytes _, extends_appendNumber _, extends_appendBytes _⟩
  · exact extends_fail

theorem extends_appendModel (model : Contents) : ∃ rest, Extends rest ∧
    appendModel model = (appendBytes versionLine).andThen rest := by
  refine ⟨_, extends_appendAll ?_, rfl⟩
  simp only [forall_mem_cons, not_mem_nil, false_imp_iff, implies_true, and_true]
  refine ⟨extends_appendSegment _ _, extends_appendAll ?_, extends_appendAll ?_⟩
  · intro call hcall
    obtain ⟨id, -, rfl⟩ := mem_map.mp hcall
    exact extends_appendSegment _ _
  · intro call hcall
    obtain ⟨id, -, rfl⟩ := mem_map.mp hcall
    exact extends_appendTable id _ _

theorem exists_of_built {capacity : ℕ} {call : OutputCall} {text : Text}
    (h : built capacity call = some text) :
    ∃ out out', out.offset = 0 ∧ call out = (true, out') ∧ text = out'.data.take out'.offset := by
  unfold built at h
  split at h
  · next out hcall =>
      cases h
      exact ⟨_, out, rfl, hcall, rfl⟩
  · cases h

end DataDocument

open DataDocument in
/-- Every document begins with the line of the version. -/
theorem startsWith_versionLine {model : Contents} {document : Text}
    (h : dataDocument model = some document) : versionLine <+: document := by
  unfold dataDocument at h
  obtain ⟨out, out', hstart, hcall, rfl⟩ := exists_of_built h
  obtain ⟨rest, hextends, hmodel⟩ := extends_appendModel model
  rw [hmodel] at hcall
  obtain ⟨mid, hversion, hrest⟩ := andThen_eq hcall
  have hline : mid.data.take mid.offset = versionLine := by
    rw [(puts_appendBytes versionLine).take hversion, hstart, take_zero, nil_append]
  rw [← hline]
  exact hextends hrest

end Jadren.App

import Jadren.App.CsvFields
import Jadren.App.DataDocument
import Jadren.App.ModelRevision

/-!
# Lists and tables as comma-separated values

A list is written as records of one field, a table as the record of its column names and one record
for each row.  The exports count the bytes first and write nothing if there is no room for them; the
imports read all records before they change the list or the table.

The text that an export writes is `csvText` (`csvExport_eq`), and the readers of an import, one for
each kind of record, read the parts of this text (`reads_names`, `readItems_eq`, `readRows_eq`).
-/

namespace Jadren.App.Csv

open Program
open DataDocument (listDocumentMax)
open ModelRevision (listMaxItems)

/-- The list of an id, if the id is valid. -/
def listOf (listId : ℤ) : Option (Fin listMaxLists) :=
  if h : 0 ≤ listId ∧ listId < listMaxLists then some ⟨listId.toNat, by omega⟩ else none

def tableCsvInputMax : ℕ := 524288

/-! ## Exports -/

/-- The bytes for a record, on top of those that are required already. -/
def csvRowRequired : ℕ → List Text → Option ℕ
  | required, [] => csvAddSize required 1
  | required, cell :: rest =>
    (csvAddSize required (csvFieldRequired cell)).bind fun required =>
      (csvAddSize required (if rest = [] then 0 else 1)).bind fun required =>
        csvRowRequired required rest

def csvRequired : ℕ → List (List Text) → Option ℕ
  | required, [] => some required
  | required, row :: rows =>
    (csvRowRequired required row).bind fun required => csvRequired required rows

/-- A field in the rest of the output; the call fails if it is not written as it was counted. -/
def csvCellWrite (cell : Text) : WriteCall Unit := do
  let s ← get
  let written ← csvFieldWrite cell (s.output.length - s.written)
  failIf (written ≠ csvFieldRequired cell) ()

def csvRowWrite : List Text → WriteCall Unit
  | [] => put 10
  | cell :: rest => do
    onlyIf (csvFieldRequired cell > 0) (csvCellWrite cell)
    onlyIf (rest ≠ []) (put 44)
    csvRowWrite rest

/-- The number of bytes written, zero if the records are not written, and the output. -/
def csvExport (rows : List (List Text)) (output : Text) : Option (ℕ × Text) :=
  match csvRequired 0 rows with
  | none => some (0, output)
  | some required =>
    if output.length < required then some (0, output)
    else
      (forEach csvRowWrite rows ⟨output, 0⟩).map fun
        | (.ok (), s) => (if s.written = required then s.written else 0, s.output)
        | (.error (), s) => (0, s.output)

def listRows (items : List Text) : List (List Text) := items.map fun item => [item]

def listExportCsv (lists : Lists) (listId : ℤ) (output : Option Text) :
    Option (ℕ × Option Text) :=
  match listOf listId, output with
  | some id, some output =>
    (csvExport (listRows (lists id)) output).map fun (written, output) => (written, some output)
  | _, _ => some (0, output)

/-- The result, the output and the place for the length of the text. -/
def listExportCsvExact (lists : Lists) (listId : ℤ) (output : Option Text) (lengths : List ℕ) :
    Option (Bool × Option Text × List ℕ) :=
  match listOf listId with
  | none => some (false, output, lengths)
  | some id =>
    if lengths = [] then some (false, output, lengths)
    else if lists id = [] then some (true, output, lengths.set 0 0)
    else if output = none then some (false, output, lengths)
    else
      (listExportCsv lists listId output).map fun (written, output) =>
        if written = 0 then (false, output, lengths) else (true, output, lengths.set 0 written)

/-- The last column that is used, behind those that were found before. -/
def lastUsed (last : Option Column) (texts : Column → Text) : Option Column :=
  (List.finRange tableMaxColumns).foldl
    (fun last column => if texts column ≠ [] then some column else last) last

/-- The names of the columns and the rows. -/
def records (t : Table) : List (Column → Text) := t.columnNames :: t.rows.map t.cells

def csvLastColumn (t : Table) : Option Column := (records t).foldl lastUsed none

def csvColumnCount (t : Table) : ℕ := (csvLastColumn t).elim 0 fun column => column + 1

/-- The first cells of a record. -/
def cellsOf (count : ℕ) (texts : Column → Text) : List Text :=
  ((List.finRange tableMaxColumns).take count).map texts

def tableRows (t : Table) : List (List Text) := (records t).map (cellsOf (csvColumnCount t))

def tableExportCsv (tables : Tables) (tableId : ℤ) (output : Option Text) :
    Option (ℕ × Option Text) :=
  match tableOf tableId, output with
  | some id, some output =>
    if (tables id).storeValid = false ∨ csvColumnCount (tables id) = 0 then some (0, some output)
    else
      (csvExport (tableRows (tables id)) output).map fun (written, output) =>
        (written, some output)
  | _, _ => some (0, output)

/-! ## Imports -/

/-- The fields up to the end of the input, each a record of its own. -/
def readItems (input : Text) (room : ℕ) (items : List Text) : ReadCall (List Text) := do
  let offset ← get
  choose (offset < input.length)
    (match room with
    | 0 => fail ()
    | room + 1 => do
      let (delimiter, field) ← csvReadField input
      failIf (delimiter ≠ .row) ()
      readItems input room (items ++ [field]))
    (pure items)

/-- The result and the lists: a list changes only if the whole input was read. -/
def listImportCsv (lists : Lists) (listId : ℤ) (input : Option Text) (inputLength : ℕ) :
    Option (Bool × Lists) :=
  match listOf listId with
  | none => some (false, lists)
  | some id =>
    if (input = none ∧ inputLength > 0) ∨ inputLength > (input.getD []).length ∨
        inputLength > listDocumentMax then some (false, lists)
    else
      (readItems ((input.getD []).take inputLength) listMaxItems [] 0).map fun
        | (.ok items, _) => (true, Function.update lists id items)
        | (.error (), _) => (false, lists)

/-- The names in the first record, behind those that were read before. -/
def readNames (input : Text) : ℕ → List Text → ReadCall (List Text)
  | 0, _ => fail ()
  | room + 1, names => do
    let (delimiter, name) ← csvReadField input
    failIf (columnNameValid name = false) ()
    failIf (name ≠ [] ∧ name ∈ names) ()
    choose (delimiter = .row) (pure (names ++ [name])) (readNames input room (names ++ [name]))

def readCells (input : Text) : ℕ → ReadCall (List Text)
  | 0 => pure []
  | count + 1 => do
    let (delimiter, cell) ← csvReadField input
    failIf (delimiter ≠ if count = 0 then .row else .comma) ()
    let cells ← readCells input count
    pure (cell :: cells)

/-- Rows that fit a table. -/
abbrev Rows := {rows : List (List Text) // rows.length ≤ tableMaxRows}

/-- The rows up to the end of the input, behind those that were read before. -/
def readRows (input : Text) (columnCount : ℕ) (room : ℕ) (rows : List (List Text))
    (h : rows.length + room = tableMaxRows) : ReadCall Rows := do
  let offset ← get
  choose (offset < input.length)
    (match room, h with
    | 0, _ => fail ()
    | room + 1, h => do
      let row ← readCells input columnCount
      readRows input columnCount room (rows ++ [row])
        (by rw [List.length_append, List.length_singleton]; omega))
    (pure ⟨rows, by omega⟩)

/-- The table with the schema of the other and the names and rows that were read. -/
def parsedTable (t : Table) (names : List Text) (rows : Rows) : Table where
  rowCount := rows.1.length
  rowCount_le := rows.2
  schemaVersion := t.schemaVersion
  columnTypes := t.columnTypes
  columnNames column := names.getD column []
  cells row column := (rows.1.getD row []).getD column []

def readTable (input : Text) (t : Table) : ReadCall Table := do
  let names ← readNames input tableMaxColumns []
  let rows ← readRows input names.length tableMaxRows [] (Nat.zero_add _)
  failIf ((parsedTable t names rows).storeValid = false) ()
  pure (parsedTable t names rows)

def tableImportCsv (tables : Tables) (tableId : ℤ) (input : Option Text) (inputLength : ℕ) :
    Option (Bool × Tables) :=
  match tableOf tableId, input with
  | some id, some input =>
    if inputLength = 0 ∨ inputLength > input.length ∨ inputLength > tableCsvInputMax then
      some (false, tables)
    else
      (readTable (input.take inputLength) (tables id) 0).map fun
        | (.ok parsed, _) => (true, Function.update tables id parsed)
        | (.error (), _) => (false, tables)
  | _, _ => some (false, tables)

/-! ## What the exports write -/

/-- A record, whose fields are separated by commas. -/
def csvRow : List Text → Text
  | [] => [10]
  | cell :: rest => csvField cell ++ ((if rest ≠ [] then [44] else []) ++ csvRow rest)

def csvText (rows : List (List Text)) : Text := rows.flatMap csvRow

/-- Every text fits an item. -/
def Fit (rows : List (List Text)) : Prop := ∀ row ∈ rows, ∀ cell ∈ row, cell.length ≤ listTextMax

section Exports

variable {rows : List (List Text)} {row : List Text} {cell : Text} {required : ℕ}

theorem csvRowRequired_eq (hrow : ∀ cell ∈ row, cell.length ≤ listTextMax)
    (h : required + (csvRow row).length < 2 ^ 64) :
    csvRowRequired required row = some (required + (csvRow row).length) := by
  induction row generalizing required with
  | nil => exact csvAddSize_eq h
  | cons cell rest ih =>
      obtain ⟨hcell, hrest⟩ := List.forall_mem_cons.mp hrow
      have hcomma : (if rest = [] then 0 else 1) =
          (if rest ≠ [] then [44] else [] : Text).length := by
        split <;> simp_all
      unfold csvRow at h ⊢
      unfold csvRowRequired
      simp only [List.length_append] at h ⊢
      rw [csvFieldRequired_eq hcell, csvAddSize_eq (by omega), Option.bind_some, hcomma,
        csvAddSize_eq (by omega), Option.bind_some, ih hrest (by omega)]
      congr 1
      omega

theorem csvRequired_eq (hfit : Fit rows) (h : required + (csvText rows).length < 2 ^ 64) :
    csvRequired required rows = some (required + (csvText rows).length) := by
  induction rows generalizing required with
  | nil => rfl
  | cons row rows ih =>
      obtain ⟨hrow, hrows⟩ := List.forall_mem_cons.mp hfit
      have hsplit : (csvText (row :: rows)).length = (csvRow row).length + (csvText rows).length :=
        List.length_append
      unfold csvRequired
      rw [csvRowRequired_eq hrow (by omega), Option.bind_some, ih hrows (by omega), hsplit]
      congr 1
      omega

/-- A field that needs no bytes is not written. -/
theorem writes_csvCell (hcell : cell.length ≤ listTextMax) :
    Writes (onlyIf (csvFieldRequired cell > 0) (csvCellWrite cell)) (csvField cell) () := by
  by_cases hpos : csvFieldRequired cell > 0
  · have hwrite : Writes (csvCellWrite cell) (csvField cell) () := by
      intro s hroom
      have hget : (get : WriteCall Writing) s = some (.ok s, s) := rfl
      have hfield : csvFieldWrite cell (s.output.length - s.written) s =
          some (.ok (csvField cell).length, s.wrote (csvField cell)) :=
        writes_csvFieldWrite hcell (by unfold Writing.Room at hroom; omega) s hroom
      have hcount : (failIf ((csvField cell).length ≠ csvFieldRequired cell) () : WriteCall Unit) =
          pure () := if_neg (not_not.mpr (csvFieldRequired_eq hcell).symm)
      unfold csvCellWrite
      rw [bind_of_ok hget, bind_of_ok hfield, hcount]
      rfl
    have hall := Writes.onlyIf fun _ : csvFieldRequired cell > 0 => hwrite
    rw [if_pos hpos] at hall
    exact hall
  · have hnil : csvField cell = [] := by
      rw [← List.length_eq_zero_iff, ← csvFieldRequired_eq hcell]
      omega
    rw [hnil, onlyIf, if_neg hpos]
    exact Writes.pure ()

theorem writes_csvRow (hrow : ∀ cell ∈ row, cell.length ≤ listTextMax) :
    Writes (csvRowWrite row) (csvRow row) () := by
  induction row with
  | nil => exact Writes.put 10
  | cons cell rest ih =>
      obtain ⟨hcell, hrest⟩ := List.forall_mem_cons.mp hrow
      exact (writes_csvCell hcell).bind ((Writes.onlyIf fun _ => Writes.put 44).bind (ih hrest))

/-- Without room nothing is written, and otherwise the text and no other byte. -/
theorem csvExport_eq (hfit : Fit rows) (hlength : (csvText rows).length < 2 ^ 64) (output : Text) :
    csvExport rows output = some (if output.length < (csvText rows).length then (0, output)
      else ((csvText rows).length, csvText rows ++ output.drop (csvText rows).length)) := by
  unfold csvExport
  rw [csvRequired_eq hfit (by omega), Nat.zero_add]
  simp only
  split
  next => rfl
  next hroom =>
    have hwrites : Writes (forEach csvRowWrite rows) (csvText rows) () :=
      Writes.forEach fun row hrow => writes_csvRow (hfit row hrow)
    have hall := hwrites ⟨output, 0⟩ (by unfold Writing.Room; simp only; omega)
    rw [hall, Option.map_some]
    simp only [Writing.wrote, Nat.zero_add, List.take_zero, List.nil_append, if_true]

end Exports

/-! ## What the imports read -/

/-- Wherever the input has the text, the call reads it and returns the value. -/
def Reads {α : Type} (input : Text) (x : ReadCall α) (text : Text) (a : α) : Prop :=
  ∀ offset rest, input.drop offset = text ++ rest → x offset = some (.ok a, offset + text.length)

section Imports

variable {input text : Text} {rows : List (List Text)} {row names : List Text}

theorem Reads.pure {α : Type} (a : α) : Reads input (Pure.pure a : ReadCall α) [] a := by
  intro offset rest _
  rfl

theorem Reads.bind {α β : Type} {x : ReadCall α} {f : α → ReadCall β} {text text' : Text} {a : α}
    {b : β} (hx : Reads input x text a) (hf : Reads input (f a) text' b) :
    Reads input (x >>= f) (text ++ text') b := by
  intro offset rest h
  rw [List.append_assoc] at h
  have hbehind : input.drop (offset + text.length) = text' ++ rest := by
    rw [← List.drop_drop, h, List.drop_left]
  rw [bind_of_ok (hx offset _ h), hf _ rest hbehind, List.length_append, Nat.add_assoc]

theorem Reads.check {β : Type} {c : Prop} [Decidable c] {f : Unit → ReadCall β} {b : β}
    (hc : ¬ c) (hf : Reads input (f ()) text b) : Reads input (failIf c () >>= f) text b := by
  have hcheck : (failIf c () : ReadCall Unit) = Pure.pure () := if_neg hc
  rw [hcheck]
  exact (Reads.pure ()).bind hf

theorem reads_field (delimiter : Delimiter) (htext : text.length ≤ listTextMax) :
    Reads input (csvReadField input) (csvField text ++ [delimiter.byte]) (delimiter, text) := by
  intro offset rest h
  rw [List.append_assoc] at h
  rw [csvReadField_field delimiter h htext, List.length_append, List.length_singleton,
    Nat.add_assoc]

/-- The delimiter behind a field that others follow or none. -/
def delimiterBefore (rest : List Text) : Delimiter := if rest = [] then .row else .comma

theorem csvRow_cons (cell : Text) (rest : List Text) :
    csvRow (cell :: rest) = (csvField cell ++ [(delimiterBefore rest).byte]) ++
      (if rest = [] then [] else csvRow rest) := by
  cases rest with
  | nil | cons => simp [csvRow, delimiterBefore, Delimiter.byte]

theorem csvRow_single (cell : Text) : csvRow [cell] = csvField cell ++ [Delimiter.row.byte] := by
  rw [csvRow_cons, if_pos rfl, List.append_nil]
  rfl

/-- Behind a text that is not empty, in an input that it does not end after. -/
theorem behind_of_drop {offset : ℕ} {rest : Text} (h : input.drop offset = text ++ rest)
    (hne : text ≠ []) : offset < input.length ∧ offset + text.length ≤ input.length ∧
      input.drop (offset + text.length) = rest := by
  have hpos : 0 < text.length := List.length_pos_iff.mpr hne
  have hlength : input.length - offset = text.length + rest.length := by
    rw [← List.length_drop, h, List.length_append]
  exact ⟨by omega, by omega, by rw [← List.drop_drop, h, List.drop_left]⟩

theorem reads_cells (hne : row ≠ []) (hrow : ∀ cell ∈ row, cell.length ≤ listTextMax) :
    Reads input (readCells input row.length) (csvRow row) row := by
  induction row with
  | nil => exact absurd rfl hne
  | cons cell rest ih =>
      obtain ⟨hcell, hrest⟩ := List.forall_mem_cons.mp hrow
      have hdelimiter : ¬ delimiterBefore rest ≠ if rest.length = 0 then .row else .comma := by
        simp only [delimiterBefore, List.length_eq_zero_iff, ne_eq, not_true_eq_false,
          not_false_eq_true]
      have hread : Reads input (readCells input rest.length)
          (if rest = [] then [] else csvRow rest) rest := by
        split
        next hnil =>
          rw [hnil]
          exact Reads.pure []
        next hsome => exact ih hsome hrest
      rw [csvRow_cons]
      refine (reads_field (delimiterBefore rest) hcell).bind (Reads.check hdelimiter ?_)
      rw [← List.append_nil (if rest = [] then [] else csvRow rest)]
      exact hread.bind (Reads.pure _)

/-- Names that are identifiers, none of them twice. -/
def Names (names : List Text) : Prop :=
  (∀ name ∈ names, columnNameValid name = true) ∧ names.Pairwise fun a b => b ≠ [] → b ≠ a

theorem reads_names {room : ℕ} (hnames : Names (names ++ row)) (hne : row ≠ [])
    (hrow : ∀ name ∈ row, name.length ≤ listTextMax) (hroom : row.length ≤ room) :
    Reads input (readNames input room names) (csvRow row) (names ++ row) := by
  induction row generalizing names room with
  | nil => exact absurd rfl hne
  | cons name rest ih =>
      obtain ⟨hname, hrest⟩ := List.forall_mem_cons.mp hrow
      obtain ⟨hvalid, hpairs⟩ := hnames
      rw [List.length_cons] at hroom
      obtain ⟨room, rfl⟩ : ∃ n, room = n + 1 := ⟨room - 1, by omega⟩
      have hfresh : ¬ (name ≠ [] ∧ name ∈ names) := fun h =>
        (List.pairwise_append.mp hpairs).2.2 name h.2 name List.mem_cons_self h.1 rfl
      have hmore : names ++ name :: rest = (names ++ [name]) ++ rest := by
        rw [List.append_assoc, List.singleton_append]
      have hread : Reads input (choose (delimiterBefore rest = .row)
          (Pure.pure (names ++ [name])) (readNames input room (names ++ [name])))
          (if rest = [] then [] else csvRow rest) (names ++ name :: rest) := by
        unfold choose delimiterBefore
        by_cases hnil : rest = []
        · rw [if_pos hnil, if_pos rfl, if_pos hnil, hnil]
          exact Reads.pure _
        · rw [if_neg hnil, if_neg (by decide), if_neg hnil, hmore]
          exact ih ⟨hmore ▸ hvalid, hmore ▸ hpairs⟩ hnil hrest (by omega)
      rw [csvRow_cons]
      exact (reads_field (delimiterBefore rest) hname).bind
        (Reads.check (by simp [hvalid]) (Reads.check hfresh hread))

theorem readItems_end {room offset : ℕ} {items : List Text} (h : input.drop offset = [])
    (hle : offset ≤ input.length) :
    readItems input room items offset = some (.ok items, input.length) := by
  have hend : offset = input.length := le_antisymm hle (List.drop_eq_nil_iff.mp h)
  have hget : (get : ReadCall ℕ) offset = some (.ok offset, offset) := rfl
  unfold readItems
  rw [bind_of_ok hget, choose, if_neg (by omega), hend]
  rfl

theorem readItems_eq {room offset : ℕ} {items done : List Text} (hroom : items.length ≤ room)
    (hfit : ∀ item ∈ items, item.length ≤ listTextMax) (hle : offset ≤ input.length)
    (h : input.drop offset = csvText (listRows items)) :
    readItems input room done offset = some (.ok (done ++ items), input.length) := by
  induction items generalizing room offset done with
  | nil =>
      rw [List.append_nil]
      exact readItems_end h hle
  | cons item items ih =>
      obtain ⟨hitem, hitems⟩ := List.forall_mem_cons.mp hfit
      rw [List.length_cons] at hroom
      obtain ⟨room, rfl⟩ : ∃ n, room = n + 1 := ⟨room - 1, by omega⟩
      have htext : input.drop offset =
          (csvField item ++ [Delimiter.row.byte]) ++ csvText (listRows items) := by
        rw [h, ← csvRow_single]
        rfl
      obtain ⟨hlt, hnext⟩ := behind_of_drop htext (by simp)
      have hget : (get : ReadCall ℕ) offset = some (.ok offset, offset) := rfl
      have hrow : (failIf (Delimiter.row ≠ .row) () : ReadCall Unit) = Pure.pure () :=
        if_neg (not_not.mpr rfl)
      unfold readItems
      rw [bind_of_ok hget, choose, if_pos hlt]
      simp only
      rw [bind_of_ok (reads_field .row hitem offset _ htext)]
      have hmore : done ++ item :: items = (done ++ [item]) ++ items := by
        rw [List.append_assoc, List.singleton_append]
      simp only [hrow]
      rw [hmore]
      exact ih (Nat.le_of_succ_le_succ hroom) hitems hnext.1 hnext.2

theorem readRows_end {columnCount room offset : ℕ} {done : List (List Text)}
    (hdone : done.length + room = tableMaxRows) (h : input.drop offset = [])
    (hle : offset ≤ input.length) :
    readRows input columnCount room done hdone offset =
      some (.ok ⟨done, by omega⟩, input.length) := by
  have hend : offset = input.length := le_antisymm hle (List.drop_eq_nil_iff.mp h)
  have hget : (get : ReadCall ℕ) offset = some (.ok offset, offset) := rfl
  unfold readRows
  rw [bind_of_ok hget, choose, if_neg (by omega), hend]
  rfl

theorem csvRow_ne_nil (row : List Text) : csvRow row ≠ [] := by
  cases row with
  | nil => exact List.cons_ne_nil 10 []
  | cons =>
      rw [csvRow_cons]
      simp

theorem readRows_eq {columnCount room offset : ℕ} {done : List (List Text)}
    (hdone : done.length + room = tableMaxRows) (hroom : (done ++ rows).length ≤ tableMaxRows)
    (hcount : 0 < columnCount) (hrows : ∀ row ∈ rows, row.length = columnCount) (hfit : Fit rows)
    (hle : offset ≤ input.length) (h : input.drop offset = csvText rows) :
    readRows input columnCount room done hdone offset =
      some (.ok ⟨done ++ rows, hroom⟩, input.length) := by
  induction rows generalizing room offset done with
  | nil =>
      rw [readRows_end hdone h hle]
      simp only [List.append_nil]
  | cons row rows ih =>
      obtain ⟨hrow, hrest⟩ := List.forall_mem_cons.mp hfit
      obtain ⟨hlength, hlengths⟩ := List.forall_mem_cons.mp hrows
      have hpos : done.length < tableMaxRows := by
        rw [List.length_append, List.length_cons] at hroom
        omega
      obtain ⟨room, rfl⟩ : ∃ n, room = n + 1 := ⟨room - 1, by omega⟩
      have htext : input.drop offset = csvRow row ++ csvText rows := h
      obtain ⟨hlt, hnext⟩ := behind_of_drop htext (csvRow_ne_nil row)
      have hne : row ≠ [] := by
        rw [← List.length_pos_iff]
        omega
      have hread := reads_cells hne hrow offset _ htext
      have hget : (get : ReadCall ℕ) offset = some (.ok offset, offset) := rfl
      unfold readRows
      rw [bind_of_ok hget, choose, if_pos hlt]
      simp only
      rw [← hlength, bind_of_ok hread, hlength]
      have hmore : done ++ row :: rows = (done ++ [row]) ++ rows := by
        rw [List.append_assoc, List.singleton_append]
      rw [ih _ (hmore ▸ hroom) hlengths hrest hnext.1 hnext.2]
      simp only [hmore]

end Imports

end Jadren.App.Csv

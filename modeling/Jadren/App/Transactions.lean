import Jadren.App.Table

/-!
# Transactions and migrations

Three kinds of transaction keep a copy of what they may restore: of the state, of the whole
model, and of one table or all of them.  A migration records changes of one table's schema and
applies them when it is committed.  It has no copy of its own: it opens the transaction of its
table, and commits it or rolls it back when it ends.
-/

namespace Jadren.App

def stateMaxEntries : ℕ := 32

def listMaxLists : ℕ := 4

def tableMigrationMaxOps : ℕ := 16

/-- One entry of the state. -/
structure StateEntry where
  used : Bool
  kind : ℕ
  key : Text
  intValue : ℤ
  uintValue : ℕ
  boolValue : ℕ
  floatValue : Float
  text : Text

def StateEntry.clear : StateEntry := ⟨false, 0, [], 0, 0, 0, 0.0, []⟩

abbrev Entries := Fin stateMaxEntries → StateEntry

/-- The items of every list. -/
abbrev Lists := Fin listMaxLists → List Text

/-- What the application works on. -/
structure Contents where
  state : Entries
  lists : Lists
  tables : Tables

inductive MigrationOp
  | renameColumn (first second : Text)
  | setColumnType (first : Text) (columnKind : ℤ)

structure Migration where
  active : Bool
  tableId : ℤ
  expectedVersion : ℤ
  targetVersion : ℤ
  operations : List MigrationOp

structure AppState where
  live : Contents
  revision : ℕ
  stateBackup : Entries
  stateTransactionActive : Bool
  dataBackup : Contents
  dataTransactionActive : Bool
  tableTransactionBackup : Table
  tableTransactionBackups : Tables
  tableTransactionActive : Bool
  tableTransactionId : ℤ
  tableTransactionAll : Bool
  migration : Migration

/-- A call returns whether it succeeded. -/
abbrev AppCall := AppState → Bool × AppState

namespace AppState

def emptyContents : Contents := ⟨fun _ => .clear, fun _ => [], fun _ => .empty⟩

/-- The runtime when the program starts. -/
def initial : AppState where
  live := emptyContents
  revision := 0
  stateBackup := fun _ => .clear
  stateTransactionActive := false
  dataBackup := emptyContents
  dataTransactionActive := false
  tableTransactionBackup := .empty
  tableTransactionBackups := fun _ => .empty
  tableTransactionActive := false
  tableTransactionId := 0
  tableTransactionAll := false
  migration := ⟨false, 0, 0, 0, []⟩

def bumpRevision (s : AppState) : AppState :=
  if s.revision ≠ 2 ^ 64 - 1 then { s with revision := s.revision + 1 } else s

/-- The runtime with other tables. -/
def setTables (s : AppState) (tables : Tables) : AppState :=
  { s with live := { s.live with tables } }

def setTable (s : AppState) (id : TableId) (t : Table) : AppState :=
  s.setTables (Function.update s.live.tables id t)

/-- No table transaction is active. -/
def closeTable (s : AppState) : AppState :=
  { s with
    tableTransactionActive := false, tableTransactionId := -1, tableTransactionAll := false }

end AppState

open AppState

/-! ## Transactions of the state and of the model -/

def stateTxBegin : AppCall := fun s =>
  if s.stateTransactionActive || s.dataTransactionActive then (false, s)
  else (true, { s with stateBackup := s.live.state, stateTransactionActive := true })

def stateTxCommit : AppCall := fun s =>
  if !s.stateTransactionActive then (false, s)
  else (true, { s with stateBackup := fun _ => .clear, stateTransactionActive := false })

def stateTxRollback : AppCall := fun s =>
  if !s.stateTransactionActive then (false, s)
  else
    (true, bumpRevision { s with
      live := { s.live with state := s.stateBackup }
      stateBackup := fun _ => .clear
      stateTransactionActive := false })

def dataTxBegin : AppCall := fun s =>
  if s.dataTransactionActive || s.stateTransactionActive || s.tableTransactionActive then (false, s)
  else (true, { s with dataBackup := s.live, dataTransactionActive := true })

/-- The transaction begins only if the model still has the revision the caller expects. -/
def dataTxBeginIfRevision (dataRevision expectedRevision : ℕ) : AppCall := fun s =>
  if dataRevision ≠ expectedRevision then (false, s) else dataTxBegin s

def dataTxCommit : AppCall := fun s =>
  if !s.dataTransactionActive then (false, s)
  else
    (true, { s with
      dataBackup := { s.dataBackup with state := fun _ => .clear },
      dataTransactionActive := false })

def dataTxRollback : AppCall := fun s =>
  if !s.dataTransactionActive then (false, s)
  else
    (true, bumpRevision { s with
      live := s.dataBackup
      dataBackup := { s.dataBackup with state := fun _ => .clear }
      dataTransactionActive := false })

/-- The transaction is committed if the model could be saved, else rolled back. -/
def dataTxSaveAtomic (saved : Bool) : AppCall := fun s =>
  if !s.dataTransactionActive then (false, s)
  else if !saved then (false, (dataTxRollback s).2)
  else dataTxCommit s

/-- How the file operations of a durable commit go. -/
inductive DurableOutcome
  /-- An argument is refused, or the revision is not the expected one. -/
  | refused
  /-- The lock, the temporary file or its promotion fails. -/
  | failed
  /-- A flush after the promotion, or the unlocking, fails. -/
  | uncertain
  | done

def dataTxCommitDurable (outcome : DurableOutcome) : AppCall := fun s =>
  if !s.dataTransactionActive then (false, s)
  else
    match outcome with
    | .refused => (false, s)
    | .failed => (false, (dataTxRollback s).2)
    | .uncertain => (false, (dataTxCommit s).2)
    | .done => dataTxCommit s

/-! ## Transactions of tables -/

def tableTxBegin (tableId : ℤ) : AppCall := fun s =>
  match tableOf tableId with
  | none => (false, s)
  | some id =>
    if s.tableTransactionActive || s.dataTransactionActive then (false, s)
    else
      (true, { s with
        tableTransactionBackup := s.live.tables id
        tableTransactionId := tableId
        tableTransactionAll := false
        tableTransactionActive := true })

def tableTxBeginAll : AppCall := fun s =>
  if s.tableTransactionActive || s.dataTransactionActive then (false, s)
  else
    (true, { s with
      tableTransactionBackups := s.live.tables
      tableTransactionId := -1
      tableTransactionAll := true
      tableTransactionActive := true })

def tableTxCommit : AppCall := fun s =>
  if !s.tableTransactionActive || s.tableTransactionAll then (false, s) else (true, s.closeTable)

def tableTxCommitAll : AppCall := fun s =>
  if !s.tableTransactionActive || !s.tableTransactionAll then (false, s) else (true, s.closeTable)

def tableTxRollback : AppCall := fun s =>
  match tableOf s.tableTransactionId with
  | none => (false, s)
  | some id =>
    if !s.tableTransactionActive || s.tableTransactionAll then (false, s)
    else (true, (s.setTable id s.tableTransactionBackup).closeTable)

def tableTxRollbackAll : AppCall := fun s =>
  if !s.tableTransactionActive || !s.tableTransactionAll then (false, s)
  else (true, (s.setTables s.tableTransactionBackups).closeTable)

/-! ## Migrations -/

def migrationReset (s : AppState) : AppState :=
  { s with migration := ⟨false, -1, -1, -1, []⟩ }

def migrationBegin (tableId expectedVersion targetVersion : ℤ) : AppCall := fun s =>
  match tableOf tableId with
  | none => (false, s)
  | some id =>
    if expectedVersion < 0 ∨ targetVersion < 0 ∨ expectedVersion = targetVersion ∨
        s.migration.active ∨ s.dataTransactionActive ∨ s.tableTransactionActive ∨
        (s.live.tables id).schemaVersion ≠ expectedVersion then (false, s)
    else
      match tableTxBegin tableId s with
      | (false, s) => (false, s)
      | (true, s) =>
        (true, { s with migration := ⟨true, tableId, expectedVersion, targetVersion, []⟩ })

/-- One more operation for the commit. -/
def recordOp (s : AppState) (op : MigrationOp) : AppState :=
  { s with migration := { s.migration with operations := s.migration.operations ++ [op] } }

/-- A text that can name a column: it is not empty. -/
def columnNameGiven (name : Text) : Bool :=
  !name.isEmpty && name.length ≤ listTextMax && columnNameValid name

def migrationRenameColumn (first second : Text) : AppCall := fun s =>
  if !s.migration.active || !columnNameGiven first || !columnNameGiven second ||
      s.migration.operations.length ≥ tableMigrationMaxOps then (false, s)
  else (true, recordOp s (.renameColumn first second))

def migrationSetColumnType (name : Text) (kind : ℤ) : AppCall := fun s =>
  if !s.migration.active || !columnNameGiven name || (ColumnKind.ofInt kind).isNone ||
      s.migration.operations.length ≥ tableMigrationMaxOps then (false, s)
  else (true, recordOp s (.setColumnType name kind))

def setColumnName (tableId columnIndex : ℤ) (name : Text) : AppCall := fun s =>
  match tableOf tableId, columnOf columnIndex with
  | some id, some column =>
    match (s.live.tables id).setColumnName column name with
    | none => (false, s)
    | some t => (true, s.setTable id t)
  | _, _ => (false, s)

def setColumnType (tableId columnIndex : ℤ) (kind : ℤ) : AppCall := fun s =>
  match tableOf tableId, columnOf columnIndex with
  | some id, some column =>
    match (s.live.tables id).setColumnType column kind with
    | none => (false, s)
    | some t => (true, s.setTable id t)
  | _, _ => (false, s)

def setSchemaVersion (tableId version : ℤ) : AppCall := fun s =>
  match tableOf tableId with
  | none => (false, s)
  | some id =>
    match (s.live.tables id).setSchemaVersion version with
    | none => (false, s)
    | some t => (true, s.setTable id t)

def findColumn (s : AppState) (tableId : ℤ) (name : Text) : Option Column :=
  (tableOf tableId).bind fun id => (s.live.tables id).findColumn name

/-- One recorded operation on the table. -/
def applyOp (tableId : ℤ) : MigrationOp → AppCall
  | .renameColumn first second => fun s =>
    match findColumn s tableId first with
    | none => (false, s)
    | some columnIndex => setColumnName tableId columnIndex second s
  | .setColumnType first kind => fun s =>
    match findColumn s tableId first with
    | none => (false, s)
    | some columnIndex => setColumnType tableId columnIndex kind s

/-- The recorded operations in order, up to the first that fails. -/
def applyOps (tableId : ℤ) : List MigrationOp → AppCall
  | [] => fun s => (true, s)
  | op :: rest => fun s =>
    match applyOp tableId op s with
    | (false, s) => (false, s)
    | (true, s) => applyOps tableId rest s

/-- The transaction rolled back and the migration over. -/
def abandonMigration (s : AppState) : Bool × AppState :=
  (false, migrationReset (tableTxRollback s).2)

def migrationCommit : AppCall := fun s =>
  if !s.migration.active then (false, s)
  else
    let tableId := s.migration.tableId
    match tableOf tableId with
    | none => abandonMigration s
    | some id =>
      if (s.live.tables id).schemaVersion ≠ s.migration.expectedVersion then abandonMigration s
      else
        match applyOps tableId s.migration.operations s with
        | (false, s) => abandonMigration s
        | (true, s) =>
          match setSchemaVersion tableId s.migration.targetVersion s with
          | (false, s) => abandonMigration s
          | (true, s) =>
            match tableTxCommit s with
            | (false, s) => abandonMigration s
            | (true, s) => (true, migrationReset s)

def migrationRollback : AppCall := fun s =>
  if !s.migration.active then (false, s)
  else
    let (result, s) := tableTxRollback s
    (result, migrationReset s)

end Jadren.App

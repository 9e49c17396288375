import Jadren.App.Transactions
import Jadren.Library.Transition

/-!
# Runs of transactions and migrations

Beside the runtime a session remembers what the last successful begin of each kind saw.  In every
run in which a migration's own transaction is not ended behind its back a rollback restores what
its begin saw, and a commit of a migration applies all that was recorded or restores the table.

What carries this is `Linked`: the copies are what the begins saw, and an active migration has the
transaction of its table open.
-/

namespace Jadren.App

open AppState Option

/-! ## What a migration means for its table -/

namespace MigrationOp

/-- The operation on the table alone. -/
def apply (t : Table) : MigrationOp → Option Table
  | renameColumn first second => (t.findColumn first).bind fun column =>
      t.setColumnName column second
  | setColumnType first kind => (t.findColumn first).bind fun column => t.setColumnType column kind

/-- All operations in order, if none fails. -/
def applyAll (t : Table) (ops : List MigrationOp) : Option Table := ops.foldlM apply t

end MigrationOp

theorem columnOf_coe (column : Column) : columnOf (column : ℕ) = some column := by
  have hrange : (0 : ℤ) ≤ ((column : ℕ) : ℤ) ∧ ((column : ℕ) : ℤ) < tableMaxColumns :=
    ⟨Int.natCast_nonneg _, Int.ofNat_lt.mpr column.isLt⟩
  unfold columnOf
  rw [dif_pos hrange]
  rfl

theorem setTable_setTable (s : AppState) (id : TableId) (t t' : Table) :
    (s.setTable id t).setTable id t' = s.setTable id t' := by
  simp [setTable, setTables, Function.update_idem]

@[simp] theorem setTable_tables (s : AppState) (id : TableId) (t : Table) :
    (s.setTable id t).live.tables id = t := Function.update_self ..

@[simp] theorem setTable_migration (s : AppState) (id : TableId) (t : Table) :
    (s.setTable id t).migration = s.migration := rfl

theorem setTable_self (s : AppState) (id : TableId) : s.setTable id (s.live.tables id) = s := by
  simp [setTable, setTables, Function.update_eq_self]

section Operations

variable {s : AppState} {tableId : ℤ} {id : TableId}

theorem applyOp_eq (h : tableOf tableId = some id) (op : MigrationOp) :
    applyOp tableId op s =
      ((op.apply (s.live.tables id)).elim (false, s) fun t => (true, s.setTable id t)) := by
  cases op with
  | renameColumn first second =>
      simp only [applyOp, findColumn, MigrationOp.apply, h, bind_some]
      cases hcolumn : (s.live.tables id).findColumn first with
      | none => rfl
      | some column =>
          simp only [setColumnName, h, columnOf_coe, bind_some]
          cases (s.live.tables id).setColumnName column second <;> rfl
  | setColumnType first kind =>
      simp only [applyOp, findColumn, MigrationOp.apply, h, bind_some]
      cases hcolumn : (s.live.tables id).findColumn first with
      | none => rfl
      | some column =>
          simp only [setColumnType, h, columnOf_coe, bind_some]
          cases (s.live.tables id).setColumnType column kind <;> rfl

/-- The operations change one table: to what they make of it if none fails. -/
theorem applyOps_eq (h : tableOf tableId = some id) (ops : List MigrationOp) :
    (∃ t, MigrationOp.applyAll (s.live.tables id) ops = some t ∧
      applyOps tableId ops s = (true, s.setTable id t)) ∨
    ∃ t, MigrationOp.applyAll (s.live.tables id) ops = none ∧
      applyOps tableId ops s = (false, s.setTable id t) := by
  induction ops generalizing s with
  | nil => exact .inl ⟨s.live.tables id, rfl, by rw [setTable_self]; rfl⟩
  | cons op rest ih =>
      have hop := applyOp_eq (s := s) h op
      unfold applyOps
      cases happly : op.apply (s.live.tables id) with
      | none =>
          rw [happly] at hop
          refine .inr ⟨s.live.tables id, ?_, ?_⟩
          · simp [MigrationOp.applyAll, happly]
          · rw [hop, setTable_self]
            rfl
      | some t =>
          rw [happly] at hop
          have hall : MigrationOp.applyAll (s.live.tables id) (op :: rest) =
              MigrationOp.applyAll t rest := by
            simp [MigrationOp.applyAll, happly]
          have hrest := ih (s := s.setTable id t)
          rw [setTable_tables, ← hall] at hrest
          rcases hrest with ⟨t', hall', happlied⟩ | ⟨t', hall', happlied⟩
          · refine .inl ⟨t', hall', ?_⟩
            rw [hop]
            simpa only [elim_some, setTable_setTable] using happlied
          · refine .inr ⟨t', hall', ?_⟩
            rw [hop]
            simpa only [elim_some, setTable_setTable] using happlied

end Operations

/-- The runtime with the transaction of one table open. -/
def openTable (s : AppState) (tableId : ℤ) (id : TableId) : AppState :=
  { s with
    tableTransactionBackup := s.live.tables id, tableTransactionId := tableId
    tableTransactionAll := false, tableTransactionActive := true }

theorem tableTxBegin_cases (tableId : ℤ) (s : AppState) : tableTxBegin tableId s = (false, s) ∨
    ∃ id, tableOf tableId = some id ∧ s.tableTransactionActive = false ∧
      s.dataTransactionActive = false ∧
        tableTxBegin tableId s = (true, openTable s tableId id) := by
  unfold tableTxBegin
  cases hid : tableOf tableId with
  | none => exact .inl rfl
  | some id =>
      simp only [Bool.or_eq_true]
      split
      · exact .inl rfl
      next hfree =>
        rw [not_or, Bool.not_eq_true, Bool.not_eq_true] at hfree
        exact .inr ⟨id, rfl, hfree.1, hfree.2, rfl⟩

theorem migrationBegin_cases (tableId expectedVersion targetVersion : ℤ) (s : AppState) :
    migrationBegin tableId expectedVersion targetVersion s = (false, s) ∨
    ∃ id, tableOf tableId = some id ∧ s.tableTransactionActive = false ∧
      migrationBegin tableId expectedVersion targetVersion s = (true, { openTable s tableId id with
        migration := ⟨true, tableId, expectedVersion, targetVersion, []⟩ }) := by
  unfold migrationBegin
  cases hid : tableOf tableId with
  | none => exact .inl rfl
  | some id =>
      simp only
      split
      · exact .inl rfl
      next hguard =>
        rcases tableTxBegin_cases tableId s with hrun | ⟨id', hid', hfree, -, hrun⟩
        · rw [hrun]
          exact .inl rfl
        · obtain rfl : id = id' := some.inj (hid.symm.trans hid')
          rw [hrun]
          exact .inr ⟨id, rfl, hfree, rfl⟩

/-- Rolling back the open transaction of the table. -/
theorem abandonMigration_eq {s : AppState} {id : TableId}
    (hid : tableOf s.tableTransactionId = some id)
    (hactive : s.tableTransactionActive = true) (hone : s.tableTransactionAll = false) :
    abandonMigration s =
      (false, migrationReset ((s.setTable id s.tableTransactionBackup).closeTable)) := by
  simp [abandonMigration, tableTxRollback, hid, hactive, hone]

/-- A migration whose transaction is open is committed as a whole or rolled back. -/
theorem migrationCommit_cases {s : AppState} {id : TableId} (hmigration : s.migration.active = true)
    (hid : tableOf s.migration.tableId = some id)
    (hsame : s.tableTransactionId = s.migration.tableId)
    (hactive : s.tableTransactionActive = true) (hone : s.tableTransactionAll = false) :
    (∃ t, MigrationOp.applyAll (s.live.tables id) s.migration.operations = some t ∧
      migrationCommit s = (true, migrationReset
        ((s.setTable id { t with schemaVersion := s.migration.targetVersion }).closeTable))) ∨
    migrationCommit s =
      (false, migrationReset ((s.setTable id s.tableTransactionBackup).closeTable)) := by
  have htx : tableOf s.tableTransactionId = some id := by rw [hsame, hid]
  have habandon : ∀ t, abandonMigration (s.setTable id t) =
      (false, migrationReset ((s.setTable id s.tableTransactionBackup).closeTable)) := by
    intro t
    rw [abandonMigration_eq (s := s.setTable id t) htx hactive hone, setTable_setTable]
    rfl
  have hplain : abandonMigration s =
      (false, migrationReset ((s.setTable id s.tableTransactionBackup).closeTable)) :=
    abandonMigration_eq htx hactive hone
  simp only [migrationCommit, hmigration, hid, Bool.not_true, Bool.false_eq_true, if_false]
  split
  next hversion => exact .inr hplain
  next hversion =>
    rcases applyOps_eq hid s.migration.operations with ⟨t, hall, happly⟩ | ⟨t, hall, happly⟩
    · rw [happly]
      simp only [setSchemaVersion, hid, setTable_tables, Table.setSchemaVersion, setTable_migration]
      by_cases hnegative : s.migration.targetVersion < 0
      · simp only [hnegative, if_true]
        exact .inr (habandon t)
      · simp only [hnegative, if_false]
        refine .inl ⟨t, hall, ?_⟩
        rw [setTable_setTable]
        simp [tableTxCommit, setTable, setTables, hactive, hone]
    · rw [happly]
      exact .inr (habandon t)

/-! ## Sessions -/

/-- What the begin of a table transaction saw. -/
inductive TableBegin
  | one (id : TableId) (snapshot : Table)
  | all (snapshot : Tables)

/-- What the last successful begin of each kind saw. -/
structure History where
  state : Option Entries
  data : Option Contents
  table : Option TableBegin
  migration : Option (TableId × Table)

/-- The public calls.  The setters of entries, lists, cells, rows and schemas change nothing but
the contents; an edit is given by what it leaves. -/
inductive PublicCall
  | stateTxBegin
  | stateTxCommit
  | stateTxRollback
  | dataTxBegin
  | dataTxBeginIfRevision (dataRevision expectedRevision : ℕ)
  | dataTxCommit
  | dataTxRollback
  | dataTxSaveAtomic (saved : Bool)
  | dataTxCommitDurable (outcome : DurableOutcome)
  | tableTxBegin (tableId : ℤ)
  | tableTxBeginAll
  | tableTxCommit
  | tableTxCommitAll
  | tableTxRollback
  | tableTxRollbackAll
  | migrationBegin (tableId expectedVersion targetVersion : ℤ)
  | migrationRenameColumn (first second : Text)
  | migrationSetColumnType (name : Text) (kind : ℤ)
  | migrationCommit
  | migrationRollback
  | edit (contents : Contents)

namespace PublicCall

def run : PublicCall → AppCall
  | stateTxBegin => App.stateTxBegin
  | stateTxCommit => App.stateTxCommit
  | stateTxRollback => App.stateTxRollback
  | dataTxBegin => App.dataTxBegin
  | dataTxBeginIfRevision dataRevision expected => App.dataTxBeginIfRevision dataRevision expected
  | dataTxCommit => App.dataTxCommit
  | dataTxRollback => App.dataTxRollback
  | dataTxSaveAtomic saved => App.dataTxSaveAtomic saved
  | dataTxCommitDurable outcome => App.dataTxCommitDurable outcome
  | tableTxBegin tableId => App.tableTxBegin tableId
  | tableTxBeginAll => App.tableTxBeginAll
  | tableTxCommit => App.tableTxCommit
  | tableTxCommitAll => App.tableTxCommitAll
  | tableTxRollback => App.tableTxRollback
  | tableTxRollbackAll => App.tableTxRollbackAll
  | migrationBegin tableId expected target => App.migrationBegin tableId expected target
  | migrationRenameColumn first second => App.migrationRenameColumn first second
  | migrationSetColumnType name kind => App.migrationSetColumnType name kind
  | migrationCommit => App.migrationCommit
  | migrationRollback => App.migrationRollback
  | edit contents => fun s => (true, { s with live := contents })

/-- What a begin that succeeds sees. -/
def record (s : AppState) (history : History) : PublicCall → History
  | stateTxBegin => { history with state := some s.live.state }
  | dataTxBegin => { history with data := some s.live }
  | dataTxBeginIfRevision _ _ => { history with data := some s.live }
  | tableTxBegin tableId =>
    { history with table := (tableOf tableId).map fun id => .one id (s.live.tables id) }
  | tableTxBeginAll => { history with table := some (.all s.live.tables) }
  | migrationBegin tableId _ _ =>
    { history with
      table := (tableOf tableId).map fun id => .one id (s.live.tables id)
      migration := (tableOf tableId).map fun id => (id, s.live.tables id) }
  | _ => history

end PublicCall

structure AppSession where
  state : AppState
  history : History

namespace AppSession

def initial : AppSession := ⟨.initial, ⟨none, none, none, none⟩⟩

def after (x : AppSession) (call : PublicCall) : AppSession where
  state := (call.run x.state).2
  history := if (call.run x.state).1 then call.record x.state x.history else x.history

end AppSession

def transactions : System PublicCall where
  State := AppSession
  initial x := x = .initial
  step x call x' := ∃ c, call = some c ∧ x' = x.after c

/-- The copies are what the begins saw, and an active migration has its table's transaction open. -/
structure Linked (s : AppState) (history : History) : Prop where
  state : s.stateTransactionActive = true → history.state = some s.stateBackup
  data : s.dataTransactionActive = true → history.data = some s.dataBackup
  all : s.tableTransactionActive = true → s.tableTransactionAll = true →
    history.table = some (.all s.tableTransactionBackups)
  one : s.tableTransactionActive = true → s.tableTransactionAll = false →
    ∃ id, tableOf s.tableTransactionId = some id ∧
      history.table = some (.one id s.tableTransactionBackup)
  migration : s.migration.active = true →
    s.tableTransactionActive = true ∧ s.tableTransactionAll = false ∧
      s.tableTransactionId = s.migration.tableId ∧
      ∃ id, tableOf s.migration.tableId = some id ∧
        history.migration = some (id, s.tableTransactionBackup)

/-- The transaction of an active migration is not ended by a call for table transactions. -/
def MigrationAlone (x : AppSession) : Option PublicCall → AppSession → Prop
  | some .tableTxCommit, _ => x.state.migration.active = false
  | some .tableTxRollback, _ => x.state.migration.active = false
  | _, _ => True

/-! ### One call -/

namespace Linked

variable {s : AppState} {history : History}

theorem initial : Linked .initial ⟨none, none, none, none⟩ := by
  constructor <;> exact fun h => absurd h (by decide)

@[simp] theorem bumpRevision_iff : Linked (bumpRevision s) history ↔ Linked s history := by
  unfold bumpRevision
  split
  · exact ⟨fun h => ⟨h.state, h.data, h.all, h.one, h.migration⟩,
      fun h => ⟨h.state, h.data, h.all, h.one, h.migration⟩⟩
  · exact Iff.rfl

variable (h : Linked s history)
include h

theorem setLive (contents : Contents) :
    Linked { s with live := contents } history :=
  ⟨h.state, h.data, h.all, h.one, h.migration⟩

/-- Without a migration the transactions of tables may end. -/
theorem closeTable (hmigration : s.migration.active = false) :
    Linked s.closeTable history where
  state := h.state
  data := h.data
  all hactive := absurd hactive (by simp [AppState.closeTable])
  one hactive := absurd hactive (by simp [AppState.closeTable])
  migration hactive := absurd hactive (by simp [AppState.closeTable, hmigration])

/-- A migration ends together with its transaction. -/
theorem endMigration (id : TableId) (t : Table) :
    Linked (App.migrationReset ((s.setTable id t).closeTable)) history where
  state := h.state
  data := h.data
  all hactive := absurd hactive (by simp [App.migrationReset, AppState.closeTable])
  one hactive := absurd hactive (by simp [App.migrationReset, AppState.closeTable])
  migration hactive := absurd hactive (by simp [App.migrationReset])

theorem dataTxCommit : Linked (dataTxCommit s).2 history := by
  unfold App.dataTxCommit
  split
  · exact h
  · exact ⟨h.state, fun hactive => absurd hactive (by simp), h.all, h.one, h.migration⟩

theorem dataTxRollback : Linked (dataTxRollback s).2 history := by
  unfold App.dataTxRollback
  split
  · exact h
  · rw [bumpRevision_iff]
    exact ⟨h.state, fun hactive => absurd hactive (by simp), h.all, h.one, h.migration⟩

theorem dataTxBegin :
    Linked (dataTxBegin s).2
      (if (App.dataTxBegin s).1 then { history with data := some s.live } else history) := by
  unfold App.dataTxBegin
  split
  · exact h
  · exact ⟨h.state, fun _ => rfl, h.all, h.one, h.migration⟩

/-- A begin for one table, which no migration can be active for yet. -/
theorem tableTxBegin {tableId : ℤ} {id : TableId}
    (hid : tableOf tableId = some id) (hfree : s.tableTransactionActive = false) :
    Linked (openTable s tableId id)
      { history with table := some (.one id (s.live.tables id)) } where
  state := h.state
  data := h.data
  all _ hall := absurd hall (by simp [openTable])
  one _ _ := ⟨id, hid, rfl⟩
  migration hactive := by
    rw [(h.migration hactive).1] at hfree
    exact absurd hfree (by simp)

omit h

/-- A call that begins nothing. -/
private theorem unrecorded {s' : AppState} {call : PublicCall} {done : Bool}
    (hrecord : call.record s history = history) (h : Linked s' history) :
    Linked s' (if done then call.record s history else history) := by
  rw [hrecord, ite_self]
  exact h

/-- A call keeps the copies what the begins saw. -/
theorem after {x : AppSession} (h : Linked x.state x.history) {call : PublicCall}
    (hallowed : MigrationAlone x (some call) x) :
    Linked (x.after call).state (x.after call).history := by
  obtain ⟨s, history⟩ := x
  change Linked s history at h
  change Linked (call.run s).2 (if (call.run s).1 then call.record s history else history)
  cases call with
  | edit contents => exact unrecorded rfl (h.setLive contents)
  | stateTxBegin =>
      simp only [PublicCall.run, App.stateTxBegin]
      split
      · exact h
      · exact ⟨fun _ => rfl, h.data, h.all, h.one, h.migration⟩
  | stateTxCommit =>
      apply unrecorded rfl
      simp only [PublicCall.run, App.stateTxCommit]
      split
      · exact h
      · exact ⟨fun hactive => absurd hactive (by simp), h.data, h.all, h.one, h.migration⟩
  | stateTxRollback =>
      apply unrecorded rfl
      simp only [PublicCall.run, App.stateTxRollback]
      split
      · exact h
      · rw [bumpRevision_iff]
        exact ⟨fun hactive => absurd hactive (by simp), h.data, h.all, h.one, h.migration⟩
  | dataTxBegin => exact h.dataTxBegin
  | dataTxBeginIfRevision =>
      simp only [PublicCall.run, App.dataTxBeginIfRevision]
      split
      · exact h
      · exact h.dataTxBegin
  | dataTxCommit => exact unrecorded rfl h.dataTxCommit
  | dataTxRollback => exact unrecorded rfl h.dataTxRollback
  | dataTxSaveAtomic =>
      apply unrecorded rfl
      simp only [PublicCall.run, App.dataTxSaveAtomic]
      split
      · exact h
      · split
        · exact h.dataTxRollback
        · exact h.dataTxCommit
  | dataTxCommitDurable outcome =>
      apply unrecorded rfl
      simp only [PublicCall.run, App.dataTxCommitDurable]
      split
      · exact h
      · cases outcome with
        | refused => exact h
        | failed => exact h.dataTxRollback
        | uncertain => exact h.dataTxCommit
        | done => exact h.dataTxCommit
  | tableTxBegin tableId =>
      rcases tableTxBegin_cases tableId s with hrun | ⟨id, hid, hfree, -, hrun⟩
      · rw [PublicCall.run, hrun]
        exact h
      · rw [PublicCall.run, hrun]
        simpa only [PublicCall.record, hid, map_some, if_true] using h.tableTxBegin hid hfree
  | tableTxBeginAll =>
      simp only [PublicCall.run, App.tableTxBeginAll, Bool.or_eq_true]
      split
      · exact h
      next hfree =>
        rw [not_or, Bool.not_eq_true, Bool.not_eq_true] at hfree
        refine ⟨h.state, h.data, fun _ _ => rfl, fun _ hone => absurd hone (by simp), ?_⟩
        intro hactive
        rw [(h.migration hactive).1] at hfree
        exact absurd hfree.1 (by simp)
  | tableTxCommit =>
      apply unrecorded rfl
      simp only [PublicCall.run, App.tableTxCommit]
      split
      · exact h
      · exact h.closeTable hallowed
  | tableTxCommitAll =>
      apply unrecorded rfl
      simp only [PublicCall.run, App.tableTxCommitAll]
      split
      · exact h
      next hall =>
        -- the transaction of a migration is of one table
        refine h.closeTable (Bool.eq_false_iff.mpr fun hactive => ?_)
        simp [(h.migration hactive).2.1] at hall
  | tableTxRollback =>
      apply unrecorded rfl
      simp only [PublicCall.run, App.tableTxRollback]
      rcases tableOf s.tableTransactionId with - | id
      · exact h
      · simp only
        split
        · exact h
        · exact (h.setLive _).closeTable hallowed
  | tableTxRollbackAll =>
      apply unrecorded rfl
      simp only [PublicCall.run, App.tableTxRollbackAll]
      split
      · exact h
      next hall =>
        refine (h.setLive _).closeTable (Bool.eq_false_iff.mpr fun hactive => ?_)
        simp [(h.migration hactive).2.1] at hall
  | migrationBegin tableId expected target =>
      rcases migrationBegin_cases tableId expected target s with hrun | ⟨id, hid, hfree, hrun⟩
      · rw [PublicCall.run, hrun]
        exact h
      · have hbegun := h.tableTxBegin hid hfree
        rw [PublicCall.run, hrun]
        simp only [PublicCall.record, hid, map_some]
        exact ⟨hbegun.state, hbegun.data, hbegun.all, hbegun.one,
          fun _ => ⟨rfl, rfl, rfl, id, hid, rfl⟩⟩
  | migrationRenameColumn =>
      apply unrecorded rfl
      simp only [PublicCall.run, App.migrationRenameColumn]
      split
      · exact h
      · exact ⟨h.state, h.data, h.all, h.one, h.migration⟩
  | migrationSetColumnType =>
      apply unrecorded rfl
      simp only [PublicCall.run, App.migrationSetColumnType]
      split
      · exact h
      · exact ⟨h.state, h.data, h.all, h.one, h.migration⟩
  | migrationCommit =>
      apply unrecorded rfl
      cases hmigration : s.migration.active with
      | false => simpa [PublicCall.run, App.migrationCommit, hmigration] using h
      | true =>
          obtain ⟨hactive, hone, hsame, id, hid, -⟩ := h.migration hmigration
          rcases migrationCommit_cases hmigration hid hsame hactive hone with
            ⟨t, -, hcommit⟩ | hcommit
          · rw [PublicCall.run, hcommit]
            exact h.endMigration id _
          · rw [PublicCall.run, hcommit]
            exact h.endMigration id _
  | migrationRollback =>
      apply unrecorded rfl
      cases hmigration : s.migration.active with
      | false => simpa [PublicCall.run, App.migrationRollback, hmigration] using h
      | true =>
          obtain ⟨hactive, hone, hsame, id, hid, -⟩ := h.migration hmigration
          have hrollback : App.migrationRollback s = (true, App.migrationReset
              ((s.setTable id s.tableTransactionBackup).closeTable)) := by
            simp [App.migrationRollback, tableTxRollback, hmigration, hsame, hid, hactive, hone]
          rw [PublicCall.run, hrollback]
          exact h.endMigration id _

end Linked

/-! ## What is promised -/

/-- What the calls that end a migration or a transaction do in a session. -/
structure AppSession.Atomic (x : AppSession) : Prop where
  /-- The commit of a migration applies all that was recorded, or restores the table. -/
  commit : ∀ done s, x.state.migration.active = true → migrationCommit x.state = (done, s) →
    ∃ id snapshot, x.history.migration = some (id, snapshot) ∧
      ((done = true ∧ ∃ t,
          MigrationOp.applyAll (x.state.live.tables id) x.state.migration.operations = some t ∧
          s.live = (x.state.setTable id
            { t with schemaVersion := x.state.migration.targetVersion }).live) ∨
        (done = false ∧ s.live = (x.state.setTable id snapshot).live))
  /-- It ends no transaction of another table or of all tables. -/
  others : ∀ done s, x.state.migration.active = true → migrationCommit x.state = (done, s) →
    x.state.tableTransactionActive = true →
    x.state.tableTransactionAll = true ∨ x.state.tableTransactionId ≠ x.state.migration.tableId →
    s.tableTransactionActive = true
  /-- A rollback restores what the begin saw. -/
  rollback : ∀ s, migrationRollback x.state = (true, s) →
    ∃ id snapshot, x.history.migration = some (id, snapshot) ∧
      s.live = (x.state.setTable id snapshot).live
  tableRollback : ∀ s, tableTxRollback x.state = (true, s) →
    ∃ id snapshot, x.history.table = some (.one id snapshot) ∧
      s.live = (x.state.setTable id snapshot).live
  tableRollbackAll : ∀ s, tableTxRollbackAll x.state = (true, s) →
    ∃ snapshot, x.history.table = some (.all snapshot) ∧
      s.live = (x.state.setTables snapshot).live
  dataRollback : ∀ s, dataTxRollback x.state = (true, s) → x.history.data = some s.live
  stateRollback : ∀ s, stateTxRollback x.state = (true, s) →
    ∃ snapshot, x.history.state = some snapshot ∧ s.live = { x.state.live with state := snapshot }

theorem bumpRevision_live (s : AppState) : (bumpRevision s).live = s.live := by
  unfold bumpRevision
  split <;> rfl

theorem Linked.atomic {x : AppSession} (h : Linked x.state x.history) : x.Atomic where
  commit := by
    intro done s hmigration hcommit
    obtain ⟨hactive, hone, hsame, id, hid, hhistory⟩ := h.migration hmigration
    refine ⟨id, _, hhistory, ?_⟩
    -- either all operations went through, or the table is the one recorded
    rcases migrationCommit_cases hmigration hid hsame hactive hone with ⟨t, hall, hdone⟩ | hfailed
    · rw [hdone] at hcommit
      obtain ⟨rfl, rfl⟩ := Prod.mk.inj hcommit
      exact .inl ⟨rfl, t, hall, rfl⟩
    · rw [hfailed] at hcommit
      obtain ⟨rfl, rfl⟩ := Prod.mk.inj hcommit
      exact .inr ⟨rfl, rfl⟩
  others := by
    intro done s hmigration hcommit hactive hother
    obtain ⟨-, hone, hsame, -⟩ := h.migration hmigration
    -- a migration has the transaction of its own table open
    rcases hother with hall | hdiffers
    · rw [hone] at hall
      exact absurd hall (by simp)
    · exact absurd hsame hdiffers
  rollback := by
    intro s hrollback
    cases hmigration : x.state.migration.active with
    | false => simp [migrationRollback, hmigration] at hrollback
    | true =>
        obtain ⟨hactive, hone, hsame, id, hid, hhistory⟩ := h.migration hmigration
        refine ⟨id, _, hhistory, ?_⟩
        simp only [migrationRollback, tableTxRollback, hmigration, hsame, hid, hactive, hone]
          at hrollback
        obtain ⟨-, rfl⟩ := Prod.mk.inj hrollback
        rfl
  tableRollback := by
    intro s hrollback
    unfold tableTxRollback at hrollback
    cases hid : tableOf x.state.tableTransactionId with
    | none => simp [hid] at hrollback
    | some id =>
        simp only [hid] at hrollback
        split at hrollback
        · simp at hrollback
        next hopen =>
          simp only [Bool.or_eq_true, Bool.not_eq_true', not_or, Bool.not_eq_false,
            Bool.not_eq_true] at hopen
          obtain ⟨id', hid', hhistory⟩ := h.one hopen.1 hopen.2
          obtain rfl : id = id' := some.inj (hid.symm.trans hid')
          obtain ⟨-, rfl⟩ := Prod.mk.inj hrollback
          exact ⟨id, _, hhistory, rfl⟩
  tableRollbackAll := by
    intro s hrollback
    unfold tableTxRollbackAll at hrollback
    split at hrollback
    · simp at hrollback
    next hopen =>
      simp only [Bool.or_eq_true, Bool.not_eq_true', not_or, Bool.not_eq_false] at hopen
      obtain ⟨-, rfl⟩ := Prod.mk.inj hrollback
      exact ⟨_, h.all hopen.1 hopen.2, rfl⟩
  dataRollback := by
    intro s hrollback
    unfold App.dataTxRollback at hrollback
    split at hrollback
    · simp at hrollback
    next hopen =>
      rw [Bool.not_eq_true', Bool.not_eq_false] at hopen
      obtain ⟨-, rfl⟩ := Prod.mk.inj hrollback
      rw [bumpRevision_live]
      exact h.data hopen
  stateRollback := by
    intro s hrollback
    unfold stateTxRollback at hrollback
    split at hrollback
    · simp at hrollback
    next hopen =>
      rw [Bool.not_eq_true', Bool.not_eq_false] at hopen
      obtain ⟨-, rfl⟩ := Prod.mk.inj hrollback
      rw [bumpRevision_live]
      exact ⟨_, h.state hopen, rfl⟩

variable {allowed : AppSession → Option PublicCall → AppSession → Prop}

theorem transactions_new :
    (transactions.restrict allowed).Reachable AppSession.initial := ⟨[], .start rfl⟩

theorem transactions_after {x : AppSession} (h : (transactions.restrict allowed).Reachable x)
    {call : PublicCall} (hallowed : allowed x (some call) (x.after call)) :
    (transactions.restrict allowed).Reachable (x.after call) := by
  obtain ⟨trace, run⟩ := h
  exact ⟨_, run.step ⟨⟨call, rfl, rfl⟩, hallowed⟩⟩

/-- In every run that leaves migrations their transaction, migrations are atomic and rollbacks
restore what their begin saw. -/
theorem atomic_of_reachable {x : AppSession}
    (h : (transactions.restrict MigrationAlone).Reachable x) : x.Atomic := by
  have hlinked : Linked x.state x.history := by
    refine h.invariant (P := fun x : AppSession => Linked x.state x.history)
      (fun x hx => hx ▸ Linked.initial) ?_
    intro x event x' hx hstep
    obtain ⟨⟨call, rfl, rfl⟩, hallowed⟩ := hstep
    apply hx.after
    cases call <;> exact hallowed
  exact hlinked.atomic

/-- A migration of a table with a column `a`, which is renamed, and so is one that is not there. -/
def renamesMissing : AppSession :=
  let table : Table := { Table.empty with
    columnNames := fun column => if column = ⟨0, by decide⟩ then [97] else [] }
  (((AppSession.initial.after (.edit { emptyContents with tables := fun _ => table })).after
    (.migrationBegin 0 0 1)).after (.migrationRenameColumn [97] [98])).after
      (.migrationRenameColumn [99] [98])

/-- Its commit fails, and the column has its name back. -/
theorem atomic_of_reachable_renamesMissing :
    renamesMissing.state.migration.operations.length = 2 ∧
      ∃ s, migrationCommit renamesMissing.state = (false, s) ∧
        (s.live.tables ⟨0, by decide⟩).columnNames ⟨0, by decide⟩ = [97] := by
  have hatomic : renamesMissing.Atomic :=
    atomic_of_reachable (transactions_after (transactions_after (transactions_after
      (transactions_after transactions_new trivial) trivial) trivial) trivial)
  have hfails : (migrationCommit renamesMissing.state).1 = false := by decide +kernel
  rcases hcommit : migrationCommit renamesMissing.state with ⟨done, s⟩
  rw [hcommit] at hfails
  subst hfails
  refine ⟨rfl, s, rfl, ?_⟩
  obtain ⟨id, snapshot, hhistory, ⟨hdone, -⟩ | ⟨-, hlive⟩⟩ := hatomic.commit false s rfl hcommit
  · cases hdone
  · cases hhistory
    rw [hlive]
    rfl

/-- A migration whose transaction has been committed commits the transaction of another table. -/
theorem migration_commits_other_table :
    ¬ ∀ x, transactions.Reachable x → AppSession.Atomic x := by
  intro hatomic
  let x := ((AppSession.initial.after (.migrationBegin 0 0 1)).after .tableTxCommit).after
    (.tableTxBegin 1)
  have hreachable : (transactions.restrict fun _ _ _ => True).Reachable x :=
    transactions_after (transactions_after (transactions_after transactions_new trivial) trivial)
      trivial
  have hopen := (hatomic x hreachable.of_restrict).others true
      (migrationCommit x.state).2 rfl rfl rfl
    (.inr (by decide))
  exact absurd hopen (by decide)

end Jadren.App

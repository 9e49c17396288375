import Jadren.App.DataDocument
import Jadren.App.TransactionRuns

/-!
# Durable commits

A durable commit takes a lock, writes the document of the model to a temporary file, flushes it,
puts it in the place of the target and flushes that.  Any of these may fail, and so may the
operations that clean up.  Whatever happens, memory and disk agree afterwards: before the target
is replaced every failure rolls the transaction back, and after it every failure commits.

* `commitLocked_agrees`: one call, by the operation that fails first.
* `dataBackup_of_reachable`: in every run the copy of an open transaction is what its begin saw.
* `durable_agrees`: the two together.
-/

namespace Jadren.App

namespace Durable

open Function

/-- Files by their paths. -/
abbrev Disk := Text → Option Text

structure World where
  disk : Disk
  state : AppState

/-- How the file operations go.  A write that could not open its file has no count; else the count
is how many bytes it has written at most. -/
structure Attempts where
  lock : ℕ → Bool
  write : Option ℕ
  flushTemporary : Bool
  replace : Bool
  flushTarget : Bool
  flushDirectory : Bool
  unlock : Bool
  delete : Bool

/-! ## File operations -/

/-- Taking a lock creates its file. -/
def fileLock (path : Text) (disk : Disk) : Disk :=
  update disk path (some ((disk path).getD []))

/-- The number of bytes written, which were all there was if it is that of the data. -/
def fileWriteText (path data : Text) (count : Option ℕ) (disk : Disk) : ℕ × Disk :=
  match count with
  | none => (0, disk)
  | some count => ((data.take count).length, update disk path (some (data.take count)))

/-- The source takes the place of the target, or nothing changes. -/
def fileReplaceAtomic (source target : Text) (replaced : Bool) (disk : Disk) : Bool × Disk :=
  match disk source with
  | none => (false, disk)
  | some data =>
    if replaced then
      (true, update (update disk source none) target (some data))
    else (false, disk)

def fileDelete (path : Text) (deleted : Bool) (disk : Disk) : Disk :=
  if deleted then update disk path none else disk

/-- The document, if there is one, written to the file. -/
def saveDocument (path : Text) (count : Option ℕ) (document : Option Text) (disk : Disk) :
    Bool × Disk :=
  match document with
  | none => (false, disk)
  | some document =>
    let (written, disk) := fileWriteText path document count disk
    (written == document.length, disk)

def dataSave (path : Text) (count : Option ℕ) (model : Contents) (disk : Disk) : Bool × Disk :=
  saveDocument path count (dataDocument model) disk

/-! ## Commits -/

/-- Unlocking, the temporary file deleted and the transaction rolled back. -/
def abandon (temporary : Text) (attempts : Attempts) (w : World) : Bool × World :=
  (false,
    { disk := fileDelete temporary attempts.delete w.disk
      state := (dataTxRollback w.state).2 })

/-- The commit once the lock is held; the promoted file has been flushed or not. -/
def commitLocked (temporary target : Text) (attempts : Attempts) (promotedFlushed : Bool)
    (w : World) : Bool × World :=
  let (saved, disk) := dataSave temporary attempts.write w.state.live w.disk
  if !saved || !attempts.flushTemporary then abandon temporary attempts { w with disk }
  else
    match fileReplaceAtomic temporary target attempts.replace disk with
    | (false, disk) => abandon temporary attempts { w with disk }
    | (true, disk) =>
      let (committed, state) := dataTxCommit w.state
      if !promotedFlushed then (false, { disk, state })
      else if !attempts.unlock then (false, { disk, state })
      else (committed, { disk, state })

/-- The commit with a lock that was taken or not. -/
def commitWith (temporary target lock : Text) (attempts : Attempts)
    (locked promotedFlushed : Bool) (w : World) : Bool × World :=
  if !locked then (false, { w with state := (dataTxRollback w.state).2 })
  else
    commitLocked temporary target attempts promotedFlushed { w with disk := fileLock lock w.disk }

/-- A path that was given and is not empty. -/
def givenPath : Option Text → Option Text
  | none => none
  | some path => if path.isEmpty then none else some path

/-- The paths of a commit as its caller gives them. -/
structure Paths where
  temporary : Option Text
  target : Option Text
  lock : Option Text

/-- The paths, if all three are given. -/
def Paths.given (paths : Paths) : Option (Text × Text × Text) := do
  let temporary ← givenPath paths.temporary
  let target ← givenPath paths.target
  let lock ← givenPath paths.lock
  some (temporary, target, lock)

def dataTxCommitDurable (paths : Paths) (attempts : Attempts) (w : World) : Bool × World :=
  if !w.state.dataTransactionActive then (false, w)
  else
    match paths.given with
    | none => (false, w)
    | some (temporary, target, lock) =>
      commitWith temporary target lock attempts (attempts.lock 0) attempts.flushTarget w

/-- The directory exists or not; a commit with two equal paths is refused. -/
def dataTxCommitDurableDirectory (paths : Paths) (directory : Option Text) (directoryExists : Bool)
    (attempts : Attempts) (w : World) : Bool × World :=
  if !w.state.dataTransactionActive then (false, w)
  else
    match paths.given, givenPath directory with
    | some (temporary, target, lock), some _ =>
      if !directoryExists || temporary == target || temporary == lock || target == lock then
        (false, w)
      else
        commitWith temporary target lock attempts (attempts.lock 0)
          (attempts.flushTarget && attempts.flushDirectory) w
    | _, _ => (false, w)

/-- The lock is tried a number of times. -/
def fileLockPathRetry (lock : ℕ → Bool) (maxAttempts : ℕ) : Bool :=
  (List.range maxAttempts).any lock

def dataTxCommitDurableRetry (paths : Paths) (maxAttempts : ℕ) (attempts : Attempts) (w : World) :
    Bool × World :=
  if !w.state.dataTransactionActive then (false, w)
  else
    match paths.given with
    | none => (false, w)
    | some (temporary, target, lock) =>
      commitWith temporary target lock attempts (fileLockPathRetry attempts.lock maxAttempts)
        attempts.flushTarget w

/-! ## One call -/

/-- The transaction is closed, and memory and disk agree: both are as at the begin, in which case
the call has failed, or both have what the transaction has made of the model. -/
structure Agrees (target : Text) (snapshot : Contents) (before : World) (returned : Bool)
    (after : World) : Prop where
  closed : after.state.dataTransactionActive = false
  agrees : (returned = false ∧ after.state.live = snapshot ∧
      after.disk target = before.disk target) ∨
    (after.state.live = before.state.live ∧ ∃ document,
      dataDocument before.state.live = some document ∧ after.disk target = some document)

section Calls

variable {temporary target lock : Text} {attempts : Attempts} {w after : World} {disk : Disk}
  {returned : Bool}

theorem dataTxRollback_spec {s : AppState} (hactive : s.dataTransactionActive = true) :
    (dataTxRollback s).2.dataTransactionActive = false ∧
      (dataTxRollback s).2.live = s.dataBackup := by
  unfold dataTxRollback
  rw [hactive]
  constructor
  · simp only [Bool.not_true, Bool.false_eq_true, if_false, AppState.bumpRevision]
    split <;> rfl
  · exact bumpRevision_live _

theorem dataTxCommit_spec {s : AppState} (hactive : s.dataTransactionActive = true) :
    (dataTxCommit s).1 = true ∧ (dataTxCommit s).2.dataTransactionActive = false ∧
      (dataTxCommit s).2.live = s.live := by
  unfold dataTxCommit
  rw [hactive]
  exact ⟨rfl, rfl, rfl⟩

theorem fileDelete_of_ne (hne : temporary ≠ target) (deleted : Bool) :
    fileDelete temporary deleted disk target = disk target := by
  unfold fileDelete
  split
  · exact update_of_ne hne.symm _ _
  · rfl

variable (hactive : w.state.dataTransactionActive = true)
include hactive

/-- A rollback after the temporary file may have been written. -/
theorem abandon_agrees (hne : temporary ≠ target)
    (hdisk : disk target = w.disk target)
    (h : abandon temporary attempts { w with disk } = (returned, after)) :
    Agrees target w.state.dataBackup w returned after := by
  obtain ⟨hclosed, hlive⟩ := dataTxRollback_spec hactive
  cases h
  refine ⟨hclosed, .inl ⟨rfl, hlive, ?_⟩⟩
  calc fileDelete temporary attempts.delete disk target = disk target := fileDelete_of_ne hne _
    _ = w.disk target := hdisk

omit hactive

theorem dataDocument_ne_nil {model : Contents} {document : Text}
    (h : dataDocument model = some document) : document ≠ [] := by
  intro hnil
  rw [hnil] at h
  exact absurd (startsWith_versionLine h) (by decide)

/-- Saving changes no other file, and what was saved is the document. -/
theorem saveDocument_spec {path : Text} {count : Option ℕ} {document : Option Text} {saved : Bool}
    {disk' : Disk} (hne : ∀ text, document = some text → text ≠ [])
    (h : saveDocument path count document disk = (saved, disk')) :
    (∀ other, other ≠ path → disk' other = disk other) ∧
      (saved = true → ∃ text, document = some text ∧ disk' path = some text) := by
  unfold saveDocument at h
  split at h
  · cases h
    exact ⟨fun _ _ => rfl, fun hsaved => absurd hsaved (by decide)⟩
  · next text =>
      cases count with
      | none =>
          cases h
          refine ⟨fun _ _ => rfl, fun hsaved => ?_⟩
          -- nothing was written, but the document is not empty
          have hlength := List.length_pos_iff.mpr (hne text rfl)
          rw [beq_iff_eq] at hsaved
          omega
      | some count =>
          cases h
          refine ⟨fun other hother => update_of_ne hother _ _, fun hsaved => ?_⟩
          rw [beq_iff_eq] at hsaved
          have hwhole : text.take count = text :=
            (List.take_prefix count text).eq_of_length hsaved
          refine ⟨text, rfl, ?_⟩
          rw [update_self, hwhole]

include hactive

theorem commitLocked_agrees
    (hne : temporary ≠ target) {promotedFlushed : Bool}
    (h : commitLocked temporary target attempts promotedFlushed w = (returned, after)) :
    Agrees target w.state.dataBackup w returned after := by
  obtain ⟨-, hclosed, hlive⟩ := dataTxCommit_spec hactive
  unfold commitLocked dataSave at h
  cases hsave : saveDocument temporary attempts.write (dataDocument w.state.live) w.disk with
  | mk saved disk =>
      obtain ⟨hothers, hsaved⟩ := saveDocument_spec (fun _ => dataDocument_ne_nil) hsave
      have htarget := hothers target hne.symm
      rw [hsave] at h
      dsimp only at h
      by_cases hfailed : (!saved || !attempts.flushTemporary) = true
      · rw [if_pos hfailed] at h
        exact abandon_agrees hactive hne htarget h
      · rw [if_neg hfailed] at h
        simp only [Bool.or_eq_true, Bool.not_eq_true', not_or, Bool.not_eq_false] at hfailed
        obtain ⟨document, hdocument, htemporary⟩ := hsaved hfailed.1
        rw [fileReplaceAtomic, htemporary] at h
        cases hreplace : attempts.replace with
        | false =>
            rw [hreplace] at h
            exact abandon_agrees hactive hne htarget h
        | true =>
            -- from here on the target has the document, so the model must be kept
            have hpromoted : update (update disk temporary none) target
                (some document) target = some document := update_self ..
            rw [hreplace] at h
            simp only [if_true] at h
            split_ifs at h
            · cases h
              exact ⟨hclosed, .inr ⟨hlive, document, hdocument, hpromoted⟩⟩
            · cases h
              exact ⟨hclosed, .inr ⟨hlive, document, hdocument, hpromoted⟩⟩
            · cases h
              exact ⟨hclosed, .inr ⟨hlive, document, hdocument, hpromoted⟩⟩

theorem commitWith_agrees
    (hne : temporary ≠ target) (hlock : lock ≠ target) {locked promotedFlushed : Bool}
    (h : commitWith temporary target lock attempts locked promotedFlushed w = (returned, after)) :
    Agrees target w.state.dataBackup w returned after := by
  unfold commitWith at h
  split_ifs at h
  · obtain ⟨hclosed, hlive⟩ := dataTxRollback_spec hactive
    cases h
    exact ⟨hclosed, .inl ⟨rfl, hlive, rfl⟩⟩
  · have htarget : fileLock lock w.disk target = w.disk target :=
      update_of_ne hlock.symm _ _
    have hlocked : ({ w with disk := fileLock lock w.disk } : World).state.dataTransactionActive =
        true := hactive
    have hcommit := commitLocked_agrees hlocked hne h
    refine ⟨hcommit.closed, hcommit.agrees.imp_left ?_⟩
    intro hagrees
    exact ⟨hagrees.1, hagrees.2.1, hagrees.2.2.trans htarget⟩

/-- For the model a durable commit is one of the four outcomes of `App.dataTxCommitDurable`. -/
theorem commitWith_outcome
    {locked promotedFlushed : Bool}
    (h : commitWith temporary target lock attempts locked promotedFlushed w = (returned, after)) :
    ∃ outcome, App.dataTxCommitDurable outcome w.state = (returned, after.state) := by
  have hrollback : App.dataTxCommitDurable .failed w.state =
      (false, (dataTxRollback w.state).2) := by
    rw [App.dataTxCommitDurable, if_neg (by simp [hactive])]
  have huncertain : App.dataTxCommitDurable .uncertain w.state =
      (false, (dataTxCommit w.state).2) := by
    rw [App.dataTxCommitDurable, if_neg (by simp [hactive])]
  have hdone : App.dataTxCommitDurable .done w.state = dataTxCommit w.state := by
    rw [App.dataTxCommitDurable, if_neg (by simp [hactive])]
  -- before the target is replaced a failure rolls back, afterwards the outcome is uncertain
  cases locked with
  | false =>
      cases h
      exact ⟨.failed, hrollback⟩
  | true =>
      unfold commitWith commitLocked abandon at h
      rcases hsave : dataSave temporary attempts.write w.state.live (fileLock lock w.disk) with
        ⟨saved, disk⟩
      simp only [Bool.not_true, Bool.false_eq_true, if_false, hsave] at h
      by_cases hfailed : (!saved || !attempts.flushTemporary) = true
      · rw [if_pos hfailed] at h
        cases h
        exact ⟨.failed, hrollback⟩
      · rw [if_neg hfailed] at h
        rcases hreplace : fileReplaceAtomic temporary target attempts.replace disk with
          ⟨replaced, disk⟩
        rw [hreplace] at h
        cases replaced with
        | false =>
            cases h
            exact ⟨.failed, hrollback⟩
        | true =>
            dsimp only at h
            split_ifs at h
            · cases h
              exact ⟨.uncertain, huncertain⟩
            · cases h
              exact ⟨.uncertain, huncertain⟩
            · cases h
              exact ⟨.done, hdone⟩

theorem dataTxCommitDurableDirectory_agrees
    {paths : Paths} {directory : Option Text} {directoryExists : Bool}
    (h : dataTxCommitDurableDirectory paths directory directoryExists attempts w =
      (returned, after)) :
    (returned = false ∧ after = w) ∨ ∃ temporary target lock,
      paths.given = some (temporary, target, lock) ∧
        Agrees target w.state.dataBackup w returned after := by
  unfold dataTxCommitDurableDirectory at h
  rw [if_neg (by simp [hactive])] at h
  split at h
  · next temporary target lock _ hgiven _ =>
      split_ifs at h with hrefused
      · cases h
        exact .inl ⟨rfl, rfl⟩
      · simp only [Bool.or_eq_true, not_or, beq_iff_eq] at hrefused
        exact .inr ⟨temporary, target, lock, hgiven,
          commitWith_agrees hactive hrefused.1.1.2 (Ne.symm hrefused.2) h⟩
  · cases h
    exact .inl ⟨rfl, rfl⟩

theorem dataTxCommitDurableRetry_agrees
    {paths : Paths} {maxAttempts : ℕ} (hgiven : paths.given = some (temporary, target, lock))
    (hne : temporary ≠ target) (hlock : lock ≠ target)
    (h : dataTxCommitDurableRetry paths maxAttempts attempts w = (returned, after)) :
    Agrees target w.state.dataBackup w returned after := by
  unfold dataTxCommitDurableRetry at h
  rw [if_neg (by simp [hactive]), hgiven] at h
  exact commitWith_agrees hactive hne hlock h

end Calls

/-! ## Every run -/

/-- The copy of an open data transaction is what its begin saw. -/
def Kept (x : AppSession) : Prop :=
  x.state.dataTransactionActive = true → x.history.data = some x.state.dataBackup

/-- Nothing of the data transaction has changed. -/
structure Frames (s s' : AppState) : Prop where
  active : s'.dataTransactionActive = s.dataTransactionActive
  backup : s'.dataBackup = s.dataBackup

namespace Frames

variable {s s' s'' : AppState}

theorem refl (s : AppState) : Frames s s := ⟨rfl, rfl⟩

theorem trans (h : Frames s s') (h' : Frames s' s'') : Frames s s'' :=
  ⟨h'.active.trans h.active, h'.backup.trans h.backup⟩

theorem bumpRevision (h : Frames s s') : Frames s s'.bumpRevision := by
  unfold AppState.bumpRevision
  split
  · exact ⟨h.active, h.backup⟩
  · exact h

theorem stateTxBegin (s : AppState) : Frames s (App.stateTxBegin s).2 := by
  unfold App.stateTxBegin
  split <;> exact ⟨rfl, rfl⟩

theorem stateTxCommit (s : AppState) : Frames s (App.stateTxCommit s).2 := by
  unfold App.stateTxCommit
  split <;> exact ⟨rfl, rfl⟩

theorem stateTxRollback (s : AppState) : Frames s (App.stateTxRollback s).2 := by
  unfold App.stateTxRollback
  split
  · exact refl s
  · exact bumpRevision ⟨rfl, rfl⟩

theorem tableTxBegin (tableId : ℤ) (s : AppState) : Frames s (App.tableTxBegin tableId s).2 := by
  rcases tableTxBegin_cases tableId s with hrun | ⟨id, -, -, -, hrun⟩
  · rw [hrun]
    exact refl s
  · rw [hrun]
    exact ⟨rfl, rfl⟩

theorem tableTxBeginAll (s : AppState) : Frames s (App.tableTxBeginAll s).2 := by
  unfold App.tableTxBeginAll
  split <;> exact ⟨rfl, rfl⟩

theorem tableTxCommit (s : AppState) : Frames s (App.tableTxCommit s).2 := by
  unfold App.tableTxCommit
  split <;> exact ⟨rfl, rfl⟩

theorem tableTxCommitAll (s : AppState) : Frames s (App.tableTxCommitAll s).2 := by
  unfold App.tableTxCommitAll
  split <;> exact ⟨rfl, rfl⟩

theorem tableTxRollback (s : AppState) : Frames s (App.tableTxRollback s).2 := by
  unfold App.tableTxRollback
  split
  · exact refl s
  · split <;> exact ⟨rfl, rfl⟩

theorem tableTxRollbackAll (s : AppState) : Frames s (App.tableTxRollbackAll s).2 := by
  unfold App.tableTxRollbackAll
  split <;> exact ⟨rfl, rfl⟩

theorem migrationReset (h : Frames s s') : Frames s (App.migrationReset s') :=
  ⟨h.active, h.backup⟩

theorem migrationBegin (tableId expected target : ℤ) (s : AppState) :
    Frames s (App.migrationBegin tableId expected target s).2 := by
  rcases migrationBegin_cases tableId expected target s with hrun | ⟨id, -, -, hrun⟩
  · rw [hrun]
    exact refl s
  · rw [hrun]
    exact ⟨rfl, rfl⟩

theorem migrationRenameColumn (first second : Text) (s : AppState) :
    Frames s (App.migrationRenameColumn first second s).2 := by
  unfold App.migrationRenameColumn
  split <;> exact ⟨rfl, rfl⟩

theorem migrationSetColumnType (name : Text) (kind : ℤ) (s : AppState) :
    Frames s (App.migrationSetColumnType name kind s).2 := by
  unfold App.migrationSetColumnType
  split <;> exact ⟨rfl, rfl⟩

theorem setSchemaVersion (tableId version : ℤ) (s : AppState) :
    Frames s (App.setSchemaVersion tableId version s).2 := by
  unfold App.setSchemaVersion
  split
  · exact refl s
  · split <;> exact ⟨rfl, rfl⟩

theorem applyOp (tableId : ℤ) (op : MigrationOp) (s : AppState) :
    Frames s (App.applyOp tableId op s).2 := by
  cases hid : tableOf tableId with
  | none =>
      cases op <;> · simp only [App.applyOp, findColumn, hid, Option.bind_none]; exact refl s
  | some id =>
      rw [applyOp_eq hid]
      cases op.apply (s.live.tables id) with
      | none => exact refl s
      | some => exact ⟨rfl, rfl⟩

theorem applyOps (tableId : ℤ) (ops : List MigrationOp) (s : AppState) :
    Frames s (App.applyOps tableId ops s).2 := by
  induction ops generalizing s with
  | nil => exact refl s
  | cons op rest ih =>
      have hop := applyOp tableId op s
      unfold App.applyOps
      split
      · next hrun => rwa [hrun] at hop
      · next s' hrun =>
          rw [hrun] at hop
          exact hop.trans (ih s')

theorem abandonMigration (s : AppState) : Frames s (App.abandonMigration s).2 :=
  (tableTxRollback s).migrationReset

theorem migrationCommit (s : AppState) : Frames s (App.migrationCommit s).2 := by
  unfold App.migrationCommit
  split
  · exact refl s
  · dsimp only
    split
    · exact abandonMigration s
    · split
      · exact abandonMigration s
      · have happly := applyOps s.migration.tableId s.migration.operations s
        split
        · next s' hrun =>
            rw [hrun] at happly
            exact happly.trans (abandonMigration s')
        · next s' hrun =>
            rw [hrun] at happly
            have hversion := setSchemaVersion s.migration.tableId s'.migration.targetVersion s'
            split
            · next s'' hrun =>
                rw [hrun] at hversion
                exact (happly.trans hversion).trans (abandonMigration s'')
            · next s'' hrun =>
                rw [hrun] at hversion
                have hcommit := tableTxCommit s''
                split
                · next last hrun =>
                    rw [hrun] at hcommit
                    exact ((happly.trans hversion).trans hcommit).trans (abandonMigration last)
                · next last hrun =>
                    rw [hrun] at hcommit
                    exact ((happly.trans hversion).trans hcommit).migrationReset

theorem migrationRollback (s : AppState) : Frames s (App.migrationRollback s).2 := by
  unfold App.migrationRollback
  split
  · exact refl s
  · exact (tableTxRollback s).migrationReset

end Frames

namespace Kept

variable {x : AppSession} {s' : AppState}

/-- A call that leaves the data transaction alone and records nothing of it keeps the copy. -/
theorem of_frames (h : Kept x) {call : PublicCall} (hframes : Frames x.state (call.run x.state).2)
    (hrecord : (call.record x.state x.history).data = x.history.data) : Kept (x.after call) := by
  intro hactive
  have hhistory : (x.after call).history.data = x.history.data := by
    unfold AppSession.after
    dsimp only
    split
    · exact hrecord
    · rfl
  calc (x.after call).history.data = x.history.data := hhistory
    _ = some x.state.dataBackup := h (hframes.active ▸ hactive)
    _ = some (x.after call).state.dataBackup := congrArg some hframes.backup.symm

theorem of_closed (hclosed : s'.dataTransactionActive = false) (history : History) :
    Kept ⟨s', history⟩ := by
  intro hactive
  rw [hclosed] at hactive
  exact absurd hactive (by decide)

theorem dataTxBegin (h : Kept x) : Kept
    { state := (App.dataTxBegin x.state).2
      history := if (App.dataTxBegin x.state).1 then { x.history with data := some x.state.live }
        else x.history } := by
  unfold App.dataTxBegin
  split
  · exact h
  · exact fun _ => rfl

theorem dataTxCommit (s : AppState) : (App.dataTxCommit s).2.dataTransactionActive = false := by
  cases hactive : s.dataTransactionActive with
  | false => rwa [App.dataTxCommit, hactive]
  | true => exact (dataTxCommit_spec hactive).2.1

theorem dataTxRollback (s : AppState) :
    (App.dataTxRollback s).2.dataTransactionActive = false := by
  cases hactive : s.dataTransactionActive with
  | false => rwa [App.dataTxRollback, hactive]
  | true => exact (dataTxRollback_spec hactive).1

theorem after (h : Kept x) (call : PublicCall) : Kept (x.after call) := by
  cases call with
  | stateTxBegin => exact h.of_frames (.stateTxBegin _) rfl
  | stateTxCommit => exact h.of_frames (.stateTxCommit _) rfl
  | stateTxRollback => exact h.of_frames (.stateTxRollback _) rfl
  | dataTxBegin => exact h.dataTxBegin
  | dataTxBeginIfRevision =>
      simp only [AppSession.after, PublicCall.run, App.dataTxBeginIfRevision]
      split
      · exact h
      · exact h.dataTxBegin
  | dataTxCommit => exact of_closed (dataTxCommit x.state) _
  | dataTxRollback => exact of_closed (dataTxRollback x.state) _
  | dataTxSaveAtomic =>
      simp only [AppSession.after, PublicCall.run, App.dataTxSaveAtomic]
      split
      · exact h
      · split
        · exact of_closed (dataTxRollback x.state) _
        · exact of_closed (dataTxCommit x.state) _
  | dataTxCommitDurable outcome =>
      simp only [AppSession.after, PublicCall.run, App.dataTxCommitDurable]
      split
      · exact h
      · cases outcome with
        | refused => exact h
        | failed => exact of_closed (dataTxRollback x.state) _
        | uncertain | done => exact of_closed (dataTxCommit x.state) _
  | tableTxBegin tableId => exact h.of_frames (.tableTxBegin tableId _) rfl
  | tableTxBeginAll => exact h.of_frames (.tableTxBeginAll _) rfl
  | tableTxCommit => exact h.of_frames (.tableTxCommit _) rfl
  | tableTxCommitAll => exact h.of_frames (.tableTxCommitAll _) rfl
  | tableTxRollback => exact h.of_frames (.tableTxRollback _) rfl
  | tableTxRollbackAll => exact h.of_frames (.tableTxRollbackAll _) rfl
  | migrationBegin tableId expected target =>
      exact h.of_frames (.migrationBegin tableId expected target _) rfl
  | migrationRenameColumn first second =>
      exact h.of_frames (.migrationRenameColumn first second _) rfl
  | migrationSetColumnType name kind =>
      exact h.of_frames (.migrationSetColumnType name kind _) rfl
  | migrationCommit => exact h.of_frames (.migrationCommit _) rfl
  | migrationRollback => exact h.of_frames (.migrationRollback _) rfl
  | edit => exact h.of_frames ⟨rfl, rfl⟩ rfl

end Kept

theorem dataBackup_of_reachable {x : AppSession} (h : transactions.Reachable x)
    (hactive : x.state.dataTransactionActive = true) :
    x.history.data = some x.state.dataBackup := by
  refine h.invariant (P := Kept) (fun x hx => ?_) (fun x event x' hx hstep => ?_) hactive
  · cases hx
    exact Kept.of_closed rfl _
  · obtain ⟨call, -, rfl⟩ := hstep
    exact hx.after call

/-! ## What is promised -/

/-- A durable commit in a session with an open data transaction.  With a path missing nothing
changes; else the transaction is closed, and the model and the target are both what they were
before the transaction or both what it has made of the model, which they are if the call
succeeds. -/
theorem durable_agrees {x : AppSession} (hreachable : transactions.Reachable x)
    (hactive : x.state.dataTransactionActive = true) (disk : Disk) (paths : Paths)
    (attempts : Attempts) {returned : Bool} {after : World}
    (hcall : dataTxCommitDurable paths attempts ⟨disk, x.state⟩ = (returned, after)) :
    (paths.given = none → returned = false ∧ after = ⟨disk, x.state⟩) ∧
    ∀ temporary target lock, paths.given = some (temporary, target, lock) →
      [temporary, target, lock].Nodup →
      ∃ snapshot, x.history.data = some snapshot ∧
        Agrees target snapshot ⟨disk, x.state⟩ returned after := by
  unfold dataTxCommitDurable at hcall
  rw [if_neg (by simp [hactive])] at hcall
  constructor
  · intro hgiven
    rw [hgiven] at hcall
    cases hcall
    exact ⟨rfl, rfl⟩
  · intro temporary target lock hgiven hdistinct
    rw [hgiven] at hcall
    simp only [List.nodup_cons, List.mem_cons, List.not_mem_nil, or_false, not_or] at hdistinct
    obtain ⟨⟨hne, -⟩, hlock, -⟩ := hdistinct
    exact ⟨_, dataBackup_of_reachable hreachable hactive,
      commitWith_agrees (w := ⟨disk, x.state⟩) hactive hne (Ne.symm hlock) hcall⟩

/-- Without a replacement of the target the transaction is given up, whether the document fits or
not. -/
theorem commitLocked_of_replace (temporary target : Text) {attempts : Attempts} (flushed : Bool)
    (w : World) (h : attempts.replace = false) :
    ∃ disk, commitLocked temporary target attempts flushed w =
      abandon temporary attempts { w with disk } := by
  unfold commitLocked
  rcases dataSave temporary attempts.write w.state.live w.disk with ⟨saved, disk⟩
  have hreplace : fileReplaceAtomic temporary target attempts.replace disk = (false, disk) := by
    rw [h]
    unfold fileReplaceAtomic
    split <;> rfl
  simp only [hreplace]
  split <;> exact ⟨disk, rfl⟩

/-- A list is written in a transaction. -/
def edited : AppSession :=
  (AppSession.initial.after .dataTxBegin).after (.edit
    { AppState.emptyContents with lists := fun _ => [[97]] })

/-- All goes well but the replacement of the target. -/
def replaceFails : Attempts := ⟨fun _ => true, some 4194304, true, false, true, true, true, true⟩

/-- The commit fails, and the list is empty again. -/
theorem durable_agrees_edited :
    ∃ after, dataTxCommitDurable ⟨some [1], some [2], some [3]⟩ replaceFails
        ⟨fun _ => none, edited.state⟩ = (false, after) ∧
      after.state.live.lists ⟨0, by decide⟩ = [] ∧
        ∃ snapshot, edited.history.data = some snapshot ∧
          Agrees [2] snapshot ⟨fun _ => none, edited.state⟩ false after := by
  have hnew : (transactions.restrict fun _ _ _ => True).Reachable AppSession.initial :=
    transactions_new
  have hreachable : transactions.Reachable edited :=
    (transactions_after (transactions_after hnew trivial) trivial).of_restrict
  have hactive : edited.state.dataTransactionActive = true := rfl
  obtain ⟨disk, hcommit⟩ := commitLocked_of_replace [1] [2] true
    ⟨fileLock [3] fun _ => none, edited.state⟩ (show replaceFails.replace = false from rfl)
  have hcall : dataTxCommitDurable ⟨some [1], some [2], some [3]⟩ replaceFails
      ⟨fun _ => none, edited.state⟩ = abandon [1] replaceFails ⟨disk, edited.state⟩ := by
    have hgiven : Paths.given ⟨some [1], some [2], some [3]⟩ = some ([1], [2], [3]) := rfl
    rw [← hcommit, dataTxCommitDurable, if_neg (by simp [hactive]), hgiven]
    dsimp only
    rw [commitWith, if_neg (by decide)]
    rfl
  exact ⟨_, hcall, rfl,
    (durable_agrees hreachable hactive _ _ _ hcall).2 [1] [2] [3] rfl (by decide)⟩

end Durable

end Jadren.App

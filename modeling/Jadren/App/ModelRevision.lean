import Jadren.App.StateRuns
import Jadren.Library.PrefixCodes
import Jadren.Runtime.Removal
import Mathlib.Data.List.GetD

/-!
# The revision of the model

The revision of the whole model is a hash of 64 bits of everything that can be seen of it: the
entries of the state that are in use, the items of the lists, the schemas and rows of the tables.
The bytes that are hashed say exactly that much (`stream_eq_iff`): each part has its index in front,
and its length or its count if it has one.  An entry that is not in use adds its kind, which says
nothing since it is zero in every run (`ok_of_reachable`).
-/

open Jadren.Runtime (bytesOfValue length_bytesOfValue valueOfBytes_bytesOfValue)

namespace Jadren.App

namespace ModelRevision

open StateStore (Entry Slot Store StoreCall kindInt kindUint kindBool kindText kindFloat
  clearEntries clearEntry keyMax textMax)
open List

structure Model where
  entries : StateStore.Entries
  lists : Lists
  tables : Tables

/-! ## The hash -/

def dataHashBytes (hash : UInt64) (data : Text) : UInt64 :=
  data.foldl (fun hash byte => (hash ^^^ byte.toUInt64) * 1099511628211) hash

/-- The value of an entry, by its kind. -/
def valuePieces (entry : Entry) : List Text :=
  if entry.kind = kindInt then [bytesOfValue 8 entry.intValue.toBitVec.toNat]
  else if entry.kind = kindUint then [bytesOfValue 8 entry.uintValue.toNat]
  else if entry.kind = kindBool then [[entry.boolValue.toUInt8]]
  else if entry.kind = kindFloat then [bytesOfValue 8 entry.floatValue.toNat]
  else if entry.kind = kindText then [bytesOfValue 8 entry.text.length, entry.text]
  else []

def entryPieces (slot : Slot) (entry : Entry) : List Text :=
  [bytesOfValue 4 slot, [entry.used.toUInt8], [UInt8.ofNat entry.kind]] ++
    if entry.used then [bytesOfValue 8 entry.key.length, entry.key] ++ valuePieces entry else []

def itemPieces (index : ℕ) (item : Text) : List Text :=
  [bytesOfValue 4 index, bytesOfValue 8 item.length, item]

def listPieces (id : Fin listMaxLists) (items : List Text) : List Text :=
  [bytesOfValue 4 id, bytesOfValue 8 items.length] ++
    (range items.length).flatMap fun index => itemPieces index (items.getD index [])

def columnTypeByte : ColumnKind → UInt8
  | .text => 0
  | .int => 1
  | .uint => 2
  | .bool => 3
  | .float => 4

def columnPieces (t : Table) (column : Column) : List Text :=
  [bytesOfValue 4 column, [columnTypeByte (t.columnTypes column)]] ++
    [bytesOfValue 8 (t.columnNames column).length, t.columnNames column]

def columns : List Column := finRange tableMaxColumns

/-- The rows that are there. -/
def rows (t : Table) : List (Fin tableMaxRows) := (finRange tableMaxRows).take t.rowCount

/-- An `int` in four bytes. -/
def intBytes (value : ℤ) : Text := bytesOfValue 4 (value % 2 ^ 32).toNat

def tablePieces (id : TableId) (t : Table) : List Text :=
  [bytesOfValue 4 id, intBytes t.schemaVersion, bytesOfValue 8 t.rowCount] ++
    columns.flatMap (columnPieces t) ++
    (rows t).flatMap fun row => columns.flatMap fun column =>
      itemPieces row.val (t.cells row column)

/-- What is hashed, in order. -/
def modelPieces (m : Model) : List Text :=
  (StateStore.slots.flatMap fun slot => entryPieces slot (m.entries slot)) ++
    ((finRange listMaxLists).flatMap fun id => listPieces id (m.lists id)) ++
    (finRange tableMaxTables).flatMap fun id => tablePieces id (m.tables id)

def revisionStart : UInt64 := 1469598103934665603

def dataModelRevision (m : Model) : UInt64 := (modelPieces m).foldl dataHashBytes revisionStart

/-- The bytes that are hashed. -/
def stream (m : Model) : Text := (modelPieces m).flatten

theorem dataModelRevision_eq (m : Model) :
    dataModelRevision m = dataHashBytes revisionStart (stream m) := by
  unfold dataModelRevision stream dataHashBytes
  rw [foldl_flatten]

/-! ## What is to be seen -/

/-- The values are those of the same kind. -/
def SameValue (entry entry' : Entry) : Prop :=
  if entry.kind = kindInt then entry.intValue = entry'.intValue
  else if entry.kind = kindUint then entry.uintValue = entry'.uintValue
  else if entry.kind = kindBool then entry.boolValue = entry'.boolValue
  else if entry.kind = kindFloat then entry.floatValue = entry'.floatValue
  else if entry.kind = kindText then entry.text = entry'.text
  else True

/-- Both entries are in use, with the same key, kind and value, or neither is. -/
structure SameEntry (entry entry' : Entry) : Prop where
  used : entry.used = entry'.used
  key : entry.used = true → entry.key = entry'.key
  kind : entry.used = true → entry.kind = entry'.kind
  value : entry.used = true → SameValue entry entry'

structure SameTable (t t' : Table) : Prop where
  schemaVersion : t.schemaVersion = t'.schemaVersion
  rowCount : t.rowCount = t'.rowCount
  columnTypes : t.columnTypes = t'.columnTypes
  columnNames : t.columnNames = t'.columnNames
  cells : ∀ row : Fin tableMaxRows, row < t.rowCount → t.cells row = t'.cells row

structure Same (m m' : Model) : Prop where
  entries : ∀ slot, SameEntry (m.entries slot) (m'.entries slot)
  lists : m.lists = m'.lists
  tables : ∀ id, SameTable (m.tables id) (m'.tables id)

/-! ## What the fields can hold -/

structure EntryOk (entry : Entry) : Prop where
  kind_le : entry.kind ≤ kindFloat
  key_le : entry.key.length ≤ keyMax
  text_le : entry.text.length ≤ textMax
  unused : entry.used = false → entry.kind = 0

def listMaxItems : ℕ := 64

structure ListOk (items : List Text) : Prop where
  count_le : items.length ≤ listMaxItems
  text_le : ∀ item ∈ items, item.length ≤ listTextMax

structure TableOk (t : Table) : Prop where
  version_ge : -2 ^ 31 ≤ t.schemaVersion
  version_lt : t.schemaVersion < 2 ^ 31
  name_le : ∀ column, (t.columnNames column).length ≤ listTextMax
  cell_le : ∀ row column, (t.cells row column).length ≤ listTextMax

structure ModelOk (m : Model) : Prop where
  entries : ∀ slot, EntryOk (m.entries slot)
  lists : ∀ id, ListOk (m.lists id)
  tables : ∀ id, TableOk (m.tables id)

/-! ## The parts are read back -/

section Parts

variable {α : Type} {given : α → α → Prop}

theorem bytesOfValue_inj {count m n : ℕ} (hm : m < 256 ^ count) (hn : n < 256 ^ count) :
    bytesOfValue count m = bytesOfValue count n ↔ m = n := by
  constructor
  · intro h
    rw [← valueOfBytes_bytesOfValue count hm, h, valueOfBytes_bytesOfValue count hn]
  · intro h
    rw [h]

theorem readsBack_number (count : ℕ) (f : α → ℕ)
    (hlt : ∀ a b, given a b → f a < 256 ^ count ∧ f b < 256 ^ count) :
    ReadsBack given (fun a b => f a = f b) (fun a => bytesOfValue count (f a)) :=
  .fixed (fun a b _ => by rw [length_bytesOfValue, length_bytesOfValue])
    fun a b hab => bytesOfValue_inj (hlt a b hab).1 (hlt a b hab).2

theorem readsBack_text (f : α → Text)
    (hlt : ∀ a b, given a b → (f a).length < 256 ^ 8 ∧ (f b).length < 256 ^ 8) :
    ReadsBack given (fun a b => f a = f b) (fun a => bytesOfValue 8 (f a).length ++ f a) := by
  have hlength : ReadsBack given (fun a b => (f a).length = (f b).length)
      (fun a => bytesOfValue 8 (f a).length) := readsBack_number 8 (fun a => (f a).length) hlt
  refine (hlength.append (.words f fun a b hab => hab.2)).congr fun a b _ => ?_
  constructor
  · exact fun h => h.2
  · exact fun h => ⟨congrArg List.length h, h⟩

theorem readsBack_byte (f : α → UInt8) (same : α → α → Prop)
    (hsame : ∀ a b, given a b → (f a = f b ↔ same a b)) :
    ReadsBack given same (fun a => [f a]) :=
  .fixed (fun _ _ _ => rfl) fun a b hab => by rw [singleton_inj, hsame a b hab]

/-- A number and a text behind a number that is the same for all values. -/
theorem readsBack_item (index : ℕ) (f : α → Text)
    (hlt : ∀ a b, given a b → (f a).length < 256 ^ 8 ∧ (f b).length < 256 ^ 8) :
    ReadsBack given (fun a b => f a = f b) (fun a => (itemPieces index (f a)).flatten) := by
  refine ((readsBack_text f hlt).prefixed (bytesOfValue 4 index)).of_eq fun a => ?_
  rw [itemPieces, flatten_cons, flatten_cons, flatten_cons, flatten_nil,
    append_nil]

theorem readsBack_value :
    ReadsBack (fun a b => (EntryOk a ∧ EntryOk b) ∧ a.kind = b.kind) SameValue
      (fun entry => (valuePieces entry).flatten) := by
  have hkind : ∀ kind (a b : Entry), (EntryOk a ∧ EntryOk b) ∧ a.kind = b.kind →
      (a.kind = kind ↔ b.kind = kind) := by
    intro kind a b h
    rw [h.2]
  -- the kinds are tried in order, as in the source
  have hread : ReadsBack (fun a b => (EntryOk a ∧ EntryOk b) ∧ a.kind = b.kind) SameValue
      (fun entry => if entry.kind = kindInt then bytesOfValue 8 entry.intValue.toBitVec.toNat
        else if entry.kind = kindUint then bytesOfValue 8 entry.uintValue.toNat
        else if entry.kind = kindBool then [entry.boolValue.toUInt8]
        else if entry.kind = kindFloat then bytesOfValue 8 entry.floatValue.toNat
        else if entry.kind = kindText then bytesOfValue 8 entry.text.length ++ entry.text
        else []) := by
    refine .ite (fun entry : Entry => entry.kind = kindInt) (hkind kindInt) ?_ ?_
    · refine (readsBack_number 8 _ fun a b _ => ⟨BitVec.isLt _, BitVec.isLt _⟩).congr
        fun a b _ => ?_
      rw [BitVec.toNat_inj, Int64.toBitVec_inj]
    refine .ite (fun entry : Entry => entry.kind = kindUint) (hkind kindUint) ?_ ?_
    · refine (readsBack_number 8 _ fun a b _ => ⟨UInt64.toNat_lt _, UInt64.toNat_lt _⟩).congr
        fun a b _ => ?_
      rw [UInt64.toNat_inj]
    refine .ite (fun entry : Entry => entry.kind = kindBool) (hkind kindBool) ?_ ?_
    · refine readsBack_byte _ _ fun a b _ => ?_
      cases a.boolValue <;> cases b.boolValue <;> decide
    refine .ite (fun entry : Entry => entry.kind = kindFloat) (hkind kindFloat) ?_ ?_
    · refine (readsBack_number 8 _ fun a b _ => ⟨BitVec.isLt _, BitVec.isLt _⟩).congr
        fun a b _ => ?_
      rw [BitVec.toNat_inj]
    refine .ite (fun entry : Entry => entry.kind = kindText) (hkind kindText) ?_ (.nil _)
    exact readsBack_text Entry.text fun a b h =>
      ⟨h.1.1.text_le.trans_lt (by decide), h.1.2.text_le.trans_lt (by decide)⟩
  refine hread.of_eq fun entry => ?_
  unfold valuePieces
  split_ifs <;> simp

/-- Whether an entry is in use and its kind come before anything that depends on them. -/
theorem readsBack_entry (slot : Slot) :
    ReadsBack (fun a b => EntryOk a ∧ EntryOk b) SameEntry
      (fun entry => (entryPieces slot entry).flatten) := by
  have hused : ReadsBack (fun a b => EntryOk a ∧ EntryOk b) (fun a b => a.used = b.used)
      (fun entry => [entry.used.toUInt8]) := by
    refine readsBack_byte _ _ fun a b _ => ?_
    cases a.used <;> cases b.used <;> decide
  have hkind : ReadsBack (fun a b => (EntryOk a ∧ EntryOk b) ∧ a.used = b.used)
      (fun a b => a.kind = b.kind) (fun entry => [UInt8.ofNat entry.kind]) := by
    refine readsBack_byte _ _ fun a b h => ?_
    have ha : a.kind < 6 := Nat.lt_succ_of_le h.1.1.kind_le
    have hb : b.kind < 6 := Nat.lt_succ_of_le h.1.2.kind_le
    rw [← UInt8.toNat_inj, UInt8.toNat_ofNat', UInt8.toNat_ofNat']
    omega
  have hkey : ReadsBack
      (fun a b => ((EntryOk a ∧ EntryOk b) ∧ a.used = b.used) ∧ a.kind = b.kind)
      (fun a b => a.key = b.key)
      (fun entry => bytesOfValue 8 entry.key.length ++ entry.key) :=
    readsBack_text Entry.key fun a b h =>
      ⟨h.1.1.1.key_le.trans_lt (by decide), h.1.1.2.key_le.trans_lt (by decide)⟩
  have hvalue := hkey.append (readsBack_value.mono fun a b h => ⟨h.1.1.1, h.1.2⟩)
  have hcond := ReadsBack.ite (fun entry : Entry => entry.used = true)
    (fun a b h => by rw [h.1.2]) hvalue (.nil _)
  have hboth := (hused.append (hkind.append hcond)).prefixed (bytesOfValue 4 slot)
  refine (hboth.congr fun a b h => ?_).of_eq fun entry => ?_
  · cases ha : a.used with
    | true =>
        simp only [if_true]
        constructor
        · intro hsame
          exact ⟨ha.trans hsame.1, fun _ => hsame.2.2.1, fun _ => hsame.2.1, fun _ => hsame.2.2.2⟩
        · intro hsame
          exact ⟨ha ▸ hsame.used, hsame.kind ha, hsame.key ha, hsame.value ha⟩
    | false =>
        -- the kinds of entries that are not in use are zero
        simp only [Bool.false_eq_true, if_false, and_true]
        constructor
        · intro hsame
          refine ⟨ha.trans hsame.1, fun hused => ?_, fun hused => ?_, fun hused => ?_⟩ <;>
            exact absurd (ha.symm.trans hused) (by decide)
        · intro hsame
          have hb : b.used = false := hsame.used ▸ ha
          exact ⟨hb.symm, by rw [h.1.unused ha, h.2.unused hb]⟩
  · unfold entryPieces
    split_ifs <;> simp

theorem ListOk.getD_le {items : List Text} (h : ListOk items) (index : ℕ) :
    (items.getD index []).length < 256 ^ 8 := by
  rw [getD_eq_getElem?_getD]
  cases hitem : items[index]? with
  | none => decide
  | some item => exact (h.text_le item (mem_of_getElem? hitem)).trans_lt (by decide)

theorem flatten_pieces (indices : List α) (pieces : α → List Text) :
    (indices.flatMap pieces).flatten = indices.flatMap fun i => (pieces i).flatten := by
  simp only [flatMap_def, flatten_flatten, map_map]
  rfl

theorem readsBack_list (id : Fin listMaxLists) :
    ReadsBack (fun a b => ListOk a ∧ ListOk b) (fun a b => a = b)
      (fun items => (listPieces id items).flatten) := by
  have hcount : ReadsBack (fun a b => ListOk a ∧ ListOk b) (fun a b => a.length = b.length)
      (fun items => bytesOfValue 8 items.length) :=
    readsBack_number 8 _ fun a b h =>
      ⟨h.1.count_le.trans_lt (by decide), h.2.count_le.trans_lt (by decide)⟩
  have hitems : ReadsBack (fun a b => (ListOk a ∧ ListOk b) ∧ a.length = b.length)
      (fun a b => ∀ index ∈ range a.length, a.getD index [] = b.getD index [])
      (fun items => (range items.length).flatMap fun index =>
        (itemPieces index (items.getD index [])).flatten) := by
    refine .flatMap_of_eq (fun items : List Text => range items.length) (fun a b h => by rw [h.2])
      fun index => ?_
    refine readsBack_item index (fun items : List Text => items.getD index []) ?_
    intro a b h
    exact ⟨h.1.1.getD_le index, h.1.2.getD_le index⟩
  refine (((hcount.append hitems).prefixed (bytesOfValue 4 id)).congr fun a b _ => ?_).of_eq
    fun items => ?_
  · constructor
    · intro h
      refine ext_getElem h.1 fun index ha hb => ?_
      have hsame := h.2 index (mem_range.mpr ha)
      rwa [getD_eq_getElem _ _ ha, getD_eq_getElem _ _ hb] at hsame
    · rintro rfl
      exact ⟨rfl, fun _ _ => rfl⟩
  · rw [listPieces, flatten_append, flatten_pieces]
    simp

theorem readsBack_column (column : Column) :
    ReadsBack (fun a b => TableOk a ∧ TableOk b)
      (fun a b => a.columnTypes column = b.columnTypes column ∧
        a.columnNames column = b.columnNames column)
      (fun t => (columnPieces t column).flatten) := by
  have htype : ReadsBack (fun a b => TableOk a ∧ TableOk b)
      (fun a b => a.columnTypes column = b.columnTypes column)
      (fun t => [columnTypeByte (t.columnTypes column)]) := by
    refine readsBack_byte _ _ fun a b _ => ?_
    cases a.columnTypes column <;> cases b.columnTypes column <;> decide
  have hname : ReadsBack
      (fun a b => (TableOk a ∧ TableOk b) ∧ a.columnTypes column = b.columnTypes column)
      (fun a b => a.columnNames column = b.columnNames column)
      (fun t => bytesOfValue 8 (t.columnNames column).length ++ t.columnNames column) :=
    readsBack_text _ fun a b h =>
      ⟨(h.1.1.name_le column).trans_lt (by decide), (h.1.2.name_le column).trans_lt (by decide)⟩
  refine ((htype.append hname).prefixed (bytesOfValue 4 column)).of_eq fun t => ?_
  simp [columnPieces]

theorem readsBack_version :
    ReadsBack (fun a b => TableOk a ∧ TableOk b) (fun a b => a.schemaVersion = b.schemaVersion)
      (fun t => intBytes t.schemaVersion) := by
  have hlt : ∀ value : ℤ, (value % 2 ^ 32).toNat < 256 ^ 4 := by
    intro value
    have := Int.emod_lt_of_pos value (by decide : (0 : ℤ) < 2 ^ 32)
    omega
  refine (readsBack_number 4 _ fun a b _ => ⟨hlt _, hlt _⟩).congr fun a b h => ?_
  have ha := h.1.version_ge
  have ha' := h.1.version_lt
  have hb := h.2.version_ge
  have hb' := h.2.version_lt
  omega

theorem readsBack_rows :
    ReadsBack (fun a b => (TableOk a ∧ TableOk b) ∧ a.rowCount = b.rowCount)
      (fun a b => ∀ row ∈ rows a, ∀ column ∈ columns, a.cells row column = b.cells row column)
      (fun t => (rows t).flatMap fun row => columns.flatMap fun column =>
        (itemPieces row.val (t.cells row column)).flatten) := by
  refine .flatMap_of_eq rows (fun a b h => by rw [rows, rows, h.2]) fun row => ?_
  refine .flatMap columns fun column _ => ?_
  refine readsBack_item row.val (fun t : Table => t.cells row column) ?_
  intro a b h
  exact ⟨(h.1.1.cell_le row column).trans_lt (by decide),
    (h.1.2.cell_le row column).trans_lt (by decide)⟩

theorem mem_rows {t : Table} {row : Fin tableMaxRows} : row ∈ rows t ↔ row < t.rowCount := by
  unfold rows
  rw [mem_take_iff_getElem]
  constructor
  · rintro ⟨i, hi, rfl⟩
    rw [getElem_finRange]
    exact (lt_min_iff.mp hi).1
  · intro hrow
    refine ⟨row, lt_min hrow (by rw [length_finRange]; exact row.isLt), ?_⟩
    rw [getElem_finRange]
    rfl

theorem readsBack_table (id : TableId) :
    ReadsBack (fun a b => TableOk a ∧ TableOk b) SameTable
      (fun t => (tablePieces id t).flatten) := by
  have hcolumns : ReadsBack (fun a b => TableOk a ∧ TableOk b)
      (fun a b => ∀ column ∈ columns, a.columnTypes column = b.columnTypes column ∧
        a.columnNames column = b.columnNames column)
      (fun t => columns.flatMap fun column => (columnPieces t column).flatten) :=
    .flatMap columns fun column _ => readsBack_column column
  have hcount : ReadsBack (fun a b => TableOk a ∧ TableOk b) (fun a b => a.rowCount = b.rowCount)
      (fun t => bytesOfValue 8 t.rowCount) :=
    readsBack_number 8 _ fun a b _ =>
      ⟨a.rowCount_le.trans_lt (by decide), b.rowCount_le.trans_lt (by decide)⟩
  have hrest := hcount.append ((hcolumns.mono fun a b h => h.1).append
    (readsBack_rows.mono fun a b h => h.1))
  have hall := (readsBack_version.append (hrest.mono fun a b h => h.1)).prefixed (bytesOfValue 4 id)
  refine (hall.congr fun a b _ => ?_).of_eq fun t => ?_
  · have hcolumn : ∀ column, column ∈ columns := mem_finRange
    constructor
    · intro h
      obtain ⟨hversion, hrow, hcolumns, hcells⟩ := h
      exact ⟨hversion, hrow, funext fun column => (hcolumns column (hcolumn column)).1,
        funext fun column => (hcolumns column (hcolumn column)).2, fun row hlt =>
          funext fun column => hcells row (mem_rows.mpr hlt) column (hcolumn column)⟩
    · intro h
      exact ⟨h.schemaVersion, h.rowCount,
        fun column _ => ⟨congrFun h.columnTypes column, congrFun h.columnNames column⟩,
        fun row hrow column _ => congrFun (h.cells row (mem_rows.mp hrow)) column⟩
  · have hrows : ∀ row : Fin tableMaxRows,
        (columns.flatMap fun column => itemPieces row.val (t.cells row column)).flatten =
          columns.flatMap fun column => (itemPieces row.val (t.cells row column)).flatten :=
      fun row => flatten_pieces _ _
    simp only [tablePieces, flatten_append, flatten_pieces, hrows, flatten_cons,
      flatten_nil, append_nil, append_assoc]

theorem readsBack_model : ReadsBack (fun a b => ModelOk a ∧ ModelOk b) Same stream := by
  have hentries : ReadsBack (fun a b => ModelOk a ∧ ModelOk b)
      (fun a b => ∀ slot ∈ StateStore.slots, SameEntry (a.entries slot) (b.entries slot))
      (fun m => StateStore.slots.flatMap fun slot => (entryPieces slot (m.entries slot)).flatten) :=
    .flatMap _ fun slot _ => ((readsBack_entry slot).comap fun m : Model => m.entries slot).mono
      fun a b h => ⟨h.1.entries slot, h.2.entries slot⟩
  have hlists : ReadsBack (fun a b => ModelOk a ∧ ModelOk b)
      (fun a b => ∀ id ∈ finRange listMaxLists, a.lists id = b.lists id)
      (fun m => (finRange listMaxLists).flatMap fun id =>
        (listPieces id (m.lists id)).flatten) :=
    .flatMap _ fun id _ => ((readsBack_list id).comap fun m : Model => m.lists id).mono
      fun a b h => ⟨h.1.lists id, h.2.lists id⟩
  have htables : ReadsBack (fun a b => ModelOk a ∧ ModelOk b)
      (fun a b => ∀ id ∈ finRange tableMaxTables, SameTable (a.tables id) (b.tables id))
      (fun m => (finRange tableMaxTables).flatMap fun id =>
        (tablePieces id (m.tables id)).flatten) :=
    .flatMap _ fun id _ => ((readsBack_table id).comap fun m : Model => m.tables id).mono
      fun a b h => ⟨h.1.tables id, h.2.tables id⟩
  have hall := hentries.append ((hlists.mono fun a b h => h.1).append
    (htables.mono fun a b h => h.1.1))
  refine (hall.congr fun a b _ => ?_).of_eq fun m => ?_
  · constructor
    · intro h
      exact ⟨fun slot => h.1 slot (mem_finRange slot),
        funext fun id => h.2.1 id (mem_finRange id), fun id => h.2.2 id (mem_finRange id)⟩
    · intro h
      exact ⟨fun slot _ => h.entries slot, fun id _ => congrFun h.lists id, fun id _ => h.tables id⟩
  · simp only [stream, modelPieces, flatten_append, flatten_pieces, append_assoc]

end Parts

/-! ## Every run -/

def EntriesOk (entries : StateStore.Entries) : Prop := ∀ slot, EntryOk (entries slot)

section Entries

variable {entries entries' : StateStore.Entries} {key : Text} {slot : Slot}

theorem entryOk_clearEntry : EntryOk clearEntry where
  kind_le := by decide
  key_le := by decide
  text_le := by decide
  unused _ := rfl

theorem entriesOk_clearEntries : EntriesOk clearEntries := fun _ => entryOk_clearEntry

theorem EntriesOk.update (h : EntriesOk entries) {entry : Entry} (hentry : EntryOk entry)
    (slot : Slot) : EntriesOk (Function.update entries slot entry) := by
  intro other
  by_cases hother : other = slot
  · subst hother
    rwa [Function.update_self]
  · rw [Function.update_of_ne hother]
    exact h other

theorem length_le_of_keyIsSafe (h : StateStore.keyIsSafe key = true) : key.length ≤ keyMax := by
  simp only [StateStore.keyIsSafe, Bool.and_eq_true, decide_eq_true_eq] at h
  exact h.1.2

theorem EntriesOk.slotIn (h : EntriesOk entries) (hsafe : StateStore.keyIsSafe key = true)
    (hslot : StateStore.slotIn entries key = some (slot, entries')) : EntriesOk entries' := by
  rcases StateStore.slotIn_cases hslot with ⟨-, rfl⟩ | ⟨-, -, -, rfl⟩
  · exact h
  · have hkey : ((entries slot).taken key).key.length ≤ keyMax := length_le_of_keyIsSafe hsafe
    exact h.update ⟨Nat.zero_le _, hkey, (h slot).text_le, fun hused => by cases hused⟩ slot

/-- What is accepted as the new entry in use can be stored. -/
def Stores (accept : Entry → Option Entry) : Prop :=
  ∀ old new, EntryOk old → old.used = true → accept old = some new → EntryOk new

/-- What is accepted has a kind, so only its text has to fit. -/
theorem Stores.of_accepts {accept : Entry → Option Entry} (haccept : StateStore.Accepts accept)
    (htext : ∀ old new, EntryOk old → accept old = some new → new.text.length ≤ textMax) :
    Stores accept := by
  intro old new hold hused hnew
  obtain ⟨huse, hkey, hkind⟩ := haccept old new hnew
  have hkinds : ∀ kind ∈ StateStore.kinds, kind ≤ kindFloat := by decide
  refine ⟨hkinds _ hkind, hkey ▸ hold.key_le, htext old new hold hnew, fun hunused => ?_⟩
  exact absurd ((huse.trans hused).symm.trans hunused) (by decide)

theorem stores_parsedEntry (value : StateStore.RawValue) :
    Stores (StateStore.parsedEntry value) := by
  refine .of_accepts (StateStore.accepts_parsedEntry value) fun old new hold h => ?_
  cases value with
  | string =>
      unfold StateStore.parsedEntry at h
      dsimp only at h
      split_ifs at h with hlength
      cases h
      exact (length_take_le _ _).trans (not_lt.mp hlength)
  | plain =>
      unfold StateStore.parsedEntry at h
      dsimp only at h
      split_ifs at h
      · cases h
        exact hold.text_le
      · cases h
        exact hold.text_le
      · obtain ⟨value, -, rfl⟩ := Option.map_eq_some_iff.mp h
        exact hold.text_le
      · obtain ⟨value, -, rfl⟩ := Option.map_eq_some_iff.mp h
        exact hold.text_le
      · obtain ⟨value, -, rfl⟩ := Option.map_eq_some_iff.mp h
        exact hold.text_le

theorem EntriesOk.parseValue {value : StateStore.RawValue} (h : EntriesOk entries)
    (hparse : StateStore.parseValue value key entries = some entries') : EntriesOk entries' := by
  unfold StateStore.parseValue at hparse
  split_ifs at hparse with hsafe
  split at hparse
  · cases hparse
  · next slot taken hslot =>
      obtain ⟨entry, hentry, rfl⟩ := Option.map_eq_some_iff.mp hparse
      have htaken := h.slotIn (by simpa using hsafe) hslot
      exact htaken.update
        (stores_parsedEntry value _ _ (htaken slot) (StateStore.slotIn_used hslot).1 hentry) slot

theorem EntriesOk.finished {text : Text} (h : EntriesOk entries)
    (hparse : StateStore.finished text entries = some entries') : EntriesOk entries' := by
  unfold StateStore.finished at hparse
  split_ifs at hparse
  cases hparse
  exact h

theorem EntriesOk.parseMembers {text : Text} (h : EntriesOk entries)
    (hparse : StateStore.parseMembers text entries = some entries') : EntriesOk entries' := by
  fun_induction StateStore.parseMembers text entries with
  | case1 => cases hparse
  | case2 => exact h.finished hparse
  | case3 => cases hparse
  | case4 => cases hparse
  | case5 => cases hparse
  | case6 _ _ _ _ _ _ _ _ _ _ _ hvalue _ _ _ _ ih => exact ih (h.parseValue hvalue) hparse
  | case7 _ _ _ _ _ _ _ _ _ _ _ hvalue => exact (h.parseValue hvalue).finished hparse
  | case8 => cases hparse

theorem entriesOk_parseDocument {text : Text}
    (hparse : StateStore.parseDocument text clearEntries = some entries) : EntriesOk entries := by
  unfold StateStore.parseDocument at hparse
  split at hparse
  · exact entriesOk_clearEntries.parseMembers hparse
  · cases hparse

theorem EntriesOk.closeGap (h : EntriesOk entries) (slot : ℕ) :
    EntriesOk (StateStore.closeGap entries slot) := by
  fun_induction StateStore.closeGap entries slot with
  | case1 | case3 => exact h.update entryOk_clearEntry _
  | case2 entries slot hlt hused ih => exact ih (h.update (h _) _)

end Entries

/-- The entries and their copy can be stored. -/
structure StoreOk (s : Store) : Prop where
  entries : EntriesOk s.entries
  backup : EntriesOk s.backup

/-- A call that keeps what can be stored. -/
def Keeps (call : StoreCall) : Prop := ∀ s, StoreOk s → StoreOk (call s).2

theorem StoreOk.bumpRevision {s : Store} (h : StoreOk s) : StoreOk (StateStore.bumpRevision s) := by
  unfold StateStore.bumpRevision
  split
  · exact ⟨h.entries, h.backup⟩
  · exact h

theorem Keeps.of_check {call : StoreCall} {refused : Prop} [Decidable refused]
    (h : ¬ refused → Keeps call) : Keeps (fun s => if refused then (false, s) else call s) := by
  intro s hs
  dsimp only
  split_ifs with hrefused
  · exact hs
  · exact h hrefused s hs

theorem Keeps.ifRevision {call : StoreCall} (h : Keeps call) (expected : ℕ) :
    Keeps (StateStore.ifRevision expected call) := by
  intro s hs
  unfold StateStore.ifRevision
  split_ifs
  · exact hs
  · exact h s hs

theorem keeps_change {key : Text} {accept : Entry → Option Entry} (haccept : Stores accept)
    (hsafe : StateStore.keyIsSafe key = true) : Keeps (StateStore.change key accept) := by
  intro s hs
  unfold StateStore.change
  cases hslot : StateStore.slotIn s.entries key with
  | none => exact hs
  | some taken =>
      obtain ⟨slot, entries⟩ := taken
      have hentries := hs.entries.slotIn hsafe hslot
      dsimp only
      cases hentry : accept (entries slot) with
      | none => exact ⟨hentries, hs.backup⟩
      | some =>
          have hstored := haccept _ _ (hentries slot) (StateStore.slotIn_used hslot).1 hentry
          exact StoreOk.bumpRevision ⟨hentries.update hstored slot, hs.backup⟩

/-- A value is written to an entry that keeps its use and its key. -/
theorem keeps_write {key : Text} {write : Entry → Entry}
    (hused : ∀ entry, (write entry).used = entry.used)
    (hkey : ∀ entry, (write entry).key = entry.key)
    (hkind : ∀ entry, (write entry).kind ∈ StateStore.kinds)
    (htext : ∀ entry, EntryOk entry → (write entry).text.length ≤ textMax)
    (hsafe : StateStore.keyIsSafe key = true) :
    Keeps (StateStore.change key fun entry => some (write entry)) := by
  refine keeps_change (.of_accepts (fun old new h => ?_) fun old new hold h => ?_) hsafe
  · cases h
    exact ⟨hused old, hkey old, hkind old⟩
  · cases h
    exact htext old hold

theorem keeps_setInt (key : Text) (value : Int64) : Keeps (StateStore.setInt key value) :=
  .of_check fun hsafe => keeps_write (fun _ => rfl) (fun _ => rfl) (fun _ => StateStore.mem_kinds.1)
    (fun _ h => h.text_le) (by simpa using hsafe)

theorem keeps_setUint (key : Text) (value : UInt64) : Keeps (StateStore.setUint key value) :=
  .of_check fun hsafe => keeps_write (fun _ => rfl) (fun _ => rfl)
    (fun _ => StateStore.mem_kinds.2.1) (fun _ h => h.text_le) (by simpa using hsafe)

theorem keeps_setBool (key : Text) (value : Bool) : Keeps (StateStore.setBool key value) :=
  .of_check fun hsafe => keeps_write (fun _ => rfl) (fun _ => rfl)
    (fun _ => StateStore.mem_kinds.2.2.1) (fun _ h => h.text_le) (by simpa using hsafe)

theorem keeps_setFloat (key : Text) (value : Double) : Keeps (StateStore.setFloat key value) :=
  .of_check fun hchecks => keeps_write (fun _ => rfl) (fun _ => rfl)
    (fun _ => StateStore.mem_kinds.2.2.2.2) (fun _ h => h.text_le) (by
      simp only [Bool.or_eq_true, Bool.not_eq_true', not_or, Bool.not_eq_false] at hchecks
      exact hchecks.1)

theorem keeps_setText (key : Text) (value : StateStore.TextValue) :
    Keeps (StateStore.setText key value) := by
  cases value with
  | none => exact fun s hs => hs
  | some =>
      refine .of_check fun hchecks => ?_
      simp only [Bool.or_eq_true, Bool.not_eq_true', not_or, Bool.not_eq_false,
        decide_eq_true_eq, not_lt] at hchecks
      exact keeps_write (fun _ => rfl) (fun _ => rfl) (fun _ => StateStore.mem_kinds.2.2.2.1)
        (fun _ _ => hchecks.2) hchecks.1

theorem text_of_added {α : Type} {kind : ℕ} {zero : α} {value : Entry → α}
    {sum : Entry → α → Option Entry} (hsum : ∀ old value new, sum old value = some new →
      new.text = old.text) (old new : Entry) (hold : EntryOk old)
    (h : (StateStore.current kind zero value old).bind (sum old) = some new) :
    new.text.length ≤ textMax := by
  obtain ⟨value, -, hnew⟩ := Option.bind_eq_some_iff.mp h
  rw [hsum old value new hnew]
  exact hold.text_le

theorem keeps_addInt (key : Text) (delta : Int64) : Keeps (StateStore.addInt key delta) := by
  refine .of_check fun hsafe => keeps_change (.of_accepts (StateStore.accepts_addedInt delta) ?_)
    (by simpa using hsafe)
  refine text_of_added fun old value new h => ?_
  split_ifs at h
  cases h
  rfl

theorem keeps_addUint (key : Text) (delta : UInt64) : Keeps (StateStore.addUint key delta) := by
  refine .of_check fun hsafe => keeps_change (.of_accepts (StateStore.accepts_addedUint delta) ?_)
    (by simpa using hsafe)
  refine text_of_added fun old value new h => ?_
  split_ifs at h
  cases h
  rfl

theorem keeps_addFloat (key : Text) (delta : Double) : Keeps (StateStore.addFloat key delta) := by
  refine .of_check fun hchecks =>
    keeps_change (.of_accepts (StateStore.accepts_addedFloat delta) ?_) ?_
  · refine text_of_added fun old value new h => ?_
    split_ifs at h
    cases h
    rfl
  · simp only [Bool.or_eq_true, Bool.not_eq_true', not_or, Bool.not_eq_false] at hchecks
    exact hchecks.1

theorem keeps_remove (key : Text) : Keeps (StateStore.remove key) := by
  refine .of_check fun _ s hs => ?_
  split
  · exact hs
  · exact StoreOk.bumpRevision ⟨hs.entries.closeGap _, hs.backup⟩

theorem keeps_loadDocument (document : Text) : Keeps (StateStore.loadDocument document) := by
  intro s hs
  unfold StateStore.loadDocument
  split
  · exact hs
  · next entries hparse => exact StoreOk.bumpRevision ⟨entriesOk_parseDocument hparse, hs.backup⟩

theorem keeps_setTextBytesWithin (key : Text) (bytes : Option Text) (length : ℕ) :
    Keeps (StateStore.setTextBytesWithin key bytes length) :=
  .of_check fun _ => keeps_setText key _

theorem keeps_txBegin : Keeps StateStore.txBegin := by
  intro s hs
  unfold StateStore.txBegin
  split
  · exact hs
  · exact ⟨hs.entries, hs.entries⟩

theorem keeps_txCommit : Keeps StateStore.txCommit := by
  intro s hs
  unfold StateStore.txCommit
  split
  · exact hs
  · exact ⟨hs.entries, entriesOk_clearEntries⟩

theorem keeps_txRollback : Keeps StateStore.txRollback := by
  intro s hs
  unfold StateStore.txRollback
  split
  · exact hs
  · exact StoreOk.bumpRevision ⟨hs.backup, entriesOk_clearEntries⟩

theorem keeps_perform (call : StateStore.Call) : Keeps call.perform := by
  cases call with
  | setInt key value => exact keeps_setInt key value
  | setIntIfRevision key value => exact (keeps_setInt key value).ifRevision _
  | addInt key delta => exact keeps_addInt key delta
  | addIntIfRevision key delta => exact (keeps_addInt key delta).ifRevision _
  | setUint key value => exact keeps_setUint key value
  | setUintIfRevision key value => exact (keeps_setUint key value).ifRevision _
  | addUint key delta => exact keeps_addUint key delta
  | addUintIfRevision key delta => exact (keeps_addUint key delta).ifRevision _
  | setBool key value => exact keeps_setBool key value
  | setBoolIfRevision key value => exact (keeps_setBool key value).ifRevision _
  | setFloat key value => exact keeps_setFloat key value
  | setFloatIfRevision key value => exact (keeps_setFloat key value).ifRevision _
  | addFloat key delta => exact keeps_addFloat key delta
  | addFloatIfRevision key delta => exact (keeps_addFloat key delta).ifRevision _
  | setText key value => exact keeps_setText key value
  | setTextIfRevision key value => exact (keeps_setText key value).ifRevision _
  | setTextBytes key => exact keeps_setText key _
  | setTextBytesIfRevision key bytes length =>
      exact (keeps_setTextBytesWithin key bytes length).ifRevision _
  | setTextBytesIfModelRevision key bytes length =>
      exact .of_check fun _ => keeps_setTextBytesWithin key bytes length
  | remove key => exact keeps_remove key
  | removeIfRevision key => exact (keeps_remove key).ifRevision _
  | clear => exact fun s hs => StoreOk.bumpRevision ⟨entriesOk_clearEntries, hs.backup⟩
  | txBegin => exact keeps_txBegin
  | txCommit => exact keeps_txCommit
  | txRollback => exact keeps_txRollback
  | load => exact .of_check fun _ => keeps_loadDocument _
  | loadJsonExact input =>
      cases input with
      | none => exact fun s hs => hs
      | some => exact .of_check fun _ => keeps_loadDocument _

/-! ## The whole model -/

/-- The model with the copy of the last data transaction. -/
structure Session where
  store : Store
  lists : Lists
  tables : Tables
  dataBackup : Model

namespace Session

def model (x : Session) : Model := ⟨x.store.entries, x.lists, x.tables⟩

def initial : Session where
  store := StateStore.initial
  lists _ := []
  tables _ := .empty
  dataBackup := ⟨clearEntries, fun _ => [], fun _ => .empty⟩

def dataTxBegin (x : Session) : Session :=
  if x.store.dataTransactionActive || x.store.transactionActive then x
  else { x with
    store := { x.store with dataTransactionActive := true }
    dataBackup := x.model }

def dataTxCommit (x : Session) : Session :=
  if !x.store.dataTransactionActive then x
  else { x with
    store := { x.store with dataTransactionActive := false }
    dataBackup := { x.dataBackup with entries := clearEntries } }

def dataTxRollback (x : Session) : Session :=
  if !x.store.dataTransactionActive then x
  else
    { store := StateStore.bumpRevision
        { x.store with entries := x.dataBackup.entries, dataTransactionActive := false }
      lists := x.dataBackup.lists
      tables := x.dataBackup.tables
      dataBackup := { x.dataBackup with entries := clearEntries } }

end Session

/-- What changes a model.  An edit of the lists and tables is given by what it leaves, and so are
those of a document that is loaded, whose state is parsed. -/
inductive Event
  | state (call : StateStore.Call)
  | dataTxBegin
  | dataTxCommit
  | dataTxRollback
  | edit (lists : Lists) (tables : Tables)
  | dataLoad (stateDocument : Text) (lists : Lists) (tables : Tables)

/-- The setters and the loaders keep within the fields. -/
inductive Steps (x : Session) : Event → Session → Prop
  | state (call : StateStore.Call) :
    Steps x (.state call) { x with store := (call.perform x.store).2 }
  | dataTxBegin : Steps x .dataTxBegin x.dataTxBegin
  | dataTxCommit : Steps x .dataTxCommit x.dataTxCommit
  | dataTxRollback : Steps x .dataTxRollback x.dataTxRollback
  | edit {lists : Lists} {tables : Tables} (hlists : ∀ id, ListOk (lists id))
      (htables : ∀ id, TableOk (tables id)) : Steps x (.edit lists tables) { x with lists, tables }
  | dataLoad {document : Text} {entries : StateStore.Entries} {lists : Lists} {tables : Tables}
      (hparse : StateStore.parseDocument document clearEntries = some entries)
      (hlists : ∀ id, ListOk (lists id)) (htables : ∀ id, TableOk (tables id)) :
    Steps x (.dataLoad document lists tables)
      { x with store := StateStore.bumpRevision { x.store with entries }, lists, tables }

def sessions : System Event where
  State := Session
  initial x := x = .initial
  step x event x' := ∃ e, event = some e ∧ Steps x e x'

structure SessionOk (x : Session) : Prop where
  store : StoreOk x.store
  lists : ∀ id, ListOk (x.lists id)
  tables : ∀ id, TableOk (x.tables id)
  backup : ModelOk x.dataBackup

namespace SessionOk

variable {x x' : Session}

theorem model (h : SessionOk x) : ModelOk x.model := ⟨h.store.entries, h.lists, h.tables⟩

theorem initial : SessionOk .initial := by
  have hlist : ListOk [] := ⟨by decide, fun item hitem => by cases hitem⟩
  have htable : TableOk .empty :=
    ⟨by decide, by decide, fun _ => Nat.zero_le _, fun _ _ => Nat.zero_le _⟩
  exact ⟨⟨entriesOk_clearEntries, entriesOk_clearEntries⟩, fun _ => hlist, fun _ => htable,
    entriesOk_clearEntries, fun _ => hlist, fun _ => htable⟩

theorem clearBackup (h : ModelOk x.dataBackup) :
    ModelOk { x.dataBackup with entries := clearEntries } :=
  ⟨entriesOk_clearEntries, h.lists, h.tables⟩

theorem step {event : Event} (h : SessionOk x) (hstep : Steps x event x') : SessionOk x' := by
  cases hstep with
  | state call => exact ⟨keeps_perform call _ h.store, h.lists, h.tables, h.backup⟩
  | dataTxBegin =>
      unfold Session.dataTxBegin
      split
      · exact h
      · exact ⟨⟨h.store.entries, h.store.backup⟩, h.lists, h.tables, h.model⟩
  | dataTxCommit =>
      unfold Session.dataTxCommit
      split
      · exact h
      · exact ⟨⟨h.store.entries, h.store.backup⟩, h.lists, h.tables, clearBackup h.backup⟩
  | dataTxRollback =>
      unfold Session.dataTxRollback
      split
      · exact h
      · exact ⟨StoreOk.bumpRevision ⟨h.backup.entries, h.store.backup⟩, h.backup.lists,
          h.backup.tables, clearBackup h.backup⟩
  | edit hlists htables => exact ⟨h.store, hlists, htables, h.backup⟩
  | dataLoad hparse hlists htables =>
      exact ⟨StoreOk.bumpRevision ⟨entriesOk_parseDocument hparse, h.store.backup⟩, hlists, htables,
        h.backup⟩

end SessionOk

theorem ok_of_reachable {x : Session} (h : sessions.Reachable x) : SessionOk x := by
  refine h.invariant (P := SessionOk) (fun x hx => hx ▸ .initial) ?_
  intro x event x' hx hstep
  obtain ⟨e, -, hsteps⟩ := hstep
  exact hx.step hsteps

/-- **The stream says what is to be seen.**  Models of any two runs have the same stream exactly if
they look the same, so that a revision shared by two models that do not look the same is a
collision of the hash. -/
theorem stream_eq_iff {x y : Session} (hx : sessions.Reachable x) (hy : sessions.Reachable y) :
    (stream x.model = stream y.model ↔ Same x.model y.model) ∧
      (dataModelRevision x.model = dataModelRevision y.model → Same x.model y.model ∨
        stream x.model ≠ stream y.model ∧
          dataHashBytes revisionStart (stream x.model) =
            dataHashBytes revisionStart (stream y.model)) := by
  have hiff : stream x.model = stream y.model ↔ Same x.model y.model :=
    readsBack_model.code_eq_iff ⟨(ok_of_reachable hx).model, (ok_of_reachable hy).model⟩
  refine ⟨hiff, fun hrevision => ?_⟩
  rw [dataModelRevision_eq, dataModelRevision_eq] at hrevision
  by_cases hsame : Same x.model y.model
  · exact .inl hsame
  · exact .inr ⟨fun hstream => hsame (hiff.mp hstream), hrevision⟩

theorem sessions_new : sessions.Reachable Session.initial := ⟨[], .start rfl⟩

theorem sessions_state {x : Session} (h : sessions.Reachable x) (call : StateStore.Call) :
    sessions.Reachable { x with store := (call.perform x.store).2 } := by
  obtain ⟨trace, run⟩ := h
  exact ⟨_, run.step ⟨.state call, rfl, .state call⟩⟩

/-- The same number as an integer and as one without a sign. -/
theorem stream_eq_iff_kinds :
    stream (Session.model { Session.initial with
        store := ((StateStore.Call.setInt [107] 5).perform Session.initial.store).2 }) =
      stream (Session.model { Session.initial with
        store := ((StateStore.Call.setUint [107] 5).perform Session.initial.store).2 }) ↔
    Same (Session.model { Session.initial with
        store := ((StateStore.Call.setInt [107] 5).perform Session.initial.store).2 })
      (Session.model { Session.initial with
        store := ((StateStore.Call.setUint [107] 5).perform Session.initial.store).2 }) :=
  (stream_eq_iff (sessions_state sessions_new (.setInt [107] 5))
    (sessions_state sessions_new (.setUint [107] 5))).1

end ModelRevision

end Jadren.App

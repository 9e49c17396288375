import Jadren.App.CsvTables
import Jadren.App.TableRows
import Jadren.Library.Folds

/-!
# What comes back from comma-separated values

A list always comes back (`list_round_trip`).  Of a table as many columns are written as
`csvColumnCount` says, which is the last column that is used in the *last* record with any text in
it, so that a table comes back if and only if no record reaches further than this one
(`table_round_trip`).  No input makes an import fault, and the tables stay valid
(`import_keeps_tables`).
-/

namespace Jadren.App.Csv

open Program ModelRevision List
open DataDocument (listDocumentMax)

/-! ## Lists come back -/

section RoundTrips

theorem length_csvRow_le {row : List Text} (hrow : ∀ cell ∈ row, cell.length ≤ listTextMax) :
    (csvRow row).length ≤ row.length * (2 * listTextMax + 3) + 1 := by
  induction row with
  | nil => exact Nat.le_of_eq (Nat.zero_mul _ ▸ rfl)
  | cons cell rest ih =>
      obtain ⟨hcell, hrest⟩ := forall_mem_cons.mp hrow
      have hfield := length_csvField_le cell
      have hcomma : (if rest ≠ [] then [44] else [] : Text).length ≤ 1 := by
        split
        · exact le_rfl
        · exact Nat.zero_le 1
      have hrec := ih hrest
      rw [csvRow, length_append, length_append, length_cons, Nat.succ_mul]
      omega

variable {rows : List (List Text)}

theorem length_csvText_le {count : ℕ} (hfit : Fit rows)
    (hcount : ∀ row ∈ rows, row.length ≤ count) :
    (csvText rows).length ≤ rows.length * (count * (2 * listTextMax + 3) + 1) := by
  induction rows with
  | nil => exact Nat.zero_le _
  | cons row rows ih =>
      obtain ⟨hrow, hrows⟩ := forall_mem_cons.mp hfit
      obtain ⟨hlength, hlengths⟩ := forall_mem_cons.mp hcount
      have hfirst := length_csvRow_le hrow
      have hle := Nat.mul_le_mul_right (2 * listTextMax + 3) hlength
      have hrest := ih hrows hlengths
      have hsplit : (csvText (row :: rows)).length = (csvRow row).length + (csvText rows).length :=
        length_append
      rw [hsplit, length_cons, Nat.succ_mul]
      omega

/-- The export writes the text of the list, or nothing if there is no room for it; behind whatever
follows, the import of the text makes any list of any lists equal to the one that was written. -/
theorem list_round_trip {lists lists' : Lists} {listId listId' : ℤ} {id id' : Fin listMaxLists}
    (hid : listOf listId = some id) (hid' : listOf listId' = some id') (hok : ListOk (lists id)) :
    (∀ (output : Text) (lengths : List ℕ), lengths ≠ [] →
      listExportCsvExact lists listId (some output) lengths =
        some (if output.length < (csvText (listRows (lists id))).length
          then (false, some output, lengths)
          else (true,
            some (csvText (listRows (lists id)) ++
              output.drop (csvText (listRows (lists id))).length),
            lengths.set 0 (csvText (listRows (lists id))).length))) ∧
    ∀ rest : Text,
      listImportCsv lists' listId' (some (csvText (listRows (lists id)) ++ rest))
          (csvText (listRows (lists id))).length =
        some (true, Function.update lists' id' (lists id)) := by
  have hfit : Fit (listRows (lists id)) := by
    intro row hrow cell hcell
    obtain ⟨item, hitem, rfl⟩ := mem_map.mp hrow
    rw [mem_singleton.mp hcell]
    exact hok.text_le item hitem
  -- the import has room for the text, since rows and cells are bounded
  have hshort : (csvText (listRows (lists id))).length ≤ listDocumentMax := by
    have hsingle : ∀ row ∈ listRows (lists id), row.length ≤ 1 := by
      intro row hrow
      obtain ⟨item, -, rfl⟩ := mem_map.mp hrow
      exact le_rfl
    have hle := length_csvText_le hfit hsingle
    have hcount : (listRows (lists id)).length ≤ 64 := by
      rw [listRows, length_map]
      exact hok.count_le
    unfold listTextMax at hle
    unfold listDocumentMax
    omega
  constructor
  · intro output lengths hlengths
    unfold listExportCsvExact listExportCsv
    rw [hid]
    simp only [hlengths, if_false]
    by_cases hempty : lists id = []
    · have htext : csvText (listRows []) = [] := rfl
      rw [if_pos hempty, hempty, htext, length_nil, if_neg (Nat.not_lt_zero _)]
      rfl
    · rw [if_neg hempty, if_neg (by simp),
        csvExport_eq hfit (by unfold listDocumentMax at hshort; omega)]
      simp only [Option.map_some]
      have hpos : (csvText (listRows (lists id))).length ≠ 0 := by
        obtain ⟨item, items, hitems⟩ := exists_cons_of_ne_nil hempty
        rw [hitems, ne_eq, length_eq_zero_iff]
        exact append_ne_nil_of_left_ne_nil (csvRow_ne_nil [item]) _
      by_cases hroom : output.length < (csvText (listRows (lists id))).length
      · simp only [hroom, if_true]
      · simp only [hroom, hpos, if_false]
  · intro rest
    unfold listImportCsv
    rw [hid']
    simp only [Option.getD_some, reduceCtorEq, false_and, false_or, length_append]
    -- only the bytes of the text are read, whatever follows it
    have hread : readItems (csvText (listRows (lists id))) listMaxItems [] 0 =
        some (.ok ([] ++ lists id), (csvText (listRows (lists id))).length) :=
      readItems_eq hok.count_le hok.text_le (Nat.zero_le _) drop_zero
    rw [if_neg (by omega), take_left, hread]
    rfl

theorem quoted_list_round_trip :
    listExportCsvExact (fun _ => [[34, 44], []]) 2 (some [0, 0, 0, 0, 0, 0, 0, 0]) [0] =
        some (true, some [34, 34, 34, 44, 34, 10, 10, 0], [7]) ∧
      listImportCsv (fun _ => []) 1 (some [34, 34, 34, 44, 34, 10, 10, 0]) 7 =
        some (true, Function.update (fun _ => [] : Lists) ⟨1, by decide⟩ [[34, 44], []]) := by
  obtain ⟨hexport, himport⟩ := @list_round_trip (fun _ => [[34, 44], []]) (fun _ => []) 2 1 _ _ rfl
    rfl ⟨by decide, by decide⟩
  exact ⟨hexport _ _ (cons_ne_nil 0 []), himport [0]⟩

/-! ## Tables come back -/

/-- A record without any text. -/
def Blank (texts : Column → Text) : Prop := ∀ column, texts column = []

variable {texts : Column → Text}

theorem lastUsed_blank (h : Blank texts) (last : Option Column) : lastUsed last texts = last := by
  rcases Folds.foldl_last (fun column => texts column ≠ [])
    (pairwise_lt_finRange tableMaxColumns) last with ⟨-, hfold⟩ | ⟨c, -, hc, -⟩
  · exact hfold
  · exact absurd (h c) hc

theorem lastUsed_used (h : ¬ Blank texts) (last : Option Column) :
    ∃ c, lastUsed last texts = some c ∧ texts c ≠ [] ∧
      ∀ column, texts column ≠ [] → column ≤ c := by
  rcases Folds.foldl_last (fun column => texts column ≠ [])
    (pairwise_lt_finRange tableMaxColumns) last with ⟨hnone, -⟩ | ⟨c, -, hc, hmax, hfold⟩
  · exact absurd (fun column => not_not.mp (hnone column (mem_finRange column))) h
  · exact ⟨c, hfold, hc, fun column => hmax column (mem_finRange column)⟩

theorem foldl_lastUsed_blank {l : List (Column → Text)} (h : ∀ texts ∈ l, Blank texts)
    (last : Option Column) : l.foldl lastUsed last = last := by
  induction l generalizing last with
  | nil => rfl
  | cons texts l ih =>
      obtain ⟨htexts, hrest⟩ := forall_mem_cons.mp h
      rw [foldl_cons, lastUsed_blank htexts, ih hrest]

variable {before after : List (Column → Text)} {record : Column → Text}

/-- Only the last record with any text in it counts. -/
theorem csvLastColumn_eq {t : Table} (h : records t = before ++ record :: after)
    (hrecord : ¬ Blank record) (hafter : ∀ texts ∈ after, Blank texts) :
    ∃ c, csvLastColumn t = some c ∧ record c ≠ [] ∧ ∀ column, record column ≠ [] → column ≤ c := by
  obtain ⟨c, hlast, hc⟩ := lastUsed_used hrecord (before.foldl lastUsed none)
  refine ⟨c, ?_, hc⟩
  calc csvLastColumn t = after.foldl lastUsed (lastUsed (before.foldl lastUsed none) record) := by
        rw [csvLastColumn, h, foldl_append, foldl_cons]
    _ = some c := by rw [foldl_lastUsed_blank hafter, hlast]

variable {t : Table} {count : ℕ}

theorem length_cellsOf (texts : Column → Text) (h : count ≤ tableMaxColumns) :
    (cellsOf count texts).length = count := by
  rw [cellsOf, length_map, length_take, length_finRange]
  exact min_eq_left h

theorem csvColumnCount_le (t : Table) : csvColumnCount t ≤ tableMaxColumns := by
  unfold csvColumnCount
  cases csvLastColumn t with
  | none => exact Nat.zero_le _
  | some column => exact column.isLt

/-- The names that are written are those of different columns. -/
theorem names_cellsOf (hvalid : t.Valid) : Names ([] ++ cellsOf count t.columnNames) := by
  rw [nil_append]
  constructor
  · intro name hname
    obtain ⟨column, -, rfl⟩ := mem_map.mp hname
    exact hvalid.name column
  · refine pairwise_map.mpr (((pairwise_lt_finRange _).sublist
      (take_sublist count _)).imp ?_)
    intro a b hlt hne heq
    exact hlt.ne (hvalid.unique b a hne heq).symm

/-- The table as it is read again: only the columns that were written have texts. -/
def truncated (t : Table) (version : ℤ) (count : ℕ) : Table where
  rowCount := t.rowCount
  rowCount_le := t.rowCount_le
  schemaVersion := version
  columnTypes := t.columnTypes
  columnNames column := if column < count then t.columnNames column else []
  cells row column := if row < t.rowCount ∧ column < count then t.cells row column else []

theorem valueValid_nil (kind : ColumnKind) : valueValid [] kind = true := rfl

theorem valid_truncated (hvalid : t.Valid) (version : ℤ) (count : ℕ) :
    (truncated t version count).Valid where
  name column := by
    simp only [truncated]
    split
    · exact hvalid.name column
    · rfl
  unique a b hne heq := by
    unfold truncated at hne heq
    simp only at hne heq
    split at hne
    next ha =>
      rw [if_pos ha] at heq
      split at heq
      · exact hvalid.unique a b hne heq
      · exact absurd heq hne
    next => exact absurd rfl hne
  cell row hrow column := by
    unfold truncated at hrow ⊢
    simp only at hrow ⊢
    split
    · exact hvalid.cell row hrow column
    · exact valueValid_nil _

theorem parsedTable_eq (t' : Table) (rows : Rows)
    (hrows : rows.1 = t.rows.map fun row => cellsOf count (t.cells row))
    (htypes : t'.columnTypes = t.columnTypes) :
    parsedTable t' (cellsOf count t.columnNames) rows = truncated t t'.schemaVersion count := by
  have hcount : rows.1.length = t.rowCount := by
    rw [hrows, length_map, Table.length_rows]
  unfold parsedTable truncated
  congr 1
  · funext column
    exact getD_map_take t.columnNames count column []
  · funext row column
    rw [hrows, Table.getD_map_rows]
    by_cases hrow : row < t.rowCount
    · simp only [hrow, if_true, true_and]
      exact getD_map_take (t.cells row) count column []
    · simp only [hrow, if_false, false_and]
      rfl

theorem fit_tableRows (hok : TableOk t) : Fit (tableRows t) := by
  intro row hrow cell hcell
  obtain ⟨texts, htexts, rfl⟩ := mem_map.mp hrow
  obtain ⟨column, -, rfl⟩ := mem_map.mp hcell
  rcases mem_cons.mp htexts with rfl | hmem
  · exact hok.name_le column
  · obtain ⟨row, -, rfl⟩ := mem_map.mp hmem
    exact hok.cell_le row column

/-- Records with as many fields as names are read as a table. -/
theorem readTable_records {t' : Table} {names : List Text} (hnames : Names ([] ++ names))
    (hne : names ≠ []) (hcolumns : names.length ≤ tableMaxColumns)
    (hroom : ([] ++ rows).length ≤ tableMaxRows) (hrows : ∀ row ∈ rows, row.length = names.length)
    (hfit : Fit (names :: rows)) (hvalid : (parsedTable t' names ⟨[] ++ rows, hroom⟩).Valid) :
    readTable (csvText (names :: rows)) t' 0 =
      some (.ok (parsedTable t' names ⟨[] ++ rows, hroom⟩), (csvText (names :: rows)).length) := by
  obtain ⟨hnamesFit, hrowsFit⟩ := forall_mem_cons.mp hfit
  have hsplit : (csvText (names :: rows)).drop 0 = csvRow names ++ csvText rows := rfl
  obtain ⟨-, hle, hbehind⟩ := behind_of_drop hsplit (csvRow_ne_nil names)
  have hfirst := reads_names hnames hne hnamesFit hcolumns 0 _ hsplit
  have hrest := readRows_eq (Nat.zero_add tableMaxRows) hroom (length_pos_iff.mpr hne) hrows
    hrowsFit hle hbehind
  have hcheck : (failIf ((parsedTable t' names ⟨[] ++ rows, hroom⟩).storeValid = false) () :
      ReadCall Unit) = Pure.pure () := by
    rw [failIf, Table.storeValid_iff.mpr hvalid, if_neg (by decide)]
  unfold readTable
  rw [bind_of_ok hfirst]
  simp only [nil_append] at hrest hcheck ⊢
  rw [bind_of_ok hrest, hcheck]
  rfl

/-- Reading what was written gives the columns that were written. -/
theorem readTable_eq {t' : Table} (hvalid : t.Valid) (hok : TableOk t)
    (htypes : t'.columnTypes = t.columnTypes) (hpos : 0 < csvColumnCount t) :
    readTable (csvText (tableRows t)) t' 0 =
      some (.ok (truncated t t'.schemaVersion (csvColumnCount t)),
        (csvText (tableRows t)).length) := by
  have hle := csvColumnCount_le t
  have hlength : ∀ texts : Column → Text, (cellsOf (csvColumnCount t) texts).length =
      csvColumnCount t := fun texts => length_cellsOf texts hle
  have hsplit : tableRows t = cellsOf (csvColumnCount t) t.columnNames ::
      t.rows.map fun row => cellsOf (csvColumnCount t) (t.cells row) := by
    rw [tableRows, records, map_cons, map_map]
    rfl
  have hroom : ([] ++ t.rows.map fun row => cellsOf (csvColumnCount t) (t.cells row)).length ≤
      tableMaxRows := by
    rw [nil_append, length_map, Table.length_rows]
    exact t.rowCount_le
  have hparsed := parsedTable_eq t' ⟨_, hroom⟩ rfl htypes
  have hwritten : (parsedTable t' (cellsOf (csvColumnCount t) t.columnNames) ⟨_, hroom⟩).Valid :=
    hparsed ▸ valid_truncated hvalid _ _
  have hread := readTable_records (names_cellsOf hvalid) ?_ ?_ hroom ?_
    (hsplit ▸ fit_tableRows hok) hwritten
  · rw [hsplit, hread, hparsed]
  · rw [← length_pos_iff, hlength]
    exact hpos
  · exact (hlength _).trans_le hle
  · intro row hrow
    obtain ⟨index, -, rfl⟩ := mem_map.mp hrow
    rw [hlength, hlength]

/-- The columns that were written are all that are used if and only if no record reaches further
than the last one with any text. -/
theorem sameTable_truncated_iff (h : records t = before ++ record :: after)
    (hrecord : ¬ Blank record) (hafter : ∀ texts ∈ after, Blank texts) (version : ℤ) :
    SameTable { t with schemaVersion := version } (truncated t version (csvColumnCount t)) ↔
      ∀ texts ∈ before, ∀ column, texts column ≠ [] → ∃ last, record last ≠ [] ∧ column ≤ last := by
  obtain ⟨c, hlast, hc, hmax⟩ := csvLastColumn_eq h hrecord hafter
  have hcount : ∀ column : Column, column < csvColumnCount t ↔ column ≤ c := by
    intro column
    unfold csvColumnCount
    rw [hlast]
    exact Nat.lt_succ_iff
  have hmem : ∀ texts ∈ before, texts ∈ records t := fun texts htexts =>
    h ▸ mem_append_left _ htexts
  constructor
  · intro hsame texts htexts column hne
    -- a text behind the last column used has been cut off
    refine ⟨c, hc, ?_⟩
    by_contra hgt
    have hout : ¬ (column : ℕ) < csvColumnCount t := fun hlt => hgt ((hcount column).mp hlt)
    rcases mem_cons.mp (hmem texts htexts) with rfl | hrow
    · have hname := congrFun hsame.columnNames column
      simp only [truncated, hout, if_false] at hname
      exact hne hname
    · obtain ⟨row, hin, rfl⟩ := mem_map.mp hrow
      have hlt : row < t.rowCount := Table.mem_rows.mp hin
      have hcell := congrFun (hsame.cells row hlt) column
      simp only [truncated, hout, and_false, if_false] at hcell
      exact hne hcell
  · intro hreach
    -- no record reaches behind the last column used, so nothing is cut off
    have hused : ∀ texts ∈ records t, ∀ column, texts column ≠ [] → column < csvColumnCount t := by
      intro texts htexts column hne
      refine (hcount column).mpr ?_
      rw [h] at htexts
      rcases mem_append.mp htexts with hin | hin
      · obtain ⟨last, hlast, hle⟩ := hreach texts hin column hne
        exact hle.trans (hmax last hlast)
      · rcases mem_cons.mp hin with rfl | hin
        · exact hmax column hne
        · exact absurd (hafter texts hin column) hne
    have hkept : ∀ texts ∈ records t, ∀ column,
        texts column = if column < csvColumnCount t then texts column else [] := by
      intro texts htexts column
      split
      · rfl
      next hout => exact not_not.mp fun hne => hout (hused texts htexts column hne)
    refine ⟨rfl, rfl, rfl, funext fun column => hkept _ mem_cons_self column, ?_⟩
    intro row hrow
    funext column
    simp only at hrow
    simp only [truncated, hrow, true_and]
    exact hkept _ (mem_cons_of_mem _ (mem_map_of_mem (Table.mem_rows.mpr hrow))) column

/-- A valid table in which there is any text is written as the text of its columns, or not at all if
there is no room; behind whatever follows, the import of the text succeeds for every table whose
columns have the same kinds, and gives the table that was written if and only if no record reaches
further than the last one that is not blank. -/
theorem table_round_trip {tables tables' : Tables} {tableId tableId' : ℤ} {id id' : TableId}
    (hid : tableOf tableId = some id) (hid' : tableOf tableId' = some id')
    (hvalid : (tables id).storeValid = true) (hok : TableOk (tables id))
    (htypes : (tables' id').columnTypes = (tables id).columnTypes)
    {before after : List (Column → Text)} {record : Column → Text}
    (h : records (tables id) = before ++ record :: after) (hrecord : ¬ Blank record)
    (hafter : ∀ texts ∈ after, Blank texts) :
    (∀ output : Text, tableExportCsv tables tableId (some output) =
      some (if output.length < (csvText (tableRows (tables id))).length then (0, some output)
        else ((csvText (tableRows (tables id))).length,
          some (csvText (tableRows (tables id)) ++
            output.drop (csvText (tableRows (tables id))).length)))) ∧
    ∀ rest : Text, ∃ t', tableImportCsv tables' tableId'
        (some (csvText (tableRows (tables id)) ++ rest))
        (csvText (tableRows (tables id))).length = some (true, Function.update tables' id' t') ∧
      (SameTable { tables id with schemaVersion := (tables' id').schemaVersion } t' ↔
        ∀ texts ∈ before, ∀ column, texts column ≠ [] →
          ∃ last, record last ≠ [] ∧ column ≤ last) := by
  have hcount : 0 < csvColumnCount (tables id) := by
    obtain ⟨c, hlast, -⟩ := csvLastColumn_eq h hrecord hafter
    unfold csvColumnCount
    rw [hlast]
    exact Nat.succ_pos _
  have hfit := fit_tableRows hok
  have hshort : (csvText (tableRows (tables id))).length ≤ tableCsvInputMax := by
    have hcolumns : ∀ row ∈ tableRows (tables id), row.length ≤ 8 := by
      intro row hrow
      obtain ⟨texts, -, rfl⟩ := mem_map.mp hrow
      exact (length_cellsOf texts (csvColumnCount_le _)).trans_le (csvColumnCount_le _)
    have hle := length_csvText_le hfit hcolumns
    have hrows : (tableRows (tables id)).length ≤ 65 := by
      rw [tableRows, length_map, records, length_cons, length_map,
        Table.length_rows]
      exact Nat.succ_le_succ (tables id).rowCount_le
    unfold listTextMax at hle
    unfold tableCsvInputMax
    omega
  constructor
  · intro output
    unfold tableExportCsv
    rw [hid]
    simp only [hvalid, hcount.ne', Bool.true_eq_false, or_self, if_false]
    rw [csvExport_eq hfit (by unfold tableCsvInputMax at hshort; omega), Option.map_some]
    split
    next => rfl
    next => rfl
  · intro rest
    -- what is read back is the table cut off behind the last column used
    have hread := readTable_eq (Table.storeValid_iff.mp hvalid) hok htypes hcount
    have hpos : (csvText (tableRows (tables id))).length ≠ 0 := by
      rw [ne_eq, length_eq_zero_iff]
      exact append_ne_nil_of_left_ne_nil (csvRow_ne_nil _) _
    refine ⟨_, ?_, sameTable_truncated_iff h hrecord hafter _⟩
    unfold tableImportCsv
    rw [hid']
    simp only [length_append]
    rw [if_neg (by omega), take_left, hread]
    rfl

/-- Two columns with names, and a row with a text in the first one only. -/
def shortRow : Table where
  rowCount := 1
  rowCount_le := by decide
  schemaVersion := 0
  columnTypes _ := .text
  columnNames column := if column.val = 0 then [97] else if column.val = 1 then [98] else []
  cells _ column := if column.val = 0 then [120] else []

theorem shortRow_loses_column :
    tableExportCsv (fun _ => shortRow) 0 (some [0, 0, 0, 0]) = some (4, some [97, 10, 120, 10]) ∧
      ∃ t, tableImportCsv (fun _ => shortRow) 0 (some [97, 10, 120, 10]) 4 =
        some (true, Function.update (fun _ => shortRow) ⟨0, by decide⟩ t) ∧
          ¬ SameTable shortRow t := by
  have hrecords : records shortRow =
      [shortRow.columnNames] ++ shortRow.cells ⟨0, by decide⟩ :: [] := rfl
  have hok : TableOk shortRow := by
    refine ⟨by decide, by decide, by decide, fun row column => ?_⟩
    simp only [shortRow]
    split
    · decide
    · decide
  obtain ⟨hexport, himport⟩ := @table_round_trip (fun _ => shortRow) (fun _ => shortRow) 0 0 _ _ rfl
    rfl (by decide) hok rfl _ _ _ hrecords (fun h => absurd (h ⟨0, by decide⟩) (by decide))
    fun _ h => absurd h not_mem_nil
  obtain ⟨t, hread, hsame⟩ := himport []
  refine ⟨hexport _, t, hread, fun h => ?_⟩
  -- the name of the second column has no text behind it in the row
  obtain ⟨last, hlast, hle⟩ := hsame.mp h _ (mem_singleton_self _) ⟨1, by decide⟩ (by decide)
  have hnone : ∀ last : Column, ⟨1, by decide⟩ ≤ last →
      shortRow.cells ⟨0, by decide⟩ last = [] := by decide
  exact hlast (hnone last hle)

end RoundTrips

/-! ## Any input -/

section AnyInput

variable {input : Text}

variable {room offset : ℕ}

/-- What is read fits, and nothing is read outside the input. -/
theorem readItems_fits {items : List Text} (hitems : ∀ item ∈ items, item.length ≤ listTextMax) :
    wp (readItems input room items)
      (fun read _ => read.length ≤ items.length + room ∧ ∀ item ∈ read, item.length ≤ listTextMax)
      (fun _ _ => True) offset := by
  induction room generalizing items offset with
  | zero =>
      unfold readItems
      refine wp_bind (wp_get (wp_choose (fun _ => wp_fail trivial) fun _ => ?_))
      exact wp_pure ⟨le_rfl, hitems⟩
  | succ room ih =>
      unfold readItems
      refine wp_bind (wp_get (wp_choose (fun _ => ?_) fun _ => ?_))
      · refine wp_then (csvReadField_fits input offset) ?_
        rintro ⟨delimiter, field⟩ next ⟨hfield, -⟩
        refine wp_check trivial fun _ => ?_
        have hmore : ∀ item ∈ items ++ [field], item.length ≤ listTextMax :=
          forall_mem_append.mpr ⟨hitems, forall_mem_singleton.mpr hfield⟩
        refine wp_mono (ih hmore) ?_ fun _ _ _ => trivial
        rintro read _ ⟨hlength, hread⟩
        rw [length_append, length_singleton] at hlength
        exact ⟨by omega, hread⟩
      · exact wp_pure ⟨Nat.le_add_right _ _, hitems⟩

theorem readNames_fits {names : List Text} (hnames : ∀ name ∈ names, name.length ≤ listTextMax) :
    wp (readNames input room names) (fun read _ => ∀ name ∈ read, name.length ≤ listTextMax)
      (fun _ _ => True) offset := by
  induction room generalizing names offset with
  | zero => exact wp_fail trivial
  | succ room ih =>
      unfold readNames
      refine wp_then (csvReadField_fits input offset) ?_
      rintro ⟨delimiter, name⟩ next ⟨hname, -⟩
      have hmore : ∀ name' ∈ names ++ [name], name'.length ≤ listTextMax :=
        forall_mem_append.mpr ⟨hnames, forall_mem_singleton.mpr hname⟩
      refine wp_check trivial fun _ => ?_
      refine wp_check trivial fun _ => ?_
      exact wp_choose (fun _ => wp_pure hmore) fun _ => ih hmore

theorem readCells_fits {count : ℕ} :
    wp (readCells input count) (fun read _ => ∀ cell ∈ read, cell.length ≤ listTextMax)
      (fun _ _ => True) offset := by
  induction count generalizing offset with
  | zero => exact wp_pure fun _ h => absurd h not_mem_nil
  | succ count ih =>
      unfold readCells
      refine wp_then (csvReadField_fits input offset) ?_
      rintro ⟨delimiter, cell⟩ next ⟨hcell, -⟩
      refine wp_check trivial fun _ => ?_
      refine wp_then ih ?_
      exact fun cells _ hcells => wp_pure (forall_mem_cons.mpr ⟨hcell, hcells⟩)

theorem readRows_fits {columnCount : ℕ} {rows : List (List Text)}
    (hlength : rows.length + room = tableMaxRows) (hrows : Fit rows) :
    wp (readRows input columnCount room rows hlength) (fun read _ => Fit read.1) (fun _ _ => True)
      offset := by
  induction room generalizing rows offset with
  | zero =>
      unfold readRows
      refine wp_bind (wp_get (wp_choose (fun _ => wp_fail trivial) fun _ => ?_))
      exact wp_pure hrows
  | succ room ih =>
      unfold readRows
      refine wp_bind (wp_get (wp_choose (fun _ => ?_) fun _ => wp_pure hrows))
      refine wp_then readCells_fits ?_
      intro row _ hrow
      exact ih _ (forall_mem_append.mpr ⟨hrows, forall_mem_singleton.mpr hrow⟩)

theorem getD_length_le {texts : List Text} (h : ∀ text ∈ texts, text.length ≤ listTextMax)
    (index : ℕ) : (texts.getD index []).length ≤ listTextMax := by
  rw [getD_eq_getElem?_getD]
  cases hget : texts[index]? with
  | none => exact Nat.zero_le _
  | some text => exact h text (mem_of_getElem? hget)

/-- A table that is read is valid, and has the schema of the other. -/
theorem readTable_fits {t : Table} (hok : TableOk t) :
    wp (readTable input t)
      (fun read _ => read.storeValid = true ∧ TableOk read ∧ read.columnTypes = t.columnTypes ∧
        read.schemaVersion = t.schemaVersion) (fun _ _ => True) offset := by
  unfold readTable
  refine wp_then (readNames_fits fun _ h => absurd h not_mem_nil) ?_
  intro names _ hnames
  refine wp_then (readRows_fits _ fun _ h => absurd h not_mem_nil) ?_
  intro rows _ hrows
  refine wp_bind (wp_failIf (fun _ => trivial) fun hvalid => wp_pure ⟨?_, ?_, rfl, rfl⟩)
  · exact Bool.not_eq_false _ ▸ hvalid
  · refine ⟨hok.version_ge, hok.version_lt, fun column => getD_length_le hnames column, ?_⟩
    intro row column
    refine getD_length_le (fun cell hcell => ?_) column
    rw [getD_eq_getElem?_getD] at hcell
    cases hget : rows.1[(row : ℕ)]? with
    | none =>
        rw [hget] at hcell
        exact absurd hcell not_mem_nil
    | some cells =>
        rw [hget] at hcell
        exact hrows cells (mem_of_getElem? hget) cell hcell

/-- Whatever the input is, the import of a list has a result: the lists as they were, or with the
list of the id replaced by one that fits. -/
theorem import_keeps_lists (lists : Lists) (listId : ℤ) (input : Option Text) (inputLength : ℕ) :
    listImportCsv lists listId input inputLength = some (false, lists) ∨
      ∃ id items, listOf listId = some id ∧ ListOk items ∧
        listImportCsv lists listId input inputLength =
          some (true, Function.update lists id items) := by
  unfold listImportCsv
  cases hid : listOf listId with
  | none => exact .inl rfl
  | some id =>
      simp only
      split
      next => exact .inl rfl
      next =>
        have hread : wp (readItems ((input.getD []).take inputLength) listMaxItems []) _ _ 0 :=
          readItems_fits fun _ h => absurd h not_mem_nil
        rcases wp_iff.mp hread with ⟨items, _, hitems, hlength, hfit⟩ | ⟨_, _, hfail, -⟩
        · rw [length_nil, Nat.zero_add] at hlength
          exact .inr ⟨id, items, rfl, ⟨hlength, hfit⟩, by rw [hitems]; rfl⟩
        · exact .inl (by rw [hfail]; rfl)

/-- Whatever the input is, the import of a table has a result: the tables as they were, or with the
table of the id replaced by a valid one with the same column kinds and schema version. -/
theorem import_keeps_tables {tables : Tables} (hok : ∀ id, TableOk (tables id)) (tableId : ℤ)
    (input : Option Text) (inputLength : ℕ) :
    tableImportCsv tables tableId input inputLength = some (false, tables) ∨
      ∃ id t, tableOf tableId = some id ∧ t.storeValid = true ∧ TableOk t ∧
        t.columnTypes = (tables id).columnTypes ∧ t.schemaVersion = (tables id).schemaVersion ∧
        tableImportCsv tables tableId input inputLength =
          some (true, Function.update tables id t) := by
  unfold tableImportCsv
  cases hid : tableOf tableId with
  | none => exact .inl rfl
  | some id =>
      cases input with
      | none => exact .inl rfl
      | some input =>
          simp only
          split
          next => exact .inl rfl
          next =>
            have hread : wp (readTable (input.take inputLength) (tables id)) _ _ 0 :=
              readTable_fits (hok id)
            rcases wp_iff.mp hread with
              ⟨t, _, ht, hvalid, htable, htypes, hversion⟩ | ⟨_, _, hfail, -⟩
            · exact .inr ⟨id, t, rfl, hvalid, htable, htypes, hversion, by rw [ht]; rfl⟩
            · exact .inl (by rw [hfail]; rfl)

theorem import_keeps_empty_tables :
    tableImportCsv (fun _ => Table.empty) 3 (some [44]) 1 = some (false, fun _ => Table.empty) ∨
      ∃ id t, tableOf 3 = some id ∧ t.storeValid = true ∧ TableOk t ∧
        t.columnTypes = Table.empty.columnTypes ∧ t.schemaVersion = Table.empty.schemaVersion ∧
        tableImportCsv (fun _ => Table.empty) 3 (some [44]) 1 =
          some (true, Function.update (fun _ => Table.empty) id t) := by
  refine import_keeps_tables (fun _ => ?_) 3 (some [44]) 1
  exact ⟨by decide, by decide, fun _ => Nat.zero_le _, fun _ _ => Nat.zero_le _⟩

end AnyInput

end Jadren.App.Csv

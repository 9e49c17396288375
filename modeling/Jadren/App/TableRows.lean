import Jadren.App.Table
import Mathlib.Data.List.Sort

/-!
# Rows of a table

The rows of a table are the first of the places for rows, and what `storeValid` checks of a table is
that its names are identifiers, that no two columns share one, and that the cells of its rows have
the kinds of their columns.
-/

namespace Jadren.App

open List

/-- The places before a bound are the first ones. -/
theorem finRange_filter_lt (n bound : ℕ) :
    (finRange n).filter (fun i : Fin n => i < bound) = (finRange n).take bound := by
  have htake : ∀ i ∈ (finRange n).take bound, decide (i.val < bound) = true := by
    intro i hi
    obtain ⟨k, hk, rfl⟩ := mem_take_iff_getElem.mp hi
    rw [getElem_finRange]
    exact decide_eq_true (lt_min_iff.mp hk).1
  have hdrop : ∀ i ∈ (finRange n).drop bound, ¬ decide (i.val < bound) = true := by
    intro i hi
    obtain ⟨k, hk, rfl⟩ := mem_drop_iff_getElem.mp hi
    rw [getElem_finRange]
    simp
  calc (finRange n).filter (fun i : Fin n => i < bound)
      = ((finRange n).take bound ++ (finRange n).drop bound).filter
          (fun i : Fin n => i < bound) := by rw [take_append_drop]
    _ = (finRange n).take bound := by
        rw [filter_append, filter_eq_self.mpr htake, filter_eq_nil_iff.mpr hdrop,
          append_nil]

theorem getD_map_take {α : Type*} {n : ℕ} (f : Fin n → α) (bound : ℕ) (i : Fin n) (d : α) :
    (((finRange n).take bound).map f).getD i d = if i < bound then f i else d := by
  rw [getD_eq_getElem?_getD, getElem?_map]
  split
  next hlt =>
    rw [getElem?_take_of_lt hlt, getElem?_eq_getElem (by simp), getElem_finRange]
    rfl
  next hge =>
    rw [getElem?_take_eq_none (not_lt.mp hge)]
    rfl

namespace Table

variable {t : Table}

theorem mem_rows {row : Fin tableMaxRows} : row ∈ t.rows ↔ row < t.rowCount := by
  simp [rows]

theorem rows_eq : t.rows = (finRange tableMaxRows).take t.rowCount :=
  finRange_filter_lt tableMaxRows t.rowCount

theorem length_rows : t.rows.length = t.rowCount := by
  rw [rows_eq, length_take, length_finRange]
  exact min_eq_left t.rowCount_le

/-- What the place of a row holds in a list with an entry for each row. -/
theorem getD_map_rows {α : Type*} (f : Fin tableMaxRows → α) (row : Fin tableMaxRows) (d : α) :
    (t.rows.map f).getD row d = if row < t.rowCount then f row else d := by
  rw [rows_eq]
  exact getD_map_take f t.rowCount row d

/-- What `storeValid` checks. -/
structure Valid (t : Table) : Prop where
  name : ∀ column, columnNameValid (t.columnNames column) = true
  unique : ∀ a b, t.columnNames a ≠ [] → t.columnNames a = t.columnNames b → a = b
  cell : ∀ row : Fin tableMaxRows, row < t.rowCount → ∀ column,
    valueValid (t.cells row column) (t.columnTypes column) = true

theorem storeValid_iff : t.storeValid = true ↔ t.Valid := by
  simp only [storeValid, Bool.and_eq_true, all_eq_true, mem_finRange, true_imp_iff,
    Bool.or_eq_true, List.isEmpty_iff, decide_eq_true_eq, bne_iff_ne, mem_rows]
  constructor
  · rintro ⟨hnames, hcells⟩
    refine ⟨fun column => (hnames column).1, fun a b hne heq => ?_, hcells⟩
    rcases lt_trichotomy a b with hlt | rfl | hlt
    · rcases (hnames a).2 with hnil | hother
      · exact absurd hnil hne
      · exact absurd heq.symm ((hother b).resolve_left (not_le.mpr hlt))
    · rfl
    · rcases (hnames b).2 with hnil | hother
      · exact absurd (heq.trans hnil) hne
      · exact absurd heq ((hother a).resolve_left (not_le.mpr hlt))
  · intro h
    refine ⟨fun column => ⟨h.name column, or_iff_not_imp_left.mpr fun hne other => ?_⟩, h.cell⟩
    refine or_iff_not_imp_left.mpr fun hgt heq => hgt ?_
    exact (h.unique column other hne heq.symm).ge

end Table

end Jadren.App

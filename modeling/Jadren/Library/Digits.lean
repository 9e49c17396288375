import Mathlib.Algebra.Order.Ring.Nat
import Mathlib.Data.List.Basic

/-!
# Reading numbers

Digits are read from left to right into a value that must not grow above a limit, the check made
before the multiplication.  What is read is exactly the value of the digits, and reading fails
exactly where there is another character or the value is above the limit.
-/

namespace Jadren.Digits

variable {α : Type*}

/-- The value after the digits, which stays at or below the limit. -/
def read (digit : α → Option ℕ) (base limit : ℕ) : ℕ → List α → Option ℕ
  | value, [] => some value
  | value, c :: rest =>
    match digit c with
    | none => none
    | some d =>
      if value > (limit - d) / base then none
      else read digit base limit (value * base + d) rest

/-- The number that digits stand for after a value. -/
def number (base : ℕ) : ℕ → List ℕ → ℕ
  | value, [] => value
  | value, d :: rest => number base (value * base + d) rest

variable {digit : α → Option ℕ} {base limit value : ℕ}

theorem le_number (hbase : 0 < base) (value : ℕ) (ds : List ℕ) : value ≤ number base value ds := by
  induction ds generalizing value with
  | nil => exact le_rfl
  | cons d ds ih =>
      calc value ≤ value * base := Nat.le_mul_of_pos_right value hbase
        _ ≤ value * base + d := Nat.le_add_right _ _
        _ ≤ number base (value * base + d) ds := ih _

/-- The check before the multiplication is the check after it. -/
theorem check_iff (value : ℕ) {d : ℕ} (hbase : 0 < base) (hd : d ≤ limit) :
    value > (limit - d) / base ↔ limit < value * base + d := by
  rw [gt_iff_lt, Nat.div_lt_iff_lt_mul hbase]
  omega

/-- Exactly the digits of a number up to the limit are read, and as that number. -/
theorem read_eq_some (hbase : 0 < base) (hdigit : ∀ c d, digit c = some d → d ≤ limit)
    {text : List α} (hvalue : value ≤ limit) {n : ℕ} :
    read digit base limit value text = some n ↔
      ∃ ds, text.map digit = ds.map some ∧ n = number base value ds ∧ n ≤ limit := by
  induction text generalizing value with
  | nil =>
      constructor
      · intro h
        obtain rfl : value = n := Option.some.inj h
        exact ⟨[], rfl, rfl, hvalue⟩
      · rintro ⟨ds, hds, rfl, -⟩
        obtain rfl : ds = [] := by simpa using hds.symm
        rfl
  | cons c text ih =>
      unfold read
      cases hc : digit c with
      | none =>
          constructor
          · exact fun h => absurd h (by simp)
          · rintro ⟨ds, hds, -⟩
            cases ds <;> simp [hc] at hds
      | some d =>
          have hcheck := check_iff value hbase (hdigit c d hc)
          simp only
          split
          next hover =>
            -- the rest can only make the number larger
            constructor
            · exact fun h => absurd h (by simp)
            · rintro ⟨ds, hds, rfl, hle⟩
              cases ds with
              | nil => simp at hds
              | cons e ds =>
                  obtain rfl : d = e := by simpa [hc] using (List.cons.inj hds).1
                  have hgrow := le_number hbase (value * base + d) ds
                  have hlt := hcheck.mp hover
                  simp only [number] at hle
                  omega
          next hfits =>
            have hnext : value * base + d ≤ limit := Nat.le_of_not_lt (mt hcheck.mpr hfits)
            rw [ih hnext]
            constructor
            · rintro ⟨ds, hds, hn, hle⟩
              exact ⟨d :: ds, by simp [hc, hds], hn, hle⟩
            · rintro ⟨ds, hds, hn, hle⟩
              cases ds with
              | nil => simp at hds
              | cons e ds =>
                  obtain rfl : d = e := by simpa [hc] using (List.cons.inj hds).1
                  exact ⟨ds, (List.cons.inj hds).2, hn, hle⟩

/-- The value of a decimal digit. -/
def decimal (c : UInt8) : Option ℕ := if 48 ≤ c ∧ c ≤ 57 then some (c.toNat - 48) else none

/-- The value of a hexadecimal digit in either case. -/
def hexadecimal (c : UInt8) : Option ℕ :=
  if 48 ≤ c ∧ c ≤ 57 then some (c.toNat - 48)
  else if 97 ≤ c ∧ c ≤ 102 then some (c.toNat - 97 + 10)
  else if 65 ≤ c ∧ c ≤ 70 then some (c.toNat - 65 + 10)
  else none

theorem decimal_le {c : UInt8} {d : ℕ} (h : decimal c = some d) : d ≤ 9 := by
  unfold decimal at h
  split at h
  next hc =>
    have hle : c.toNat ≤ 57 := UInt8.le_iff_toNat_le.mp hc.2
    have hd := Option.some.inj h
    omega
  next => exact absurd h (by simp)

end Jadren.Digits

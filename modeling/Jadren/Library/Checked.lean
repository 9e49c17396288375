import Jadren.Library.Scanning

/-!
# Checked computations

Reads and writes in memory and arithmetic on words of 64 bits, with `none` outside the memory and
for a result that does not fit.  A loop of such computations also ends with `none` if it runs out of
fuel, so that a program that returns `some` result neither leaves its memory, nor wraps, nor runs
on.
-/

namespace Jadren.Checked

variable {α σ β : Type*}

def load (data : List α) (i : ℕ) : Option α := data[i]?

def store (data : List α) (i : ℕ) (x : α) : Option (List α) :=
  if i < data.length then some (data.set i x) else none

/-- The entries of a range, read one by one. -/
def copy (data : List α) (start length : ℕ) : Option (List α) :=
  if start + length ≤ data.length then some (slice data start length) else none

def add (a b : ℕ) : Option ℕ := if a + b < 2 ^ 64 then some (a + b) else none

def sub (a b : ℕ) : Option ℕ := if b ≤ a then some (a - b) else none

def mul (a b : ℕ) : Option ℕ := if a * b < 2 ^ 64 then some (a * b) else none

theorem load_of_drop {data rest : List α} {i : ℕ} {x : α} (h : data.drop i = x :: rest) :
    load data i = some x := by
  unfold load
  rw [← Nat.add_zero i, ← List.getElem?_drop, h]
  rfl

theorem store_eq {before after : List α} (x y : α) :
    store (before ++ x :: after) before.length y = some (before ++ y :: after) := by
  unfold store
  rw [if_pos (by simp), List.set_append_right _ _ le_rfl, Nat.sub_self, List.set_cons_zero]

theorem load_eq {before after : List α} (x : α) :
    load (before ++ x :: after) before.length = some x := by
  unfold load
  rw [List.getElem?_append_right le_rfl, Nat.sub_self, List.getElem?_cons_zero]

theorem copy_eq {data : List α} {start length : ℕ} (h : start + length ≤ data.length) :
    copy data start length = some (slice data start length) := if_pos h

theorem add_eq {a b : ℕ} (h : a + b < 2 ^ 64) : add a b = some (a + b) := if_pos h

theorem sub_eq {a b : ℕ} (h : b ≤ a) : sub a b = some (a - b) := if_pos h

theorem mul_eq {a b : ℕ} (h : a * b < 2 ^ 64) : mul a b = some (a * b) := if_pos h

/-- Rounds until one ends the loop. -/
def loop (step : σ → Option (σ ⊕ β)) : ℕ → σ → Option β
  | 0, _ => none
  | fuel + 1, s =>
    match step s with
    | none => none
    | some (.inl s') => loop step fuel s'
    | some (.inr b) => some b

variable {step : σ → Option (σ ⊕ β)} {fuel : ℕ} {s s' : σ} {b : β}

theorem loop_done (h : step s = some (.inr b)) (fuel : ℕ) :
    loop step (fuel + 1) s = some b := by
  rw [loop, h]

theorem loop_next (h : step s = some (.inl s')) (fuel : ℕ) :
    loop step (fuel + 1) s = loop step fuel s' := by
  rw [loop, h]

/-- The rule of a loop: rounds keep the invariant and lower the measure, or end with `Q`. -/
theorem loop_rule {I : σ → Prop} {Q : β → Prop} (measure : σ → ℕ)
    (hstep : ∀ s, I s → (∃ s', step s = some (.inl s') ∧ I s' ∧ measure s' < measure s) ∨
      ∃ b, step s = some (.inr b) ∧ Q b)
    (hs : I s) (hfuel : measure s < fuel) : ∃ b, loop step fuel s = some b ∧ Q b := by
  induction fuel generalizing s with
  | zero => exact absurd hfuel (Nat.not_lt_zero _)
  | succ fuel ih =>
      rcases hstep s hs with ⟨s', hnext, hs', hless⟩ | ⟨b, hdone, hb⟩
      · rw [loop_next hnext]
        exact ih hs' (by omega)
      · exact ⟨b, loop_done hdone fuel, hb⟩

end Jadren.Checked

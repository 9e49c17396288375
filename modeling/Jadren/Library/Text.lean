import Mathlib.Data.List.DropRight

/-!
# Texts by lines

A text is cut into lines, a line is trimmed and split at its first separator.  The lemmas say that
these undo putting the pieces together, where the pieces do not hold what the cuts look for.
-/

namespace Jadren.Text

open List

/-- Characters with the Unicode property `White_Space`. -/
def isWhitespace (c : Char) : Bool :=
  (9 ≤ c.toNat && c.toNat ≤ 13) || c.toNat = 0x20 || c.toNat = 0x85 || c.toNat = 0xA0 ||
    c.toNat = 0x1680 || (0x2000 ≤ c.toNat && c.toNat ≤ 0x200A) || c.toNat = 0x2028 ||
    c.toNat = 0x2029 || c.toNat = 0x202F || c.toNat = 0x205F || c.toNat = 0x3000

variable {α : Type*} {c : α} {text : List α}

/-! ### Trimming -/

def trim (space : α → Bool) (text : List α) : List α :=
  (text.dropWhile space).rdropWhile space

variable {space : α → Bool}

theorem dropWhile_eq_self_of_head (h : ∀ c ∈ text.head?, space c = false) :
    text.dropWhile space = text := by
  cases text with
  | nil => rfl
  | cons c => exact dropWhile_cons_of_neg (by simp [h c rfl])

theorem rdropWhile_eq_self_of_last (h : ∀ c ∈ text.getLast?, space c = false) :
    text.rdropWhile space = text := by
  rcases eq_nil_or_concat' text with rfl | ⟨init, c, rfl⟩
  · rfl
  · exact rdropWhile_concat_neg _ _ _ (by simp [h c (by simp)])

/-- A text between two characters that are not space is as it is. -/
theorem trim_eq_self (hfirst : ∀ c ∈ text.head?, space c = false)
    (hlast : ∀ c ∈ text.getLast?, space c = false) : trim space text = text := by
  rw [trim, dropWhile_eq_self_of_head hfirst, rdropWhile_eq_self_of_last hlast]

theorem trim_cons (hc : space c = true) : trim space (c :: text) = trim space text := by
  rw [trim, dropWhile_cons_of_pos hc, trim]

/-- One space after a text that does not begin with one. -/
theorem trim_concat (hc : space c = true) (hne : text ≠ [])
    (hfirst : ∀ c ∈ text.head?, space c = false) :
    trim space (text ++ [c]) = trim space text := by
  have hfirst' : ∀ d ∈ (text ++ [c]).head?, space d = false := by
    rw [head?_append_of_ne_nil text hne]
    exact hfirst
  rw [trim, dropWhile_eq_self_of_head hfirst', rdropWhile_concat_pos _ _ _ hc, trim,
    dropWhile_eq_self_of_head hfirst]

/-! ### Lines -/

variable [DecidableEq α]

def stripLast (c : α) (text : List α) : List α :=
  if text.getLast? = some c then text.dropLast else text

/-- The lines from the middle of a line on: a line ends with a newline and loses a return before
it, and a rest without a newline is a line as it is. -/
def linesFrom (newline ret : α) : List α → List α → List (List α)
  | line, [] => if line = [] then [] else [line]
  | line, c :: rest =>
    if c = newline then stripLast ret line :: linesFrom newline ret [] rest
    else linesFrom newline ret (line ++ [c]) rest

def lines (newline ret : α) (text : List α) : List (List α) := linesFrom newline ret [] text

/-- The text with these lines, each with a newline. -/
def unlines (newline : α) (ls : List (List α)) : List α := ls.flatMap (· ++ [newline])

variable {newline ret sep : α} {rest : List α} {ls : List (List α)}

theorem linesFrom_append (line : List α) {more : List α} (hmore : newline ∉ more) :
    linesFrom newline ret line (more ++ newline :: rest) =
      stripLast ret (line ++ more) :: linesFrom newline ret [] rest := by
  induction more generalizing line with
  | nil => simp [linesFrom]
  | cons c more ih =>
      have hc : c ≠ newline := fun h => hmore (h ▸ mem_cons_self)
      rw [cons_append, linesFrom, if_neg hc, ih _ fun h => hmore (mem_cons_of_mem c h),
        append_assoc, singleton_append]

theorem lines_unlines (h : ∀ l ∈ ls, newline ∉ l ∧ l.getLast? ≠ some ret) :
    lines newline ret (unlines newline ls) = ls := by
  induction ls with
  | nil => rfl
  | cons l ls ih =>
      obtain ⟨⟨hnewline, hret⟩, hrest⟩ := List.forall_mem_cons.mp h
      have htext : unlines newline (l :: ls) = l ++ newline :: unlines newline ls := by
        simp [unlines]
      rw [lines, htext, linesFrom_append [] hnewline, nil_append, stripLast, if_neg hret]
      exact congrArg _ (ih hrest)

/-! ### Splitting -/

/-- The text before the first separator and the text after it. -/
def splitOnce (sep : α) (text : List α) : Option (List α × List α) :=
  if sep ∈ text then
    some (text.takeWhile (fun c => decide (c ≠ sep)),
      (text.dropWhile fun c => decide (c ≠ sep)).tail)
  else none

theorem splitOnce_append (h : sep ∉ text) :
    splitOnce sep (text ++ sep :: rest) = some (text, rest) := by
  have hall : ∀ c ∈ text, decide (c ≠ sep) = true := fun c hc => by
    simpa using fun he : c = sep => h (he ▸ hc)
  rw [splitOnce, if_pos (by simp), takeWhile_append_of_pos hall,
    dropWhile_append_of_pos hall]
  simp

end Jadren.Text

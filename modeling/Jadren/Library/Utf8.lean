import Mathlib.Algebra.BigOperators.Group.List.Basic
import Mathlib.Algebra.Order.Ring.Nat

/-!
# Texts at byte positions

A text is a list of characters, a position in it a number of bytes of its UTF-8 encoding.  To
slice a text at a position inside a character is an error, `none`; `dropBytes_eq_some` says that
all other positions cut the text in two.
-/

namespace Jadren.Utf8

open List

def byteLen (text : List Char) : ℕ := (text.map Char.utf8Size).sum

/-- The text from a position on. -/
def dropBytes : List Char → ℕ → Option (List Char)
  | text, 0 => some text
  | [], _ + 1 => none
  | c :: rest, bytes + 1 =>
      if c.utf8Size ≤ bytes + 1 then dropBytes rest (bytes + 1 - c.utf8Size) else none

/-- The text before a position. -/
def takeBytes : List Char → ℕ → Option (List Char)
  | _, 0 => some []
  | [], _ + 1 => none
  | c :: rest, bytes + 1 =>
      if c.utf8Size ≤ bytes + 1 then (takeBytes rest (bytes + 1 - c.utf8Size)).map (c :: ·)
      else none

/-- The text between two positions. -/
def slice (text : List Char) (start stop : ℕ) : Option (List Char) :=
  if start ≤ stop then (dropBytes text start).bind (takeBytes · (stop - start)) else none

/-- A position between two characters, or at an end of the text. -/
def OnBoundary (text : List Char) (position : ℕ) : Prop :=
  ∃ read rest, text = read ++ rest ∧ byteLen read = position

/-- The bytes of the text. -/
def encode (text : List Char) : List UInt8 := text.flatMap String.utf8EncodeChar

variable {text read rest : List Char} {c : Char} {position : ℕ}

@[simp] theorem byteLen_nil : byteLen [] = 0 := rfl

@[simp] theorem byteLen_cons : byteLen (c :: text) = c.utf8Size + byteLen text := by
  simp [byteLen]

@[simp] theorem byteLen_append : byteLen (read ++ rest) = byteLen read + byteLen rest := by
  simp [byteLen]

theorem length_le_byteLen (text : List Char) : text.length ≤ byteLen text := by
  induction text with
  | nil => exact Nat.le_refl _
  | cons c =>
      have hpos := c.utf8Size_pos
      rw [length_cons, byteLen_cons]
      omega

theorem byteLen_pos (h : text ≠ []) : 0 < byteLen text :=
  Nat.lt_of_lt_of_le (length_pos_of_ne_nil h) (length_le_byteLen text)

theorem dropBytes_append : dropBytes (read ++ rest) (byteLen read) = some rest := by
  induction read with
  | nil => cases rest <;> rfl
  | cons c read ih =>
      have hpos := c.utf8Size_pos
      obtain ⟨bytes, hbytes⟩ : ∃ bytes, byteLen (c :: read) = bytes + 1 :=
        Nat.exists_eq_succ_of_ne_zero (byteLen_pos (cons_ne_nil c read)).ne'
      have hsum : bytes + 1 = c.utf8Size + byteLen read := by rw [← hbytes, byteLen_cons]
      rw [hbytes, cons_append, dropBytes, if_pos (by omega), hsum, Nat.add_sub_cancel_left]
      exact ih

theorem dropBytes_eq_some :
    dropBytes text position = some rest ↔ ∃ read, text = read ++ rest ∧
    byteLen read = position := by
  refine ⟨fun h => ?_, fun ⟨read, htext, hlen⟩ => by rw [htext, ← hlen, dropBytes_append]⟩
  induction text generalizing position with
  | nil =>
      cases position with
      | zero => exact ⟨[], Option.some.inj h, rfl⟩
      | succ => cases h
  | cons c text ih =>
      cases position with
      | zero => exact ⟨[], Option.some.inj h, rfl⟩
      | succ =>
          rw [dropBytes] at h
          split at h
          next hle =>
            obtain ⟨read, htext, hlen⟩ := ih h
            refine ⟨c :: read, by rw [htext, cons_append], ?_⟩
            rw [byteLen_cons, hlen]
            omega
          next => cases h

theorem takeBytes_append : takeBytes (read ++ rest) (byteLen read) = some read := by
  induction read with
  | nil => cases rest <;> rfl
  | cons c read ih =>
      obtain ⟨bytes, hbytes⟩ : ∃ bytes, byteLen (c :: read) = bytes + 1 :=
        Nat.exists_eq_succ_of_ne_zero (byteLen_pos (cons_ne_nil c read)).ne'
      have hsum : bytes + 1 = c.utf8Size + byteLen read := by rw [← hbytes, byteLen_cons]
      rw [hbytes, cons_append, takeBytes, if_pos (by omega), hsum, Nat.add_sub_cancel_left, ih]
      rfl

theorem slice_of_dropBytes (h : dropBytes text position = some (read ++ rest)) :
    slice text position (position + byteLen read) = some read := by
  rw [slice, if_pos (Nat.le_add_right ..), h, Nat.add_sub_cancel_left]
  exact takeBytes_append

theorem dropBytes_add (h : dropBytes text position = some (read ++ rest)) :
    dropBytes text (position + byteLen read) = some rest := by
  obtain ⟨before, rfl, rfl⟩ := dropBytes_eq_some.mp h
  rw [dropBytes_eq_some]
  exact ⟨before ++ read, (append_assoc ..).symm, byteLen_append⟩

theorem dropBytes_cons (h : dropBytes text position = some (c :: rest)) :
    dropBytes text (position + c.utf8Size) = some rest := by
  have hread : dropBytes text position = some ([c] ++ rest) := h
  have hadd := dropBytes_add hread
  rwa [byteLen_cons, byteLen_nil] at hadd

theorem byteLen_of_dropBytes (h : dropBytes text position = some rest) :
    position + byteLen rest = byteLen text := by
  obtain ⟨read, rfl, rfl⟩ := dropBytes_eq_some.mp h
  exact byteLen_append.symm

theorem onBoundary_of_dropBytes (h : dropBytes text position = some rest) :
    OnBoundary text position := by
  obtain ⟨read, htext, hlen⟩ := dropBytes_eq_some.mp h
  exact ⟨read, rest, htext, hlen⟩

theorem exists_read {rest' : List Char} {position' : ℕ} (h : dropBytes text position = some rest)
    (h' : dropBytes text position' = some rest') (hle : position ≤ position') :
    ∃ read, rest = read ++ rest' ∧ position + byteLen read = position' := by
  obtain ⟨before, htext, rfl⟩ := dropBytes_eq_some.mp h
  obtain ⟨before', htext', rfl⟩ := dropBytes_eq_some.mp h'
  obtain ⟨read, hread, hrest⟩ | ⟨read, hread, hrest⟩ :=
    append_eq_append_iff.mp (htext.symm.trans htext')
  · exact ⟨read, hrest, by rw [hread, byteLen_append]⟩
  · -- the second position is not before the first
    have hlen : byteLen read = 0 := by
      rw [hread, byteLen_append] at hle
      omega
    obtain rfl : read = [] := by
      by_contra hne
      exact absurd hlen (byteLen_pos hne).ne'
    exact ⟨[], hrest.symm, by rw [hread, append_nil]; rfl⟩

end Jadren.Utf8

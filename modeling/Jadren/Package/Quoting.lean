import Jadren.Package.Manifest

/-!
# Quoted strings and single lines

What the writer puts between quotes, and how the reader takes one line apart: no comment sign is
found in a line with one quoted string, nothing is trimmed, and the first `=` ends the key.
-/

namespace Jadren.Package

open Jadren.Text (isWhitespace)
open List

/-! ### Characters -/

/-- The characters of names, versions and editions. -/
def isWordChar (c : Char) : Bool := continuesName c || c == '.'

/-- The characters that the writer puts a backslash before. -/
def isSpecial (c : Char) : Bool :=
  c == '"' || c == '\\' || c == '\n' || c == '\r' || c == '\t'

theorem isAlpha_eq (c : Char) : c.isAlpha = (decide (c.val ≥ 'A'.val ∧ c.val ≤ 'Z'.val) ||
    (decide (c.val ≥ 'a'.val) && decide (c.val ≤ 'z'.val))) := rfl

variable {c : Char}

theorem isWordChar_toNat (h : isWordChar c = true) :
    (48 ≤ c.toNat ∧ c.toNat ≤ 57) ∨ (65 ≤ c.toNat ∧ c.toNat ≤ 90) ∨
      (97 ≤ c.toNat ∧ c.toNat ≤ 122) ∨ c.toNat = 95 ∨ c.toNat = 45 ∨ c.toNat = 46 := by
  simp only [isWordChar, continuesName, Bool.or_eq_true, beq_iff_eq, Char.isAlphanum,
    isAlpha_eq, Char.isDigit, Bool.and_eq_true, decide_eq_true_eq, ge_iff_le,
    UInt32.le_iff_toNat_le] at h
  rcases h with (((((h | h) | h) | rfl) | rfl) | rfl)
  · exact .inr (.inl h)
  · exact .inr (.inr (.inl h))
  · exact .inl h
  all_goals decide

theorem ne_of_isWordChar {d : Char} (h : isWordChar c = true) (hd : isWordChar d = false) :
    c ≠ d := by
  rintro rfl
  rw [h] at hd
  exact absurd hd (by decide)

theorem isWhitespace_of_isWordChar (h : isWordChar c = true) : isWhitespace c = false := by
  have hc := isWordChar_toNat h
  simp only [isWhitespace, Bool.or_eq_false_iff, Bool.and_eq_false_iff, decide_eq_false_iff_not]
  omega

theorem isSpecial_of_isWordChar (h : isWordChar c = true) : isSpecial c = false := by
  simp only [isSpecial, Bool.or_eq_false_iff, beq_eq_false_iff_ne]
  exact ⟨⟨⟨⟨ne_of_isWordChar h rfl, ne_of_isWordChar h rfl⟩, ne_of_isWordChar h rfl⟩,
    ne_of_isWordChar h rfl⟩, ne_of_isWordChar h rfl⟩

def IsWord (text : Text) : Prop := ∀ c ∈ text, isWordChar c = true

variable {text : Text}

theorem isWord_of_all (h : text.all isWordChar = true) : IsWord text :=
  all_eq_true.mp h

theorem isWord_of_isName {name : Text} (h : isName name = true) : IsWord name ∧ name ≠ [] := by
  cases name with
  | nil => simp [isName] at h
  | cons c rest =>
      simp only [isName, Bool.and_eq_true, all_eq_true] at h
      refine ⟨forall_mem_cons.mpr ⟨?_, fun d hd => ?_⟩, cons_ne_nil c rest⟩
      · have hc := h.1
        simp only [startsName, Bool.or_eq_true, beq_iff_eq] at hc
        simp only [isWordChar, continuesName, Char.isAlphanum, Bool.or_eq_true, beq_iff_eq]
        tauto
      · simp [isWordChar, h.2 d hd]

theorem isWord_of_isEdition {edition : Text} (h : isEdition edition = true) : IsWord edition := by
  simp only [isEdition, Bool.and_eq_true, all_eq_true] at h
  intro c hc
  simp [isWordChar, continuesName, Char.isAlphanum, h.2 c hc]

theorem mem_intercalate {sep : Char} {parts : List Text} (h : c ∈ [sep].intercalate parts) :
    c = sep ∨ ∃ part ∈ parts, c ∈ part := by
  induction parts with
  | nil => simp [intercalate] at h
  | cons part parts ih =>
      cases parts with
      | nil => exact .inr ⟨part, mem_cons_self, by simpa [intercalate] using h⟩
      | cons next parts =>
          have h' : c ∈ part ∨ c = sep ∨ c ∈ [sep].intercalate (next :: parts) := by
            simpa [intercalate] using h
          rcases h' with h | h | h
          · exact .inr ⟨part, mem_cons_self, h⟩
          · exact .inl h
          · exact (ih h).imp id fun ⟨part', hmem, hc⟩ => ⟨part', mem_cons_of_mem part hmem, hc⟩

theorem isWord_of_isVersion {version : Text} (h : isVersion version = true) : IsWord version := by
  simp only [isVersion, Bool.and_eq_true, all_eq_true] at h
  intro c hc
  have hjoin : c ∈ ['.'].intercalate (version.splitOn '.') := by
    rwa [intercalate_splitOn '.']
  rcases mem_intercalate hjoin with rfl | ⟨part, hpart, hcpart⟩
  · rfl
  · simp [isWordChar, continuesName, Char.isAlphanum, (h.2 part hpart).2 c hcpart]

/-! ### Quoting -/

/-- What the reader takes for a string. -/
def IsPlain (text : Text) : Prop := '"' ∉ text ∧ '\n' ∉ text ∧ '\r' ∉ text

theorem quoteChar_eq_self (h : isSpecial c = false) : quoteChar c = [c] := by
  simp only [isSpecial, Bool.or_eq_false_iff, beq_eq_false_iff_ne] at h
  obtain ⟨⟨⟨⟨h1, h2⟩, h3⟩, h4⟩, h5⟩ := h
  simp [quoteChar, h1, h2, h3, h4, h5]

theorem quoteBody_eq_self (h : ∀ c ∈ text, isSpecial c = false) : quoteBody text = text := by
  induction text with
  | nil => rfl
  | cons c text ih =>
      obtain ⟨hc, hrest⟩ := forall_mem_cons.mp h
      rw [quoteBody, flatMap_cons, quoteChar_eq_self hc, singleton_append]
      exact congrArg _ (ih hrest)

theorem quoteBody_of_isWord (h : IsWord text) : quoteBody text = text :=
  quoteBody_eq_self fun c hc => isSpecial_of_isWordChar (h c hc)

theorem length_quoteChar (c : Char) :
    (quoteChar c).length = if isSpecial c then 2 else 1 := by
  simp only [quoteChar, isSpecial]
  split_ifs <;> simp_all

/-- Nothing is put in exactly if there is no character to put a backslash before. -/
theorem quoteBody_eq_self_iff : quoteBody text = text ↔ ∀ c ∈ text, isSpecial c = false := by
  constructor
  · intro h
    have hle : ∀ t : Text, t.length ≤ (quoteBody t).length := by
      intro t
      induction t with
      | nil => exact le_rfl
      | cons c t ih =>
          rw [quoteBody, flatMap_cons, length_append, length_quoteChar]
          have : t.length ≤ (t.flatMap quoteChar).length := ih
          split <;> simp only [length_cons] <;> omega
    induction text with
    | nil => simp
    | cons c text ih =>
        have hlen := congrArg length h
        have hrest := hle text
        rw [quoteBody, flatMap_cons, length_append, length_quoteChar] at hlen
        simp only [quoteBody] at hrest
        have hc : isSpecial c = false := by
          by_contra hc
          simp only [Bool.not_eq_false] at hc
          rw [if_pos hc] at hlen
          simp only [length_cons] at hlen
          omega
        refine forall_mem_cons.mpr ⟨hc, ih ?_⟩
        rw [quoteBody, flatMap_cons, quoteChar_eq_self hc, singleton_append] at h
        exact (cons.inj h).2
  · exact quoteBody_eq_self

/-- Takes the backslashes out again. -/
def unquoteBody : Text → Text
  | [] => []
  | [c] => [c]
  | c :: d :: rest =>
    if c = '\\' then
      (if d = 'n' then '\n' else if d = 'r' then '\r' else if d = 't' then '\t' else d) ::
        unquoteBody rest
    else c :: unquoteBody (d :: rest)

theorem unquoteBody_cons {c : Char} (h : c ≠ '\\') (rest : Text) :
    unquoteBody (c :: rest) = c :: unquoteBody rest := by
  cases rest <;> simp [unquoteBody, h]

theorem unquoteBody_quoteBody (text : Text) : unquoteBody (quoteBody text) = text := by
  induction text with
  | nil => rfl
  | cons c text ih =>
      rw [quoteBody, flatMap_cons]
      simp only [quoteBody] at ih
      by_cases hc : isSpecial c = true
      · simp only [isSpecial, Bool.or_eq_true, beq_iff_eq] at hc
        rcases hc with (((rfl | rfl) | rfl) | rfl) | rfl <;> simp [quoteChar, unquoteBody, ih]
      · have hne : c ≠ '\\' := by rintro rfl; exact hc rfl
        rw [quoteChar_eq_self (by simpa using hc), singleton_append, unquoteBody_cons hne, ih]

theorem quoteBody_injective : Function.Injective quoteBody :=
  Function.LeftInverse.injective unquoteBody_quoteBody

/-- A written string is on one line and has no quote in it. -/
theorem isPlain_quoteBody (h : IsPlain text) : IsPlain (quoteBody text) := by
  obtain ⟨hquote, hnewline, hreturn⟩ := h
  have hmem : ∀ d, d ∈ quoteBody text → d = '\\' ∨ d = 't' ∨ d ∈ text := by
    intro d hd
    obtain ⟨c, hc, hdc⟩ := mem_flatMap.mp hd
    by_cases hs : isSpecial c = true
    · simp only [isSpecial, Bool.or_eq_true, beq_iff_eq] at hs
      rcases hs with (((rfl | rfl) | rfl) | rfl) | rfl
      · exact absurd hc hquote
      · exact .inl (by simpa [quoteChar] using hdc)
      · exact absurd hc hnewline
      · exact absurd hc hreturn
      · have : d = '\\' ∨ d = 't' := by simpa [quoteChar] using hdc
        exact this.imp id .inl
    · rw [quoteChar_eq_self (by simpa using hs), mem_singleton] at hdc
      exact .inr (.inr (hdc ▸ hc))
  refine ⟨fun hd => ?_, fun hd => ?_, fun hd => ?_⟩
  · rcases hmem _ hd with h | h | h
    exacts [absurd h (by decide), absurd h (by decide), hquote h]
  · rcases hmem _ hd with h | h | h
    exacts [absurd h (by decide), absurd h (by decide), hnewline h]
  · rcases hmem _ hd with h | h | h
    exacts [absurd h (by decide), absurd h (by decide), hreturn h]

theorem isPlain_of_isWord (h : IsWord text) : IsPlain text :=
  ⟨fun hc => absurd (h _ hc) (by decide), fun hc => absurd (h _ hc) (by decide),
    fun hc => absurd (h _ hc) (by decide)⟩

theorem parseString_quote (h : IsPlain text) (line : ℕ) :
    parseString (quote text) line = .ok (quoteBody text) := by
  obtain ⟨hquote, hnewline, hreturn⟩ := isPlain_quoteBody h
  have hlen : ¬ byteLen (quote text) < 2 := by
    simp only [byteLen, quote, cons_append, map_cons, map_append, map_nil,
      sum_cons, sum_append, show Char.utf8Size '"' = 1 from rfl, sum_nil]
    omega
  have hlast : (quote text).getLast? = some '"' := getLast?_concat
  have hbody : (quote text).tail.dropLast = quoteBody text := by simp [quote]
  rw [parseString, if_neg (by simp [hlen, hlast, show (quote text).head? = some '"' from rfl]),
    hbody, if_neg (by simp [hquote, hnewline, hreturn])]

/-! ### Lines -/

/-- Before a quote or a comment nothing is cut off, and between quotes nothing at all. -/
theorem stripCommentFrom_append {inString : Bool} {text : Text} (rest : Text)
    (hquote : '"' ∉ text) (hcomment : inString = true ∨ '#' ∉ text) :
    stripCommentFrom inString (text ++ rest) = text ++ stripCommentFrom inString rest := by
  induction text with
  | nil => rfl
  | cons c text ih =>
      obtain ⟨hc, hquote⟩ := ne_and_not_mem_of_not_mem_cons hquote
      have hcomment' : inString = true ∨ '#' ∉ text :=
        hcomment.imp id fun h hmem => h (mem_cons_of_mem c hmem)
      have hkeep : ¬ (c = '#' ∧ inString = false) := by
        rintro ⟨rfl, hout⟩
        rcases hcomment with h | h
        · rw [h] at hout
          exact absurd hout (by decide)
        · exact h mem_cons_self
      rw [cons_append, stripCommentFrom, if_neg hc.symm, if_neg hkeep, ih hquote hcomment',
        cons_append]

/-- A line with one quoted string and no comment sign around it. -/
theorem stripComment_quoted {before body after : Text} (hbefore : '"' ∉ before ∧ '#' ∉ before)
    (hbody : '"' ∉ body) (hafter : '"' ∉ after ∧ '#' ∉ after) :
    stripComment (before ++ ('"' :: body ++ ['"']) ++ after) =
      before ++ ('"' :: body ++ ['"']) ++ after := by
  have hend : stripCommentFrom false after = after := by
    have h : stripCommentFrom false (after ++ []) = after ++ stripCommentFrom false [] :=
      stripCommentFrom_append [] hafter.1 (.inr hafter.2)
    rwa [stripCommentFrom, append_nil] at h
  have hclose : stripCommentFrom true ('"' :: after) = '"' :: after := by
    rw [stripCommentFrom, if_pos rfl, Bool.not_true, hend]
  have hopen : stripCommentFrom false ('"' :: (body ++ '"' :: after)) =
      '"' :: (body ++ '"' :: after) := by
    rw [stripCommentFrom, if_pos rfl, Bool.not_false,
      stripCommentFrom_append _ hbody (.inl rfl), hclose]
  have hshape : before ++ ('"' :: body ++ ['"']) ++ after =
      before ++ '"' :: (body ++ '"' :: after) := by simp
  rw [hshape, stripComment, stripCommentFrom_append _ hbefore.1 (.inr hbefore.2), hopen]

theorem trim_eq_self (hfirst : ∀ c ∈ text.head?, isWhitespace c = false)
    (hlast : ∀ c ∈ text.getLast?, isWhitespace c = false) : trim text = text :=
  Jadren.Text.trim_eq_self hfirst hlast

theorem trim_word (h : IsWord text) : trim text = text :=
  trim_eq_self (fun c hc => isWhitespace_of_isWordChar (h c (mem_of_mem_head? hc)))
    fun c hc => isWhitespace_of_isWordChar (h c (mem_of_mem_getLast? hc))

theorem trim_word_space (h : IsWord text) : trim (text ++ [' ']) = text := by
  rcases eq_nil_or_concat' text with rfl | ⟨_, _, htext⟩
  · rfl
  · rw [trim, Jadren.Text.trim_concat rfl (by simp [htext])
      fun c hc => isWhitespace_of_isWordChar (h c (mem_of_mem_head? hc))]
    exact trim_word h

theorem trim_quote (text : Text) : trim (quote text) = quote text := by
  refine trim_eq_self (fun c hc => ?_) fun c hc => ?_
  · obtain rfl : '"' = c := by simpa [quote] using hc
    rfl
  · obtain rfl : '"' = c := by
      have hlast : (quote text).getLast? = some '"' := getLast?_concat
      simpa [hlast] using hc
    rfl

/-- A line `key = value` is read as an assignment in the current section. -/
theorem parseLine_assignment {key value : Text} {name : SectionName} {state : Reading}
    (hkey : IsWord key) (hne : key ≠ []) (hcurrent : state.current = some name)
    (hcomment : stripComment (key ++ " = ".toList ++ value) = key ++ " = ".toList ++ value)
    (hvalue : ∀ c ∈ value.getLast?, isWhitespace c = false) (hvalue' : value ≠ [])
    (hfirst : ∀ c ∈ value.head?, isWhitespace c = false) (number : ℕ) :
    parseLine number (key ++ " = ".toList ++ value) state =
      assign name key value number state := by
  obtain ⟨c, rest, rfl⟩ := exists_cons_of_ne_nil hne
  have hc := hkey c mem_cons_self
  have hline : trim (c :: rest ++ " = ".toList ++ value) = c :: rest ++ " = ".toList ++ value := by
    refine trim_eq_self (fun d hd => ?_) fun d hd => ?_
    · obtain rfl : c = d := by simpa using hd
      exact isWhitespace_of_isWordChar hc
    · rw [getLast?_append_of_ne_nil _ hvalue'] at hd
      exact hvalue d hd
  have hsplit : Jadren.Text.splitOnce '=' (c :: rest ++ " = ".toList ++ value) =
      some (c :: rest ++ [' '], ' ' :: value) := by
    have hshape : c :: rest ++ " = ".toList ++ value =
        (c :: rest ++ [' ']) ++ '=' :: ' ' :: value := by simp
    rw [hshape]
    refine Jadren.Text.splitOnce_append fun hmem => ?_
    rcases mem_append.mp hmem with hmem | hmem
    · exact absurd (hkey _ hmem) (by decide)
    · exact absurd (mem_singleton.mp hmem) (by decide)
  have htrim : trim (' ' :: value) = value := by
    rw [trim, Jadren.Text.trim_cons rfl]
    exact trim_eq_self hfirst hvalue
  have hhead : c ≠ '[' := ne_of_isWordChar hc rfl
  unfold parseLine
  simp only [hcomment, hline]
  rw [if_neg (by simp), if_neg (by simp [hhead])]
  simp only [hsplit, hcurrent, trim_word_space hkey, htrim]

end Jadren.Package

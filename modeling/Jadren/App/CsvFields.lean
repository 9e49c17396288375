import Jadren.App.Table
import Jadren.Library.Checked
import Jadren.Library.Program

/-!
# Fields of comma-separated values

A field is written as its text, or between quotes if it contains a separator, in which case its
own quotes are doubled.  The writer stores byte by byte behind what it has written (`Writes`); the
reader goes over the input by index and copies to a text that has room for `listTextMax` bytes.
Stores outside the output and reads outside the input have no result.

What is written for a text is read back as the text (`csvReadField_field`), and whatever is read
fits an item (`csvReadField_fits`).
-/

namespace Jadren.App.Csv

open Program Checked

/-! ## Writing -/

def csvEscapeRequiresQuotes (text : Text) : Bool :=
  text.any fun c => c == 44 || c == 34 || c == 13 || c == 10

/-- A sum of 64 bits. -/
def csvAddSize (total value : ℕ) : Option ℕ :=
  if total > 2 ^ 64 - 1 - value then none else some (total + value)

/-- The bytes for the text with its quotes doubled, on top of those that are required already. -/
def csvEscapedRequired : ℕ → Text → Option ℕ
  | required, [] => some required
  | required, c :: rest =>
    (csvAddSize required (if c = 34 then 2 else 1)).bind fun required =>
      csvEscapedRequired required rest

def csvFieldRequired (cell : Text) : ℕ :=
  (csvEscapedRequired (if csvEscapeRequiresQuotes cell then 2 else 0) cell).getD 0

/-- The output and the place of the next byte. -/
structure Writing where
  output : Text
  written : ℕ

/-- A part of an export: it may return early, without a result. -/
abbrev WriteCall (α : Type) := Program Writing Unit α

def put (c : UInt8) : WriteCall Unit := do
  let s ← get
  let output ← demand (store s.output s.written c)
  modify fun _ => ⟨output, s.written + 1⟩

/-- A byte of a field, a quote twice. -/
def putEscaped (c : UInt8) : WriteCall Unit := do
  onlyIf (c = 34) (put 34)
  put c

/-- The number of bytes that the call writes. -/
def counting (x : WriteCall Unit) : WriteCall ℕ := do
  let start ← get
  x
  let s ← get
  pure (s.written - start.written)

/-- The number of bytes written for the field, zero if there is no room for it. -/
def csvFieldWrite (cell : Text) (outputLength : ℕ) : WriteCall ℕ :=
  choose (outputLength < csvFieldRequired cell) (pure 0) <| counting do
    onlyIf (csvEscapeRequiresQuotes cell) (put 34)
    forEach putEscaped cell
    onlyIf (csvEscapeRequiresQuotes cell) (put 34)

/-! ## Reading -/

inductive Delimiter
  | comma | row
  deriving DecidableEq

/-- A reader on an input: the state is the offset. -/
abbrev ReadCall (α : Type) := Program ℕ Unit α

/-- One byte of a quoted field: the state is the index and the text so far. -/
def quotedStep (input : Text) (s : ℕ × Text) : Option ((ℕ × Text) ⊕ Option (ℕ × Text)) :=
  if s.1 < input.length then do
    let value ← load input s.1
    if value = 34 then
      if s.1 + 1 < input.length then do
        let next ← load input (s.1 + 1)
        if next = 34 then
          some (if s.2.length ≥ listTextMax then .inr none else .inl (s.1 + 2, s.2 ++ [34]))
        else some (.inr (some (s.1 + 1, s.2)))
      else some (.inr (some (s.1 + 1, s.2)))
    else some (if s.2.length ≥ listTextMax then .inr none else .inl (s.1 + 1, s.2 ++ [value]))
  else some (.inr none)

/-- One byte of a field without quotes. -/
def plainStep (input : Text) (s : ℕ × Text) : Option ((ℕ × Text) ⊕ Option (ℕ × Text)) :=
  if s.1 < input.length then do
    let value ← load input s.1
    if value = 44 ∨ value = 10 ∨ value = 13 then some (.inr (some s))
    else some (if value = 34 ∨ s.2.length ≥ listTextMax then .inr none
      else .inl (s.1 + 1, s.2 ++ [value]))
  else some (.inr (some s))

/-- There is a quote at the offset. -/
def opensQuotes (input : Text) (offset : ℕ) : Option Bool :=
  if offset < input.length then (load input offset).map (· == 34) else some false

/-- The text of the field at the offset, and the index after it. -/
def csvReadText (input : Text) (offset : ℕ) : Option (Option (ℕ × Text)) := do
  let quoted ← opensQuotes input offset
  if quoted then loop (quotedStep input) (input.length + 1) (offset + 1, [])
  else loop (plainStep input) (input.length + 1) (offset, [])

/-- What ends the field before the index, and the offset behind it. -/
def csvReadDelimiter (input : Text) (index : ℕ) : Option (Option (Delimiter × ℕ)) :=
  if index = input.length then some (some (.row, index))
  else do
    let value ← load input index
    if value = 44 then some (some (.comma, index + 1))
    else if value = 10 then some (some (.row, index + 1))
    else if value = 13 then
      if index + 1 ≥ input.length then some none
      else do
        let next ← load input (index + 1)
        some (if next ≠ 10 then none else some (.row, index + 2))
    else some none

def csvReadField (input : Text) : ReadCall (Delimiter × Text) := do
  let offset ← get
  failIf (offset > input.length) ()
  let field ← demand (csvReadText input offset)
  let (index, text) ← orFail field ()
  let ending ← demand (csvReadDelimiter input index)
  let (delimiter, next) ← orFail ending ()
  modify fun _ => next
  pure (delimiter, text)

/-! ## What is written -/

/-- The text with its quotes doubled. -/
def escaped (text : Text) : Text := text.flatMap fun c => if c = 34 then [34, 34] else [c]

/-- The quotes around a field. -/
def marks (text : Text) : Text := if csvEscapeRequiresQuotes text then [34] else []

def csvField (text : Text) : Text := marks text ++ escaped text ++ marks text

theorem escaped_cons (c : UInt8) (text : Text) :
    escaped (c :: text) = (if c = 34 then [34, 34] else [c]) ++ escaped text :=
  List.flatMap_cons

theorem length_escaped_le (text : Text) : (escaped text).length ≤ 2 * text.length := by
  induction text with
  | nil => exact le_rfl
  | cons =>
      rw [escaped_cons, List.length_append, List.length_cons]
      split
      · rw [List.length_cons, List.length_singleton]
        omega
      · rw [List.length_singleton]
        omega

theorem length_csvField_le (text : Text) : (csvField text).length ≤ 2 * text.length + 2 := by
  have hle := length_escaped_le text
  have hmarks : (marks text).length ≤ 1 := by
    unfold marks
    split
    · exact le_rfl
    · exact Nat.zero_le 1
  unfold csvField
  rw [List.length_append, List.length_append]
  omega

theorem csvAddSize_eq {total value : ℕ} (h : total + value < 2 ^ 64) :
    csvAddSize total value = some (total + value) := if_neg (by omega)

theorem csvEscapedRequired_eq {required : ℕ} {text : Text}
    (h : required + (escaped text).length < 2 ^ 64) :
    csvEscapedRequired required text = some (required + (escaped text).length) := by
  induction text generalizing required with
  | nil => rfl
  | cons c text ih =>
      have hlength : (if c = 34 then 2 else 1) + (escaped text).length =
          (escaped (c :: text)).length := by
        rw [escaped_cons, List.length_append]
        split
        · rfl
        · rfl
      unfold csvEscapedRequired
      rw [csvAddSize_eq (by omega), Option.bind_some, ih (by omega), Nat.add_assoc, hlength]

/-- As many bytes are required as are written. -/
theorem csvFieldRequired_eq {text : Text} (h : text.length ≤ listTextMax) :
    csvFieldRequired text = (csvField text).length := by
  have hle := length_escaped_le text
  unfold listTextMax at h
  have hmarks : (if csvEscapeRequiresQuotes text then 2 else 0) = 2 * (marks text).length := by
    unfold marks
    split
    · rfl
    · rfl
  have hmarks' : (marks text).length ≤ 1 := by
    unfold marks
    split
    · exact le_rfl
    · exact Nat.zero_le 1
  unfold csvFieldRequired
  rw [csvEscapedRequired_eq (by omega), Option.getD_some, hmarks, csvField, List.length_append,
    List.length_append]
  omega

/-- The output after more bytes. -/
def Writing.wrote (s : Writing) (bytes : Text) : Writing :=
  ⟨s.output.take s.written ++ bytes ++ s.output.drop (s.written + bytes.length),
    s.written + bytes.length⟩

/-- The output has room for as many bytes. -/
def Writing.Room (s : Writing) (count : ℕ) : Prop := s.written + count ≤ s.output.length

theorem Writing.wrote_nil (s : Writing) : s.wrote [] = s := by
  unfold Writing.wrote
  rw [List.append_nil, List.length_nil, Nat.add_zero, List.take_append_drop]

theorem Writing.length_wrote {s : Writing} {bytes : Text} (h : s.Room bytes.length) :
    (s.wrote bytes).output.length = s.output.length := by
  unfold Writing.Room at h
  simp only [Writing.wrote, List.length_append, List.length_take, List.length_drop]
  omega

theorem Writing.wrote_wrote {s : Writing} {bytes bytes' : Text}
    (h : s.Room (bytes ++ bytes').length) :
    (s.wrote bytes).wrote bytes' = s.wrote (bytes ++ bytes') := by
  unfold Writing.Room at h
  rw [List.length_append] at h
  have hlength : (s.output.take s.written ++ bytes).length = s.written + bytes.length := by
    rw [List.length_append, List.length_take]
    omega
  unfold Writing.wrote
  simp only
  rw [List.length_append, ← Nat.add_assoc, List.take_left' hlength,
    List.append_assoc (s.output.take s.written ++ bytes), ← List.append_assoc _ bytes bytes',
    List.append_assoc _ bytes']
  congr 3
  rw [List.drop_append, hlength, List.drop_eq_nil_of_le (by omega), List.nil_append,
    List.drop_drop]
  congr 1
  omega

/-- Where there is room the call writes the bytes and returns the value. -/
def Writes {α : Type} (x : WriteCall α) (bytes : Text) (a : α) : Prop :=
  ∀ s : Writing, s.Room bytes.length → x s = some (.ok a, s.wrote bytes)

namespace Writes

variable {α β : Type} {x : WriteCall α} {bytes bytes' : Text} {a : α}

theorem pure (a : α) : Writes (Pure.pure a : WriteCall α) [] a := by
  intro s _
  rw [s.wrote_nil]
  rfl

theorem bind {f : α → WriteCall β} {b : β} (hx : Writes x bytes a) (hf : Writes (f a) bytes' b) :
    Writes (x >>= f) (bytes ++ bytes') b := by
  intro s hroom
  have hleft : s.Room bytes.length := by
    unfold Writing.Room at hroom ⊢
    rw [List.length_append] at hroom
    omega
  have hright : (s.wrote bytes).Room bytes'.length := by
    unfold Writing.Room at hroom ⊢
    rw [Writing.length_wrote hleft]
    simp only [Writing.wrote]
    rw [List.length_append] at hroom
    omega
  rw [bind_of_ok (hx s hleft), hf _ hright, Writing.wrote_wrote hroom]

theorem put (c : UInt8) : Writes (put c) [c] () := by
  intro s hroom
  have hlt : s.written < s.output.length := hroom
  have hstore : store s.output s.written c = some (s.wrote [c]).output := by
    unfold store
    rw [if_pos hlt]
    unfold Writing.wrote
    rw [List.set_eq_take_append_cons_drop, if_pos hlt, List.append_assoc]
    rfl
  have hget : (get : WriteCall Writing) s = some (.ok s, s) := rfl
  have hdemand : (demand (store s.output s.written c) : WriteCall Text) s =
      some (.ok (s.wrote [c]).output, s) := by
    rw [hstore]
    rfl
  unfold Csv.put
  rw [bind_of_ok hget, bind_of_ok hdemand]
  rfl

theorem onlyIf {c : Prop} [Decidable c] {x : WriteCall Unit} (h : c → Writes x bytes ()) :
    Writes (Program.onlyIf c x) (if c then bytes else []) () := by
  unfold Program.onlyIf
  split
  next hc => exact h hc
  next => exact pure ()

theorem forEach {ι : Type} {body : ι → WriteCall Unit} {f : ι → Text} {xs : List ι}
    (h : ∀ i ∈ xs, Writes (body i) (f i) ()) :
    Writes (Program.forEach body xs) (xs.flatMap f) () := by
  induction xs with
  | nil => exact pure ()
  | cons i xs ih =>
      obtain ⟨hi, hrest⟩ := List.forall_mem_cons.mp h
      rw [List.flatMap_cons]
      exact hi.bind (ih hrest)

theorem counting {x : WriteCall Unit} (h : Writes x bytes ()) :
    Writes (counting x) bytes bytes.length := by
  intro s hroom
  have hget : ∀ s' : Writing, (get : WriteCall Writing) s' = some (.ok s', s') := fun _ => rfl
  have hcount : (s.wrote bytes).written - s.written = bytes.length := Nat.add_sub_cancel_left ..
  unfold Csv.counting
  rw [bind_of_ok (hget s), bind_of_ok (h s hroom), bind_of_ok (hget _), hcount]
  rfl

end Writes

theorem writes_putEscaped (c : UInt8) :
    Writes (putEscaped c) (if c = 34 then [34, 34] else [c]) () := by
  have hall := Writes.bind (f := fun _ => put c) (Writes.onlyIf fun _ : c = 34 => Writes.put 34)
    (Writes.put c)
  by_cases hc : c = 34
  · subst hc
    exact hall
  · rw [if_neg hc] at hall ⊢
    exact hall

theorem writes_csvFieldWrite {text : Text} {outputLength : ℕ} (htext : text.length ≤ listTextMax)
    (hroom : (csvField text).length ≤ outputLength) :
    Writes (csvFieldWrite text outputLength) (csvField text) (csvField text).length := by
  have hmark : Writes (onlyIf (csvEscapeRequiresQuotes text) (put 34)) (marks text) () :=
    Writes.onlyIf fun _ => Writes.put 34
  have hbody : Writes (forEach putEscaped text) (escaped text) () :=
    Writes.forEach fun c _ => writes_putEscaped c
  unfold csvFieldWrite choose
  rw [csvFieldRequired_eq htext, if_neg (not_lt.mpr hroom), csvField, List.append_assoc]
  exact (hmark.bind (hbody.bind hmark)).counting

/-! ## What is read -/

section Reading

variable {input text rest : Text} {c : UInt8} {offset start : ℕ}

/-- Where the rest of the input begins with a byte. -/
theorem drop_cons (h : input.drop start = c :: rest) :
    start < input.length ∧ load input start = some c ∧ input.drop (start + 1) = rest := by
  refine ⟨?_, load_of_drop h, ?_⟩
  · by_contra hle
    rw [List.drop_eq_nil_of_le (not_lt.mp hle)] at h
    cases h
  · rw [← List.drop_drop, h, List.drop_one, List.tail_cons]

/-- A quote that no other follows ends the field. -/
theorem quotedStep_closed (h : input.drop start = 34 :: c :: rest) (hc : c ≠ 34) :
    quotedStep input (start, text) = some (.inr (some (start + 1, text))) := by
  obtain ⟨hlt, hload, hbehind⟩ := drop_cons h
  obtain ⟨hlt', hload', -⟩ := drop_cons hbehind
  unfold quotedStep
  simp only [hlt, hlt', hload, hload', if_true, if_neg hc, Option.bind_eq_bind, Option.bind_some]

theorem quotedStep_next (h : input.drop start = (if c = 34 then [34, 34] else [c]) ++ rest)
    (hroom : text.length < listTextMax) :
    quotedStep input (start, text) =
      some (.inl (start + (if c = 34 then [34, 34] else [c]).length, text ++ [c])) := by
  have hshort : ¬ text.length ≥ listTextMax := not_le.mpr hroom
  unfold quotedStep
  by_cases hc : c = 34
  · subst hc
    rw [if_pos rfl] at h ⊢
    have hquotes : input.drop start = 34 :: 34 :: rest := h
    obtain ⟨hlt, hload, hbehind⟩ := drop_cons hquotes
    obtain ⟨hlt', hload', -⟩ := drop_cons hbehind
    simp only [hlt, hlt', hload, hload', if_true, if_neg hshort, Option.bind_eq_bind,
      Option.bind_some]
    rfl
  · rw [if_neg hc] at h ⊢
    have hbyte : input.drop start = c :: rest := h
    obtain ⟨hlt, hload, -⟩ := drop_cons hbyte
    simp only [hlt, hload, if_true, if_neg hc, if_neg hshort, Option.bind_eq_bind,
      Option.bind_some, List.length_singleton]

/-- The loop over a quoted field, which something other than a quote must follow. -/
theorem loop_quoted (h : input.drop start = escaped text ++ 34 :: c :: rest) (hc : c ≠ 34)
    (htext : text.length ≤ listTextMax) :
    loop (quotedStep input) (input.length + 1) (start, []) =
      some (some (start + (escaped text).length + 1, text)) := by
  have hloop : ∃ b, loop (quotedStep input) (input.length + 1) (start, []) = some b ∧
      b = some (start + (escaped text).length + 1, text) := by
    -- the loop has copied `done` and stands before what is written of `todo`
    refine loop_rule
      (I := fun s => ∃ done todo, done ++ todo = text ∧ s = (start + (escaped done).length, done))
      (fun s => input.length - s.1) ?_ ⟨[], text, rfl, rfl⟩ (by simp only; omega)
    rintro _ ⟨done, todo, hsplit, rfl⟩
    have hescaped : ∀ todo, escaped (done ++ todo) = escaped done ++ escaped todo :=
      fun _ => List.flatMap_append
    have hhere : input.drop (start + (escaped done).length) = escaped todo ++ 34 :: c :: rest := by
      rw [← List.drop_drop, h, ← hsplit, hescaped, List.append_assoc, List.drop_left]
    cases todo with
    | nil =>
        rw [List.append_nil] at hsplit
        exact .inr ⟨_, quotedStep_closed hhere hc, by rw [hsplit]⟩
    | cons x todo =>
        have hroom : done.length < listTextMax := by
          rw [← hsplit, List.length_append, List.length_cons] at htext
          omega
        rw [escaped_cons, List.append_assoc] at hhere
        have hlt : start + (escaped done).length < input.length := by
          have hne : input.drop (start + (escaped done).length) ≠ [] := by
            rw [hhere]
            split <;> simp
          rw [ne_eq, List.drop_eq_nil_iff] at hne
          exact not_le.mp hne
        refine .inl ⟨_, quotedStep_next hhere hroom, ⟨done ++ [x], todo, ?_, ?_⟩, ?_⟩
        · rw [List.append_assoc]
          exact hsplit
        · rw [hescaped, escaped_cons, List.length_append, Nat.add_assoc]
          simp only [escaped, List.flatMap_nil, List.append_nil]
        · have hpos : 0 < (if x = 34 then [34, 34] else [x]).length := by
            split <;> simp
          simp only
          omega
  obtain ⟨b, hb, rfl⟩ := hloop
  exact hb

theorem plainStep_ended (h : input.drop start = c :: rest) (hc : c = 44 ∨ c = 10 ∨ c = 13) :
    plainStep input (start, text) = some (.inr (some (start, text))) := by
  obtain ⟨hlt, hload, -⟩ := drop_cons h
  unfold plainStep
  simp only [hlt, hload, if_true, if_pos hc, Option.bind_eq_bind, Option.bind_some]

theorem plainStep_next (h : input.drop start = c :: rest)
    (hc : (c == 44 || c == 34 || c == 13 || c == 10) = false) (hroom : text.length < listTextMax) :
    plainStep input (start, text) = some (.inl (start + 1, text ++ [c])) := by
  have hshort : ¬ text.length ≥ listTextMax := not_le.mpr hroom
  simp only [Bool.or_eq_false_iff, beq_eq_false_iff_ne] at hc
  obtain ⟨⟨⟨hcomma, hquote⟩, hreturn⟩, hline⟩ := hc
  obtain ⟨hlt, hload, -⟩ := drop_cons h
  unfold plainStep
  simp only [hlt, hload, if_true, hcomma, hquote, hreturn, hline, hshort, or_self, if_false,
    Option.bind_eq_bind, Option.bind_some]

theorem loop_plain (h : input.drop start = text ++ c :: rest) (hc : c = 44 ∨ c = 10 ∨ c = 13)
    (hplain : csvEscapeRequiresQuotes text = false) (htext : text.length ≤ listTextMax) :
    loop (plainStep input) (input.length + 1) (start, []) =
      some (some (start + text.length, text)) := by
  have hloop : ∃ b, loop (plainStep input) (input.length + 1) (start, []) = some b ∧
      b = some (start + text.length, text) := by
    refine loop_rule
      (I := fun s => ∃ done todo, done ++ todo = text ∧ s = (start + done.length, done))
      (fun s => input.length - s.1) ?_ ⟨[], text, rfl, rfl⟩ (by simp only; omega)
    rintro _ ⟨done, todo, hsplit, rfl⟩
    have hhere : input.drop (start + done.length) = todo ++ c :: rest := by
      rw [← List.drop_drop, h, ← hsplit, List.append_assoc, List.drop_left]
    cases todo with
    | nil =>
        rw [List.append_nil] at hsplit
        exact .inr ⟨_, plainStep_ended hhere hc, by rw [hsplit]⟩
    | cons x todo =>
        have hroom : done.length < listTextMax := by
          rw [← hsplit, List.length_append, List.length_cons] at htext
          omega
        have hx : (x == 44 || x == 34 || x == 13 || x == 10) = false := by
          rw [Bool.eq_false_iff]
          exact List.any_eq_false.mp hplain x (hsplit ▸ List.mem_append_right _ List.mem_cons_self)
        rw [List.cons_append] at hhere
        obtain ⟨hlt, -, -⟩ := drop_cons hhere
        refine .inl ⟨_, plainStep_next hhere hx hroom, ⟨done ++ [x], todo, ?_, ?_⟩, ?_⟩
        · rw [List.append_assoc]
          exact hsplit
        · rw [List.length_append, List.length_singleton, Nat.add_assoc]
        · simp only
          omega
  obtain ⟨b, hb, rfl⟩ := hloop
  exact hb

theorem csvReadText_field (h : input.drop offset = csvField text ++ c :: rest)
    (hc : c = 44 ∨ c = 10 ∨ c = 13) (htext : text.length ≤ listTextMax) :
    csvReadText input offset = some (some (offset + (csvField text).length, text)) := by
  have hne : c ≠ 34 := by
    rcases hc with rfl | rfl | rfl <;> decide
  unfold csvField marks at h ⊢
  cases hquoted : csvEscapeRequiresQuotes text with
  | true =>
      rw [hquoted, if_pos rfl] at h
      -- in quotes: the loop goes on to the closing one
      have hfirst : input.drop offset = 34 :: (escaped text ++ 34 :: c :: rest) := by
        rw [h]
        simp
      obtain ⟨hlt, hload, hbehind⟩ := drop_cons hfirst
      have hopens : opensQuotes input offset = some true := by
        rw [opensQuotes, if_pos hlt, hload]
        rfl
      unfold csvReadText
      simp only [hopens, Option.bind_eq_bind, Option.bind_some, if_true,
        loop_quoted hbehind hne htext, List.length_append, List.length_singleton]
      congr 3
      omega
  | false =>
      rw [hquoted, if_neg Bool.false_ne_true, List.nil_append, List.append_nil] at h
      -- without a byte to escape the field is the text itself
      have hescaped : escaped text = text := by
        have hnone : ∀ x ∈ text, (if x = 34 then [34, 34] else [x]) = [x] := by
          intro x hx
          have hnot := List.any_eq_false.mp hquoted x hx
          simp only [Bool.or_eq_true, beq_iff_eq, not_or] at hnot
          exact if_neg hnot.1.1.2
        calc escaped text = text.flatMap fun x => [x] := List.flatMap_congr hnone
          _ = text := List.flatMap_singleton' text
      rw [hescaped] at h
      have hopens : opensQuotes input offset = some false := by
        have hbegins : ∃ x tail, input.drop offset = x :: tail ∧ x ≠ 34 := by
          cases text with
          | nil => exact ⟨c, rest, h, hne⟩
          | cons x text =>
              refine ⟨x, text ++ c :: rest, h, ?_⟩
              have hnot := List.any_eq_false.mp hquoted x List.mem_cons_self
              simp only [Bool.or_eq_true, beq_iff_eq, not_or] at hnot
              exact hnot.1.1.2
        obtain ⟨x, tail, hbegin, hx⟩ := hbegins
        obtain ⟨hlt, hload, -⟩ := drop_cons hbegin
        rw [opensQuotes, if_pos hlt, hload, Option.map_some, beq_eq_false_iff_ne.mpr hx]
      unfold csvReadText
      simp only [hopens, Option.bind_eq_bind, Option.bind_some, if_neg Bool.false_ne_true,
        loop_plain h hc hquoted htext, List.nil_append, List.append_nil, hescaped]

/-- The delimiter that is written. -/
def Delimiter.byte : Delimiter → UInt8
  | .comma => 44
  | .row => 10

/-- A field that was written is read as its text. -/
theorem csvReadField_field (delimiter : Delimiter)
    (h : input.drop offset = csvField text ++ delimiter.byte :: rest)
    (htext : text.length ≤ listTextMax) :
    csvReadField input offset =
      some (.ok (delimiter, text), offset + (csvField text).length + 1) := by
  have hbyte : delimiter.byte = 44 ∨ delimiter.byte = 10 ∨ delimiter.byte = 13 := by
    cases delimiter with
    | comma => exact .inl rfl
    | row => exact .inr (.inl rfl)
  have hread := csvReadText_field h hbyte htext
  have hbehind : input.drop (offset + (csvField text).length) = delimiter.byte :: rest := by
    rw [← List.drop_drop, h, List.drop_left]
  obtain ⟨hlt, hload, -⟩ := drop_cons hbehind
  have hending : csvReadDelimiter input (offset + (csvField text).length) =
      some (some (delimiter, offset + (csvField text).length + 1)) := by
    unfold csvReadDelimiter
    rw [if_neg hlt.ne, hload]
    cases delimiter with
    | comma => rfl
    | row => rfl
  have hget : (get : ReadCall ℕ) offset = some (.ok offset, offset) := rfl
  have hwithin : (failIf (offset > input.length) () : ReadCall Unit) offset =
      some (.ok (), offset) := by
    rw [failIf, if_neg (by omega)]
    rfl
  unfold csvReadField
  rw [bind_of_ok hget, bind_of_ok hwithin, hread]
  change (do
    let ending ← demand (csvReadDelimiter input (offset + (csvField text).length))
    let (delimiter, next) ← orFail ending ()
    modify fun _ => next
    pure (delimiter, text) : ReadCall (Delimiter × Text)) offset = _
  rw [hending]
  rfl

theorem load_of_lt {i : ℕ} (h : i < input.length) : load input i = some input[i] :=
  List.getElem?_eq_getElem h

/-- The text of an item so far, and the index in the input. -/
def Fitting (input : Text) (s : ℕ × Text) : Prop :=
  s.1 ≤ input.length ∧ s.2.length ≤ listTextMax

/-- What a round of the loops over a field keeps. -/
def RoundFits (input : Text) (s : ℕ × Text)
    (round : Option ((ℕ × Text) ⊕ Option (ℕ × Text))) : Prop :=
  (∃ s', round = some (.inl s') ∧ Fitting input s' ∧ input.length - s'.1 < input.length - s.1) ∨
    ∃ field, round = some (.inr field) ∧ ∀ index text, field = some (index, text) →
      Fitting input (index, text)

/-- One more byte, if the text has room for it. -/
theorem roundFits_push {s : ℕ × Text} {next : ℕ} (c : UInt8) (hlt : s.1 < next)
    (hle : next ≤ input.length) :
    RoundFits input s (some (if s.2.length ≥ listTextMax then .inr none
      else .inl (next, s.2 ++ [c]))) := by
  split
  next => exact .inr ⟨none, rfl, fun _ _ h => nomatch h⟩
  next hroom =>
    refine .inl ⟨_, rfl, ⟨hle, ?_⟩, by simp only; omega⟩
    rw [List.length_append, List.length_singleton]
    omega

theorem quotedStep_fits {s : ℕ × Text} (hs : Fitting input s) :
    RoundFits input s (quotedStep input s) := by
  obtain ⟨hle, hfits⟩ := hs
  unfold quotedStep
  split
  next hlt =>
    have hclosed : RoundFits input s (some (.inr (some (s.1 + 1, s.2)))) :=
      .inr ⟨_, rfl, fun _ _ h => by cases h; exact ⟨hlt, hfits⟩⟩
    rw [load_of_lt hlt, Option.bind_eq_bind, Option.bind_some]
    by_cases hquote : input[s.1] = 34
    · rw [if_pos hquote]
      by_cases hmore : s.1 + 1 < input.length
      · rw [if_pos hmore, load_of_lt hmore, Option.bind_some]
        by_cases hnext : input[s.1 + 1] = 34
        · rw [if_pos hnext]
          exact roundFits_push 34 (by omega) hmore
        · rw [if_neg hnext]
          exact hclosed
      · rw [if_neg hmore]
        exact hclosed
    · rw [if_neg hquote]
      exact roundFits_push _ (Nat.lt_succ_self _) hlt
  next => exact .inr ⟨none, rfl, fun _ _ h => nomatch h⟩

theorem plainStep_fits {s : ℕ × Text} (hs : Fitting input s) :
    RoundFits input s (plainStep input s) := by
  obtain ⟨hle, hfits⟩ := hs
  have hended : RoundFits input s (some (.inr (some s))) :=
    .inr ⟨_, rfl, fun _ _ h => by cases h; exact ⟨hle, hfits⟩⟩
  unfold plainStep
  split
  next hlt =>
    rw [load_of_lt hlt, Option.bind_eq_bind, Option.bind_some]
    split
    · exact hended
    · by_cases hquote : input[s.1] = 34
      · rw [if_pos (.inl hquote)]
        exact .inr ⟨none, rfl, fun _ _ h => nomatch h⟩
      · simp only [hquote, false_or]
        exact roundFits_push _ (Nat.lt_succ_self _) hlt
  next => exact hended

theorem csvReadText_fits (hoffset : offset ≤ input.length) :
    ∃ field, csvReadText input offset = some field ∧ ∀ index text, field = some (index, text) →
      index ≤ input.length ∧ text.length ≤ listTextMax := by
  have hopens : ∃ quoted, opensQuotes input offset = some quoted ∧
      (quoted = true → offset < input.length) := by
    unfold opensQuotes
    split
    next hlt =>
      rw [load_of_lt hlt]
      exact ⟨_, rfl, fun _ => hlt⟩
    next => exact ⟨false, rfl, fun h => nomatch h⟩
  obtain ⟨quoted, hquoted, hlt⟩ := hopens
  unfold csvReadText
  rw [hquoted, Option.bind_eq_bind, Option.bind_some]
  split
  next hq =>
    exact loop_rule (I := Fitting input) (fun s => input.length - s.1)
      (fun s hs => quotedStep_fits hs) ⟨hlt hq, Nat.zero_le _⟩ (by simp only; omega)
  next =>
    exact loop_rule (I := Fitting input) (fun s => input.length - s.1)
      (fun s hs => plainStep_fits hs) ⟨hoffset, Nat.zero_le _⟩ (by simp only; omega)

theorem csvReadDelimiter_fits {index : ℕ} (hindex : index ≤ input.length) :
    ∃ ending, csvReadDelimiter input index = some ending ∧
      ∀ delimiter next, ending = some (delimiter, next) → next ≤ input.length := by
  unfold csvReadDelimiter
  split
  next => exact ⟨_, rfl, fun _ _ h => by cases h; exact hindex⟩
  next hne =>
    have hlt : index < input.length := lt_of_le_of_ne hindex hne
    rw [load_of_lt hlt, Option.bind_eq_bind, Option.bind_some]
    split
    · exact ⟨_, rfl, fun _ _ h => by cases h; exact hlt⟩
    split
    · exact ⟨_, rfl, fun _ _ h => by cases h; exact hlt⟩
    split
    · split
      next => exact ⟨none, rfl, fun _ _ h => nomatch h⟩
      next hmore =>
        rw [load_of_lt (not_le.mp hmore), Option.bind_some]
        refine ⟨_, rfl, fun _ _ h => ?_⟩
        split at h
        · cases h
        · cases h
          omega
    · exact ⟨none, rfl, fun _ _ h => nomatch h⟩

/-- Whatever is read fits an item, and the offset stays within the input. -/
theorem csvReadField_fits (input : Text) (offset : ℕ) :
    wp (csvReadField input)
      (fun field next => field.2.length ≤ listTextMax ∧ next ≤ input.length) (fun _ _ => True)
      offset := by
  refine wp_bind (wp_get (wp_bind (wp_failIf (fun _ => trivial) fun hoffset => ?_)))
  obtain ⟨field, hfield, hfits⟩ := csvReadText_fits (not_lt.mp hoffset)
  refine wp_bind (wp_demand hfield (wp_bind (wp_orFail (fun _ => trivial) ?_)))
  intro found hfound
  obtain ⟨hindex, htext⟩ := hfits found.1 found.2 hfound
  obtain ⟨ending, hending, hnext⟩ := csvReadDelimiter_fits hindex
  refine wp_bind (wp_demand hending (wp_bind (wp_orFail (fun _ => trivial) ?_)))
  intro after hafter
  exact wp_bind (wp_modify (wp_pure ⟨htext, hnext after.1 after.2 hafter⟩))

end Reading

end Jadren.App.Csv

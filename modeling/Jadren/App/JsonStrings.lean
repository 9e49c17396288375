import Jadren.App.StateDocument
import Jadren.Library.Checked

/-!
# Strings of documents by index

The same escapes are walked by three loops over indices: `jsonReadStringEnd` looks for the closing
quote in the whole input, `jsonReadStringLength` counts the characters of a range, and
`jsonReadStringCopy` writes them to a buffer that was checked against the count.  A fourth loop
writes strings.  Here all reads and writes are checked; the readers of the rest of a document, in
`StateDocument`, say what the loops find.

* `jsonReadStringEnd_eq`: the quote is the one that ends the string of the rest.
* `jsonReadStringLength_eq`, `jsonReadStringCopy_eq`: of a range that ends there, as many characters
  are counted as are written, and these are the characters of the string.
* `appendJsonString_spec`, `stringBody_append`: what is written for a text is read as the text.
-/

namespace Jadren.App.JsonStrings

open StateStore (isEscape unescaped stringBody stringUnits)
open Checked List Option

/-! ## Reading -/

/-- One character of the search for the closing quote, which ends with the index behind it. -/
def endStep (data : Text) (index : ℕ) : Option (ℕ ⊕ Option ℕ) :=
  if index < data.length then do
    let c ← load data index
    let next ← add index 1
    if c == 34 then some (.inr (some next))
    else if c < 32 then some (.inr none)
    else if c == 92 then
      if next < data.length then do
        let escape ← load data next
        let behind ← add next 1
        some (if isEscape escape then .inl behind else .inr none)
      else some (.inr none)
    else some (.inl next)
  else some (.inr none)

def jsonReadStringEnd (data : Text) (start : ℕ) : Option (Option ℕ) :=
  if start < data.length then do
    let c ← load data start
    if c == 34 then do
      let index ← add start 1
      loop (endStep data) (data.length + 1) index
    else some none
  else some none

/-- A byte of a range. -/
def readWithin (data : Text) (start stop index : ℕ) : Option UInt8 :=
  if start ≤ index ∧ index < stop then load data index else none

/-- One character of the count: the state is the index and the number so far. -/
def lengthStep (data : Text) (start stop : ℕ) (s : ℕ × ℕ) : Option ((ℕ × ℕ) ⊕ ℕ) := do
  let next ← add s.1 1
  if next < stop then do
    let c ← readWithin data start stop s.1
    if c == 92 then do
      let behind ← add next 1
      if behind < stop then do
        let escape ← readWithin data start stop next
        if escape == 117 then some (.inr 0)
        else do
          let length ← add s.2 1
          some (.inl (behind, length))
      else some (.inr 0)
    else do
      let length ← add s.2 1
      some (.inl (next, length))
  else some (.inr s.2)

def jsonReadStringLength (data : Text) (start stop : ℕ) : Option ℕ := do
  let index ← add start 1
  if stop ≤ index then some 0
  else do
    let first ← readWithin data start stop start
    let last ← readWithin data start stop (stop - 1)
    if first == 34 && last == 34 then
      loop (lengthStep data start stop) (data.length + 1) (index, 0)
    else some 0

/-- The state is the index, the number of characters written and the buffer. -/
structure Copying where
  index : ℕ
  offset : ℕ
  output : Text

/-- A character for the buffer; the index is then the one behind it. -/
def Copying.put (s : Copying) (behind : ℕ) (c : UInt8) : Option (Copying ⊕ (ℕ × Text)) := do
  let output ← store s.output s.offset c
  let offset ← add s.offset 1
  some (.inl ⟨behind, offset, output⟩)

def copyStep (data : Text) (start stop : ℕ) (s : Copying) :
    Option (Copying ⊕ (ℕ × Text)) := do
  let next ← add s.index 1
  if next < stop then do
    let c ← readWithin data start stop s.index
    if c == 92 then do
      let escape ← readWithin data start stop next
      let behind ← add next 1
      s.put behind (unescaped escape)
    else s.put next c
  else some (.inr (s.offset, s.output))

/-- The number of characters written, and the buffer. -/
def jsonReadStringCopy (data : Text) (start stop : ℕ) (output : Text) : Option (ℕ × Text) := do
  let index ← add start 1
  loop (copyStep data start stop) (data.length + 1) ⟨index, 0, output⟩

/-- How a string goes to a buffer once its range has been found: not at all if the buffer has no
place for it. -/
def jsonObjectReadStringAt (data : Text) (start stop : ℕ) (output : Option Text) :
    Option (ℕ × Option Text) := do
  let required ← jsonReadStringLength data start stop
  match output with
  | none => some (0, none)
  | some output =>
    if required = 0 ∨ output.length < required then some (0, some output)
    else do
      let (written, output) ← jsonReadStringCopy data start stop output
      some (written, some output)

/-! ## Writing -/

/-- A buffer and how much of it is in use. -/
structure Output where
  data : Text
  capacity : ℕ
  offset : ℕ
  length_data : data.length = capacity

/-- A call returns whether it succeeded; what it has written before it failed stays. -/
abbrev OutputCall := Output → Bool × Output

/-- Calls one after the other, up to the first that fails. -/
def OutputCall.andThen (first second : OutputCall) : OutputCall := fun out =>
  match first out with
  | (true, out) => second out
  | (false, out) => (false, out)

def appendBytes (input : Text) : OutputCall := fun out =>
  if hfull : out.offset > out.capacity ∨ input.length > out.capacity - out.offset then (false, out)
  else
    (true,
      { data := out.data.take out.offset ++ input ++ out.data.drop (out.offset + input.length)
        capacity := out.capacity
        offset := out.offset + input.length
        length_data := by
          have hlength := out.length_data
          simp only [length_append, length_take, length_drop]
          omega })

def appendByte (c : UInt8) : OutputCall := appendBytes [c]

/-- The letter that stands behind the backslash for a control character that has one. -/
def escapeLetter (c : UInt8) : UInt8 :=
  if c == 10 then 110 else if c == 13 then 114 else if c == 9 then 116 else if c == 8 then 98
  else 102

def hasLetter (c : UInt8) : Bool := c == 10 || c == 13 || c == 9 || c == 8 || c == 12

def appendCharacter (c : UInt8) : OutputCall :=
  if c == 34 || c == 92 then (appendByte 92).andThen (appendByte c)
  else if hasLetter c then (appendByte 92).andThen (appendByte (escapeLetter c))
  else if c < 32 then fun out => (false, out)
  else appendByte c

def appendCharacters : Text → OutputCall
  | [] => fun out => (true, out)
  | c :: rest => (appendCharacter c).andThen (appendCharacters rest)

def appendJsonString (value : Text) : OutputCall :=
  (appendByte 34).andThen ((appendCharacters value).andThen (appendByte 34))

/-- What a call that succeeded has written. -/
def written (before after : Output) : Text :=
  slice after.data before.offset (after.offset - before.offset)

/-! ## The closing quote -/

variable {text body : Text}

theorem eq_append_of_stringBody {rest : Text} (h : stringBody text = some (body, rest)) :
    text = body ++ 34 :: rest := by
  fun_induction stringBody text generalizing body rest with
  | case1 => cases h
  | case2 c behind hquote =>
      cases h
      rw [nil_append, beq_iff_eq.mp hquote]
  | case3 => cases h
  | case4 => cases h
  | case5 c hquote hcontrol hslash escape behind hescape ih =>
      obtain ⟨⟨body', rest'⟩, hbody, heq⟩ := map_eq_some_iff.mp h
      cases heq
      rw [ih hbody, cons_append, cons_append]
  | case6 => cases h
  | case7 c behind hquote hcontrol hslash ih =>
      obtain ⟨⟨body', rest'⟩, hbody, heq⟩ := map_eq_some_iff.mp h
      cases heq
      rw [ih hbody, cons_append]

section Reading

variable {data text : Text} {index : ℕ}

theorem lt_length_of_drop {c : UInt8} (h : data.drop index = c :: text) : index < data.length := by
  have hlength := congrArg length h
  rw [length_drop, length_cons] at hlength
  omega

theorem drop_succ_of_drop {c : UInt8} (h : data.drop index = c :: text) :
    data.drop (index + 1) = text := by
  rw [← drop_drop, h, drop_one, tail_cons]

theorem length_of_drop (hle : index ≤ data.length) (h : data.drop index = text) :
    data.length = index + text.length := by
  rw [← h, length_drop]
  omega

/-- One step of the search, by what stands at the index. -/
theorem endStep_of_drop {c : UInt8} (hdata : data.length < 2 ^ 64)
    (h : data.drop index = c :: text) :
    endStep data index =
      if c == 34 then some (.inr (some (index + 1)))
      else if c < 32 then some (.inr none)
      else if c == 92 then
        match text with
        | [] => some (.inr none)
        | escape :: _ => some (if isEscape escape then .inl (index + 2) else .inr none)
      else some (.inl (index + 1)) := by
  have hlt := lt_length_of_drop h
  have hnext := drop_succ_of_drop h
  rw [endStep, if_pos hlt, load_of_drop h, add_eq (by omega)]
  simp only [bind_eq_bind, bind_some]
  cases text with
  | nil =>
      have hend : ¬ index + 1 < data.length := by
        have := length_of_drop hlt hnext
        rw [length_nil] at this
        omega
      rw [if_neg hend]
  | cons =>
      have hescape := lt_length_of_drop hnext
      rw [if_pos hescape, load_of_drop hnext, add_eq (by omega)]
      rfl

/-- The search from an index finds the quote that ends the string of the rest. -/
theorem endLoop_eq (hdata : data.length < 2 ^ 64) (hle : index ≤ data.length)
    (h : data.drop index = text) (fuel : ℕ) :
    loop (endStep data) (text.length + fuel + 1) index =
      some ((stringBody text).map fun parts => data.length - parts.2.length) := by
  -- each round passes one character or one escape, as `stringBody` does
  fun_induction stringBody text generalizing index fuel with
  | case1 =>
      have hlength := length_of_drop hle h
      apply loop_done
      rw [endStep, if_neg (by simpa using hlength.le)]
      rfl
  | case2 c rest hquote =>
      apply loop_done
      rw [endStep_of_drop hdata h, if_pos hquote, map_some,
        length_of_drop (lt_length_of_drop h) (drop_succ_of_drop h), Nat.add_sub_cancel]
  | case3 c rest hquote hcontrol =>
      apply loop_done
      rw [endStep_of_drop hdata h, if_neg hquote, if_pos hcontrol]
      rfl
  | case4 c hquote hcontrol hslash =>
      apply loop_done
      rw [endStep_of_drop hdata h, if_neg hquote, if_neg hcontrol, if_pos hslash]
      rfl
  | case5 c hquote hcontrol hslash escape rest hescape ih =>
      have hstep : endStep data index = some (.inl (index + 2)) := by
        rw [endStep_of_drop hdata h, if_neg hquote, if_neg hcontrol, if_pos hslash]
        simp only [hescape, if_true]
      have hbehind := drop_succ_of_drop (drop_succ_of_drop h)
      have hfuel : (c :: escape :: rest).length + fuel = rest.length + (fuel + 1) + 1 := by
        simp only [length_cons]
        omega
      rw [loop_next hstep, hfuel, ih (lt_length_of_drop (drop_succ_of_drop h)) hbehind,
        Option.map_map]
      rfl
  | case6 c hquote hcontrol hslash escape rest hescape =>
      apply loop_done
      rw [endStep_of_drop hdata h, if_neg hquote, if_neg hcontrol, if_pos hslash]
      simp only [hescape]
      rfl
  | case7 c rest hquote hcontrol hslash ih =>
      have hstep : endStep data index = some (.inl (index + 1)) := by
        rw [endStep_of_drop hdata h, if_neg hquote, if_neg hcontrol, if_neg hslash]
      have hfuel : (c :: rest).length + fuel = rest.length + fuel + 1 := by
        simp only [length_cons]
        omega
      rw [loop_next hstep, hfuel, ih (lt_length_of_drop h) (drop_succ_of_drop h),
        Option.map_map]
      rfl

theorem jsonReadStringEnd_eq (hdata : data.length < 2 ^ 64) (start : ℕ) :
    jsonReadStringEnd data start =
      some ((StateStore.jsonReadStringEnd (data.drop start)).map fun parts =>
        data.length - parts.2.length) := by
  unfold jsonReadStringEnd StateStore.jsonReadStringEnd
  cases htext : data.drop start with
  | nil =>
      rw [if_neg (by simpa using htext)]
      rfl
  | cons c text =>
      have hlt := lt_length_of_drop htext
      rw [if_pos hlt, load_of_drop htext, bind_eq_bind, bind_some]
      by_cases hquote : c = 34
      · subst hquote
        have hnext := drop_succ_of_drop htext
        have hfuel : data.length + 1 = text.length + (start + 1) + 1 := by
          rw [length_of_drop hlt hnext]
          omega
        rw [add_eq (by omega), hfuel]
        exact endLoop_eq hdata hlt hnext (start + 1)
      · rw [if_neg (by simpa using hquote)]
        split
        · next heq => exact absurd (cons.inj heq).1 hquote
        · rfl

/-- A range that was found to be a string: what stands in it and behind it. -/
theorem exists_of_jsonReadStringEnd {start stop : ℕ} (hdata : data.length < 2 ^ 64)
    (h : jsonReadStringEnd data start = some (some stop)) :
    ∃ body rest, data.drop start = 34 :: (body ++ 34 :: rest) ∧
      stringBody (body ++ 34 :: rest) = some (body, rest) ∧ stop = start + body.length + 2 := by
  rw [jsonReadStringEnd_eq hdata, some_inj] at h
  obtain ⟨⟨body, rest⟩, hparts, hstop⟩ := map_eq_some_iff.mp h
  cases htext : data.drop start with
  | nil =>
      rw [htext] at hparts
      cases hparts
  | cons =>
      rw [htext, StateStore.jsonReadStringEnd.eq_def] at hparts
      split at hparts
      · next heq =>
          cases heq
          have hbody := eq_append_of_stringBody hparts
          have hlength := length_of_drop (lt_length_of_drop htext) (drop_succ_of_drop htext)
          subst hbody
          refine ⟨body, rest, rfl, hparts, ?_⟩
          rw [length_append, length_cons] at hlength
          simp only at hstop
          omega
      · cases hparts

end Reading

/-! ## Walking a range -/

/-- A loop that walks the characters of a range: each of its states is one of an index and the
characters before it, of which there are `total` in the range. -/
structure Walks {σ β : Type} (data : Text) (start stop total : ℕ) (step : σ → Option (σ ⊕ β))
    (state : ℕ → Text → σ) (finish : Text → β) : Prop where
  plain : ∀ {index c text out}, data.drop index = c :: text → ¬ (c == 92) = true →
    start ≤ index → index + 1 < stop → out.length < total →
    step (state index out) = some (.inl (state (index + 1) (out ++ [c])))
  escape : ∀ {index escape text out}, data.drop index = 92 :: escape :: text →
    isEscape escape = true → start ≤ index → index + 2 < stop → out.length < total →
    step (state index out) = some (.inl (state (index + 2) (out ++ [unescaped escape])))
  done : ∀ {index out}, index + 1 = stop →
    step (state index out) = some (.inr (finish out))

variable {c : UInt8}

theorem length_append_copy_lt {out : Text} {total : ℕ}
    (h : (out ++ c :: StateStore.jsonReadStringCopy body).length = total) : out.length < total := by
  rw [length_append, length_cons] at h
  omega

/-- The walk from an index goes through all characters up to the closing quote. -/
theorem Walks.run {σ β : Type} {data : Text} {start stop total : ℕ} {step : σ → Option (σ ⊕ β)}
    {state : ℕ → Text → σ} {finish : Text → β}
    (walks : Walks data start stop total step state finish) {rest out : Text} {index : ℕ}
    (hbody : stringBody text = some (body, rest)) (h : data.drop index = text)
    (hstart : start ≤ index) (hstop : stop = index + body.length + 1)
    (htotal : (out ++ StateStore.jsonReadStringCopy body).length = total) (fuel : ℕ) :
    loop step (text.length + fuel + 1) (state index out) =
      some (finish (out ++ StateStore.jsonReadStringCopy body)) := by
  -- as for the search, with what has been written so far
  fun_induction stringBody text generalizing index fuel body rest out with
  | case1 => cases hbody
  | case2 c text hquote =>
      cases hbody
      rw [StateStore.jsonReadStringCopy, append_nil]
      exact loop_done (walks.done hstop.symm) _
  | case3 => cases hbody
  | case4 => cases hbody
  | case5 c hquote hcontrol hslash escape text hescape ih =>
      obtain ⟨⟨body, rest⟩, hparts, heq⟩ := map_eq_some_iff.mp hbody
      cases heq
      cases beq_iff_eq.mp hslash
      have hcopy : StateStore.jsonReadStringCopy (92 :: escape :: body) =
          unescaped escape :: StateStore.jsonReadStringCopy body := by
        rw [StateStore.jsonReadStringCopy, if_pos hslash]
      have hfuel : (92 :: escape :: text).length + fuel = text.length + (fuel + 1) + 1 := by
        simp only [length_cons]
        omega
      simp only [length_cons] at hstop
      rw [hcopy] at htotal ⊢
      rw [loop_next (walks.escape h hescape hstart (by omega)
          (length_append_copy_lt htotal)), hfuel,
        ih hparts (drop_succ_of_drop (drop_succ_of_drop h)) (by omega) (by omega)
          (by simpa using htotal),
        append_assoc, singleton_append]
  | case6 => cases hbody
  | case7 c text hquote hcontrol hslash ih =>
      obtain ⟨⟨body, rest⟩, hparts, heq⟩ := map_eq_some_iff.mp hbody
      cases heq
      have hcopy : StateStore.jsonReadStringCopy (c :: body) =
          c :: StateStore.jsonReadStringCopy body := by
        rw [StateStore.jsonReadStringCopy.eq_def]
        simp only [if_neg hslash]
      have hfuel : (c :: text).length + fuel = text.length + fuel + 1 := by
        simp only [length_cons]
        omega
      simp only [length_cons] at hstop
      rw [hcopy] at htotal ⊢
      rw [loop_next (walks.plain h hslash hstart (by omega)
          (length_append_copy_lt htotal)), hfuel,
        ih hparts (drop_succ_of_drop h) (by omega) (by omega) (by simpa using htotal),
        append_assoc, singleton_append]

section Ranges

variable {data output : Text} {start stop total : ℕ}

theorem readWithin_of_drop {index : ℕ} {c : UInt8} {text : Text} (h : data.drop index = c :: text)
    (hstart : start ≤ index) (hstop : index < stop) :
    readWithin data start stop index = some c := by
  rw [readWithin, if_pos ⟨hstart, hstop⟩, load_of_drop h]

/-- The count goes up by one with each character. -/
theorem walks_length (hstop : stop ≤ data.length) (hdata : data.length < 2 ^ 64)
    (htotal : total < 2 ^ 64) :
    Walks data start stop total (lengthStep data start stop)
      (fun index out => (index, out.length)) length where
  plain {index c text out} h hslash hstart hnext hroom := by
    rw [lengthStep, add_eq (by omega), bind_eq_bind, bind_some, if_pos hnext,
      readWithin_of_drop h hstart (by omega)]
    simp only [bind_eq_bind, bind_some, if_neg hslash]
    rw [add_eq (by omega), bind_some, length_append, length_singleton]
  escape {index escape text out} h hescape hstart hnext hroom := by
    have hletter : ¬ (escape == 117) = true := by
      rw [beq_iff_eq]
      intro heq
      subst heq
      exact absurd hescape (by decide)
    rw [lengthStep, add_eq (by omega), bind_eq_bind, bind_some,
      if_pos (by omega), readWithin_of_drop h hstart (by omega)]
    simp only [bind_eq_bind, bind_some, beq_self_eq_true, if_true]
    rw [add_eq (by omega), bind_some, if_pos hnext,
      readWithin_of_drop (drop_succ_of_drop h) (by omega) (by omega), bind_some,
      if_neg hletter, add_eq (by omega), bind_some, length_append,
      length_singleton]
  done {index out} hend := by
    rw [lengthStep, add_eq (by omega), bind_eq_bind, bind_some,
      if_neg (by omega)]

theorem put_eq {out : Text} (index behind : ℕ) (c : UInt8) (hroom : out.length < output.length)
    (hout : out.length + 1 < 2 ^ 64) :
    Copying.put ⟨index, out.length, out ++ output.drop out.length⟩ behind c =
      some (.inl ⟨behind, (out ++ [c]).length,
        out ++ [c] ++ output.drop (out ++ [c]).length⟩) := by
  have hplace : output.drop out.length =
      output[out.length] :: output.drop (out.length + 1) := drop_eq_getElem_cons hroom
  rw [Copying.put, hplace, store_eq, bind_eq_bind, bind_some,
    add_eq hout, bind_eq_bind, bind_some, length_append,
    length_singleton, append_assoc, singleton_append]

/-- Each character goes to the place behind those before it. -/
theorem walks_copy (hstop : stop ≤ data.length) (hdata : data.length < 2 ^ 64)
    (htotal : total < 2 ^ 64) (hroom : total ≤ output.length) :
    Walks data start stop total (copyStep data start stop)
      (fun index out => ⟨index, out.length, out ++ output.drop out.length⟩)
      (fun out => (out.length, out ++ output.drop out.length)) where
  plain {index c text out} h hslash hstart hnext hout := by
    rw [copyStep, add_eq (by dsimp only; omega), bind_eq_bind, bind_some,
      if_pos hnext, readWithin_of_drop h hstart (by omega)]
    simp only [bind_eq_bind, bind_some, if_neg hslash]
    exact put_eq index (index + 1) c (by omega) (by omega)
  escape {index escape text out} h hescape hstart hnext hout := by
    rw [copyStep, add_eq (by dsimp only; omega), bind_eq_bind, bind_some,
      if_pos (by dsimp only; omega), readWithin_of_drop h hstart (by omega)]
    simp only [bind_eq_bind, bind_some, beq_self_eq_true, if_true]
    rw [readWithin_of_drop (drop_succ_of_drop h) (by omega) (by omega), bind_some,
      add_eq (by omega), bind_some]
    exact put_eq index (index + 2) (unescaped escape) (by omega) (by omega)
  done {index out} hend := by
    rw [copyStep, add_eq (by dsimp only; omega), bind_eq_bind, bind_some,
      if_neg (by dsimp only; omega)]

theorem length_copy_le (body : Text) :
    (StateStore.jsonReadStringCopy body).length ≤ body.length := by
  fun_induction StateStore.jsonReadStringCopy body with
  | case1 => exact le_rfl
  | case2 => exact Nat.zero_le _
  | case3 c hslash escape rest ih =>
      simp only [length_cons]
      omega
  | case4 c rest hslash ih => exact Nat.succ_le_succ ih

variable {text body rest : Text}

/-- As many characters are counted as the string has. -/
theorem jsonReadStringLength_eq (hdata : data.length < 2 ^ 64) (h : data.drop start = 34 :: text)
    (hbody : stringBody text = some (body, rest)) (hstop : stop = start + body.length + 2) :
    jsonReadStringLength data start stop =
      some (StateStore.jsonReadStringCopy body).length := by
  have hnext := drop_succ_of_drop h
  have hlength := length_of_drop (lt_length_of_drop h) hnext
  have htext := eq_append_of_stringBody hbody
  have hlast : data.drop (stop - 1) = 34 :: rest := by
    calc data.drop (stop - 1) = (data.drop (start + 1)).drop body.length := by
          rw [drop_drop]
          congr 1
          omega
      _ = 34 :: rest := by rw [hnext, htext, drop_left]
  have hcount := length_copy_le body
  have hwhole := lt_length_of_drop hlast
  have hfuel : data.length + 1 = text.length + (start + 1) + 1 := by omega
  rw [jsonReadStringLength, add_eq (by omega), bind_eq_bind, bind_some,
    if_neg (by omega), readWithin_of_drop h le_rfl (by omega),
    readWithin_of_drop hlast (by omega) (by omega), hfuel]
  simp only [bind_eq_bind, bind_some, beq_self_eq_true, Bool.and_self, if_true]
  have htotal : ([] ++ StateStore.jsonReadStringCopy body).length =
      (StateStore.jsonReadStringCopy body).length := rfl
  exact (walks_length (by omega) hdata (by omega)).run hbody hnext (by omega) (by omega) htotal
    (start + 1)

/-- The characters of the string go to the front of the buffer, the rest of which stays. -/
theorem jsonReadStringCopy_eq (hdata : data.length < 2 ^ 64) (h : data.drop start = 34 :: text)
    (hbody : stringBody text = some (body, rest)) (hstop : stop = start + body.length + 2)
    (hroom : (StateStore.jsonReadStringCopy body).length ≤ output.length) :
    jsonReadStringCopy data start stop output =
      some ((StateStore.jsonReadStringCopy body).length,
        StateStore.jsonReadStringCopy body ++
          output.drop (StateStore.jsonReadStringCopy body).length) := by
  have hnext := drop_succ_of_drop h
  have hlength := length_of_drop (lt_length_of_drop h) hnext
  have htext := congrArg length (eq_append_of_stringBody hbody)
  rw [length_append, length_cons] at htext
  have hcount := length_copy_le body
  have hfuel : data.length + 1 = text.length + (start + 1) + 1 := by omega
  rw [jsonReadStringCopy, add_eq (by omega), bind_eq_bind, bind_some, hfuel]
  have htotal : ([] ++ StateStore.jsonReadStringCopy body).length =
      (StateStore.jsonReadStringCopy body).length := rfl
  exact (walks_copy (by omega) hdata (by omega) hroom).run hbody hnext (by omega) (by omega) htotal
    (start + 1)

end Ranges

/-! ## What is written -/

/-- What is written for a character, if it can be written. -/
def encodedCharacter (c : UInt8) : Option Text :=
  if c == 34 || c == 92 then some [92, c]
  else if hasLetter c then some [92, escapeLetter c]
  else if c < 32 then none
  else some [c]

def encoded : Text → Option Text
  | [] => some []
  | c :: rest => do
    let first ← encodedCharacter c
    let more ← encoded rest
    some (first ++ more)

/-- A call that succeeded has put the text behind what was in use, which it left alone. -/
structure Puts (call : OutputCall) (text : Text) : Prop where
  offset : ∀ {out out'}, call out = (true, out') → out'.offset = out.offset + text.length
  take : ∀ {out out'}, call out = (true, out') →
    out'.data.take out'.offset = out.data.take out.offset ++ text

variable {out out' : Output}

theorem appendBytes_eq {input : Text} (h : appendBytes input out = (true, out')) :
    out.offset + input.length ≤ out.capacity ∧
      out'.data = out.data.take out.offset ++ input ++
        out.data.drop (out.offset + input.length) ∧
      out'.offset = out.offset + input.length := by
  unfold appendBytes at h
  split_ifs at h with hfull
  · cases h
  · cases h
    exact ⟨by omega, rfl, rfl⟩

variable {first second : OutputCall}

theorem andThen_eq (h : first.andThen second out = (true, out')) :
    ∃ mid, first out = (true, mid) ∧ second mid = (true, out') := by
  unfold OutputCall.andThen at h
  split at h
  · next mid hfirst => exact ⟨mid, hfirst, h⟩
  · cases h

theorem puts_appendBytes (input : Text) : Puts (appendBytes input) input where
  offset h := (appendBytes_eq h).2.2
  take {out out'} h := by
    obtain ⟨hroom, hdata, hoffset⟩ := appendBytes_eq h
    have hlength := out.length_data
    have hfront : (out.data.take out.offset ++ input).length = out.offset + input.length := by
      rw [length_append, length_take_of_le (by omega)]
    rw [hdata, hoffset, take_left' hfront]

theorem puts_appendByte (c : UInt8) : Puts (appendByte c) [c] := puts_appendBytes [c]

theorem Puts.andThen {more : Text} (hfirst : Puts first text) (hsecond : Puts second more) :
    Puts (first.andThen second) (text ++ more) where
  offset {out out'} h := by
    obtain ⟨mid, hmid, h⟩ := andThen_eq h
    rw [hsecond.offset h, hfirst.offset hmid, length_append, Nat.add_assoc]
  take {out out'} h := by
    obtain ⟨mid, hmid, h⟩ := andThen_eq h
    rw [hsecond.take h, hfirst.take hmid, append_assoc]

theorem puts_appendCharacter (h : encodedCharacter c = some text) :
    Puts (appendCharacter c) text := by
  unfold encodedCharacter at h
  unfold appendCharacter
  split_ifs at h ⊢
  · cases h
    exact (puts_appendByte 92).andThen (puts_appendByte c)
  · cases h
    exact (puts_appendByte 92).andThen (puts_appendByte (escapeLetter c))
  · cases h
    exact puts_appendByte c

theorem encodedCharacter_of_append (h : appendCharacter c out = (true, out')) :
    ∃ text, encodedCharacter c = some text := by
  unfold appendCharacter at h
  unfold encodedCharacter
  split_ifs at h ⊢
  · exact ⟨_, rfl⟩
  · exact ⟨_, rfl⟩
  · cases h
  · exact ⟨_, rfl⟩

variable {value : Text}

theorem puts_appendCharacters (h : encoded value = some text) :
    Puts (appendCharacters value) text := by
  induction value generalizing text with
  | nil =>
      cases h
      exact ⟨fun h => by cases h; rfl, fun h => by cases h; simp⟩
  | cons c rest ih =>
      obtain ⟨first, hfirst, h⟩ := bind_eq_some_iff.mp h
      obtain ⟨more, hmore, h⟩ := bind_eq_some_iff.mp h
      cases h
      exact (puts_appendCharacter hfirst).andThen (ih hmore)

theorem encoded_of_append (h : appendCharacters value out = (true, out')) :
    ∃ text, encoded value = some text := by
  induction value generalizing out with
  | nil => exact ⟨[], rfl⟩
  | cons c rest ih =>
      obtain ⟨mid, hfirst, h⟩ := andThen_eq h
      obtain ⟨first, hfirst⟩ := encodedCharacter_of_append hfirst
      obtain ⟨more, hmore⟩ := ih h
      exact ⟨first ++ more, by rw [encoded, hfirst, hmore]; rfl⟩

theorem Puts.written_eq {call : OutputCall} (hputs : Puts call text)
    (hroom : out.offset ≤ out.capacity) (h : call out = (true, out')) :
    written out out' = text := by
  have hfront : (out.data.take out.offset).length = out.offset :=
    length_take_of_le (hroom.trans_eq out.length_data.symm)
  calc written out out' = (out'.data.drop out.offset).take text.length := by
        rw [written, slice, hputs.offset h, Nat.add_sub_cancel_left]
    _ = (out'.data.take out'.offset).drop out.offset := by
        rw [drop_take, hputs.offset h, Nat.add_sub_cancel_left]
    _ = text := by rw [hputs.take h, drop_left' hfront]

/-- What was written for a text, between its quotes. -/
theorem appendJsonString_spec (h : appendJsonString value out = (true, out')) :
    ∃ body, encoded value = some body ∧ written out out' = 34 :: body ++ [34] := by
  obtain ⟨first, hfirst, hrest⟩ := andThen_eq h
  obtain ⟨last, hcharacters, hlast⟩ := andThen_eq hrest
  obtain ⟨body, hbody⟩ := encoded_of_append hcharacters
  have hputs : Puts (appendJsonString value) ([34] ++ (body ++ [34])) :=
    (puts_appendByte 34).andThen ((puts_appendCharacters hbody).andThen (puts_appendByte 34))
  have hroom := (appendBytes_eq hfirst).1
  exact ⟨body, hbody, hputs.written_eq (by omega) h⟩

/-! ## What is written is read -/

theorem stringBody_escape {escape : UInt8} (h : isEscape escape = true) (behind : Text) :
    stringBody (92 :: escape :: behind) =
      (stringBody behind).map fun parts => (92 :: escape :: parts.1, parts.2) := by
  rw [stringBody]
  simp only [h, if_true]
  rfl

theorem copy_escape (escape : UInt8) (behind : Text) :
    StateStore.jsonReadStringCopy (92 :: escape :: behind) =
      unescaped escape :: StateStore.jsonReadStringCopy behind := rfl

theorem letter_spec (h : hasLetter c = true) :
    isEscape (escapeLetter c) = true ∧ unescaped (escapeLetter c) = c := by
  simp only [hasLetter, Bool.or_eq_true, beq_iff_eq] at h
  rcases h with (((rfl | rfl) | rfl) | rfl) | rfl <;> decide

theorem quoted_spec (h : (c == 34 || c == 92) = true) : isEscape c = true ∧ unescaped c = c := by
  simp only [Bool.or_eq_true, beq_iff_eq] at h
  rcases h with rfl | rfl <;> decide

/-- What is written for a character is passed by the search for the quote, and is that character
again. -/
theorem character_spec (h : encodedCharacter c = some text) (behind : Text) :
    stringBody (text ++ behind) =
        (stringBody behind).map (fun parts => (text ++ parts.1, parts.2)) ∧
      StateStore.jsonReadStringCopy (text ++ behind) =
        c :: StateStore.jsonReadStringCopy behind := by
  unfold encodedCharacter at h
  split_ifs at h with hquoted hletter hcontrol
  · cases h
    obtain ⟨hescape, hback⟩ := quoted_spec hquoted
    exact ⟨stringBody_escape hescape behind, by rw [cons_append, cons_append,
      nil_append, copy_escape, hback]⟩
  · cases h
    obtain ⟨hescape, hback⟩ := letter_spec hletter
    exact ⟨stringBody_escape hescape behind, by rw [cons_append, cons_append,
      nil_append, copy_escape, hback]⟩
  · cases h
    rw [Bool.or_eq_true, not_or] at hquoted
    constructor
    · rw [singleton_append, StateStore.stringBody.eq_def]
      simp only [if_neg hquoted.1, if_neg hquoted.2, if_neg hcontrol]
      rfl
    · rw [singleton_append, StateStore.jsonReadStringCopy.eq_def]
      simp only [if_neg hquoted.2]

theorem encoded_spec (h : encoded value = some text) (rest : Text) :
    stringBody (text ++ 34 :: rest) = some (text, rest) ∧
      StateStore.jsonReadStringCopy text = value := by
  induction value generalizing text with
  | nil =>
      cases h
      exact ⟨by rw [nil_append, StateStore.stringBody.eq_def]; rfl, rfl⟩
  | cons c more ih =>
      obtain ⟨first, hfirst, h⟩ := bind_eq_some_iff.mp h
      obtain ⟨behind, hbehind, h⟩ := bind_eq_some_iff.mp h
      cases h
      obtain ⟨hbody, hcopy⟩ := ih hbehind
      constructor
      · rw [append_assoc, (character_spec hfirst _).1, hbody]
        rfl
      · rw [(character_spec hfirst behind).2, hcopy]

/-- What the search has accepted as a string is safe to copy: the count is that of the bytes
written, whatever the buffer, as long as it has room for them. -/
def SafeToCopy (data : Text) (start stop : ℕ) : Prop :=
  ∃ count, jsonReadStringLength data start stop = some count ∧
    ∀ output : Text, count ≤ output.length →
      ∃ text, text.length = count ∧
        jsonReadStringCopy data start stop output = some (count, text ++ output.drop count)

/-- Wherever the encoding stands, the search ends behind its closing quote, and what is counted
and copied is the value. -/
def ReadsBack (encoding value : Text) : Prop :=
  ∀ before rest : Text, (before ++ encoding ++ rest).length < 2 ^ 64 →
    jsonReadStringEnd (before ++ encoding ++ rest) before.length =
        some (some (before.length + encoding.length)) ∧
      jsonReadStringLength (before ++ encoding ++ rest) before.length
          (before.length + encoding.length) = some value.length ∧
      ∀ output : Text, value.length ≤ output.length →
        jsonReadStringCopy (before ++ encoding ++ rest) before.length
            (before.length + encoding.length) output =
          some (value.length, value ++ output.drop value.length)

theorem safeToCopy {data : Text} {start stop : ℕ} (hdata : data.length < 2 ^ 64)
    (h : jsonReadStringEnd data start = some (some stop)) : SafeToCopy data start stop := by
  obtain ⟨body, rest, htext, hbody, hstop⟩ := exists_of_jsonReadStringEnd hdata h
  refine ⟨_, jsonReadStringLength_eq hdata htext hbody hstop, fun output hroom => ?_⟩
  exact ⟨_, rfl, jsonReadStringCopy_eq hdata htext hbody hstop hroom⟩

theorem SafeToCopy.read {data : Text} {start stop : ℕ} (h : SafeToCopy data start stop)
    (output : Option Text) :
    ∃ result, jsonObjectReadStringAt data start stop output = some result := by
  obtain ⟨count, hcount, hcopy⟩ := h
  rw [jsonObjectReadStringAt, hcount, bind_eq_bind, bind_some]
  cases output with
  | none => exact ⟨_, rfl⟩
  | some output =>
      dsimp only
      split_ifs with hroom
      · exact ⟨_, rfl⟩
      · obtain ⟨text, -, htext⟩ := hcopy output (by omega)
        rw [htext]
        exact ⟨_, rfl⟩

theorem readsBack (h : encoded value = some body) : ReadsBack (34 :: body ++ [34]) value := by
  intro before rest hdata
  obtain ⟨hbody, hcopy⟩ := encoded_spec h rest
  have hdrop : (before ++ (34 :: body ++ [34]) ++ rest).drop before.length =
      34 :: (body ++ 34 :: rest) := by
    simp
  have hstop : before.length + (34 :: body ++ [34]).length = before.length + body.length + 2 := by
    simp only [length_append, length_cons, length_nil]
    omega
  refine ⟨?_, ?_, fun output hroom => ?_⟩
  · rw [jsonReadStringEnd_eq hdata, hdrop, StateStore.jsonReadStringEnd, hbody, map_some,
      length_append, length_append, Nat.add_sub_cancel]
  · rw [jsonReadStringLength_eq hdata hdrop hbody hstop, hcopy]
  · rw [← hcopy] at hroom ⊢
    exact jsonReadStringCopy_eq hdata hdrop hbody hstop hroom

/-- The loops over strings agree: the search stays in the input, what it accepts can be copied
wherever there is room for the count, so that no call leaves its buffer, and what is written for a
text is read as the text. -/
theorem strings_agree :
    (∀ (data : Text) (start : ℕ), data.length < 2 ^ 64 →
      ∃ found, jsonReadStringEnd data start = some found ∧
        ∀ stop, found = some stop → SafeToCopy data start stop ∧
          ∀ output, ∃ result, jsonObjectReadStringAt data start stop output = some result) ∧
    ∀ (value : Text) (out out' : Output), appendJsonString value out = (true, out') →
      ∃ body, written out out' = 34 :: body ++ [34] ∧ ReadsBack (written out out') value := by
  constructor
  · intro data start hdata
    refine ⟨_, jsonReadStringEnd_eq hdata start, fun stop hstop => ?_⟩
    have hsafe : SafeToCopy data start stop :=
      safeToCopy hdata (by rw [jsonReadStringEnd_eq hdata, hstop])
    exact ⟨hsafe, hsafe.read⟩
  · intro value out out' h
    obtain ⟨body, hbody, hwritten⟩ := appendJsonString_spec h
    refine ⟨body, hwritten, ?_⟩
    rw [hwritten]
    exact readsBack hbody

/-- The string `"a\nb"` in front of a comma, and a text with a quote and a line feed. -/
theorem strings_agree_quoted :
    (∃ found, jsonReadStringEnd [34, 97, 92, 110, 98, 34, 44] 0 = some found ∧
      ∀ stop, found = some stop → SafeToCopy [34, 97, 92, 110, 98, 34, 44] 0 stop ∧
        ∀ output, ∃ result,
          jsonObjectReadStringAt [34, 97, 92, 110, 98, 34, 44] 0 stop output = some result) ∧
      ∃ body, written ⟨replicate 8 0, 8, 1, rfl⟩
          (appendJsonString [34, 10] ⟨replicate 8 0, 8, 1, rfl⟩).2 = 34 :: body ++ [34] ∧
        ReadsBack (written ⟨replicate 8 0, 8, 1, rfl⟩
          (appendJsonString [34, 10] ⟨replicate 8 0, 8, 1, rfl⟩).2) [34, 10] := by
  have hcall : (appendJsonString [34, 10] ⟨replicate 8 0, 8, 1, rfl⟩).1 = true := by
    decide +kernel
  exact ⟨strings_agree.1 _ 0 (by decide), strings_agree.2 [34, 10] _ _ (Prod.ext hcall rfl)⟩

end Jadren.App.JsonStrings

import Jadren.App.StateStore

/-!
# Documents of the state

A document is a flat object of texts, booleans and numbers.  It is read into entries of its own,
which replace those of the state only if the whole document could be read.  The reader works on the
rest of the document; that each part is followed by a shorter rest is why it ends.
-/

namespace Jadren.App

namespace StateStore

def documentMax : ℕ := 16384

def isSpace (c : UInt8) : Bool := c == 32 || c == 9 || c == 13 || c == 10

def skipSpace (text : Text) : Text := text.dropWhile isSpace

/-- The characters that may follow a backslash. -/
def isEscape (c : UInt8) : Bool :=
  c == 34 || c == 92 || c == 47 || c == 98 || c == 102 || c == 110 || c == 114 || c == 116

/-- What stands before the closing quote, as it is written, and the rest behind the quote. -/
def stringBody : Text → Option (Text × Text)
  | [] => none
  | c :: rest =>
    if c == 34 then some ([], rest)
    else if c < 32 then none
    else if c == 92 then
      match rest with
      | [] => none
      | escape :: rest =>
        if isEscape escape then
          (stringBody rest).map fun (body, rest) => (c :: escape :: body, rest)
        else none
    else (stringBody rest).map fun (body, rest) => (c :: body, rest)

def jsonReadStringEnd : Text → Option (Text × Text)
  | 34 :: rest => stringBody rest
  | _ => none

/-- The number of characters, an escape being one; there is none of the form with four digits. -/
def stringUnits : Text → Option ℕ
  | [] => some 0
  | c :: rest =>
    if c == 92 then
      match rest with
      | [] => none
      | escape :: rest => if escape == 117 then none else (stringUnits rest).map (· + 1)
    else (stringUnits rest).map (· + 1)

def jsonReadStringLength (body : Text) : ℕ := (stringUnits body).getD 0

/-- The character that an escape stands for. -/
def unescaped (c : UInt8) : UInt8 :=
  if c == 98 then 8 else if c == 102 then 12 else if c == 110 then 10 else if c == 114 then 13
  else if c == 116 then 9 else c

def jsonReadStringCopy : Text → Text
  | [] => []
  | c :: rest =>
    if c == 92 then
      match rest with
      | [] => []
      | escape :: rest => unescaped escape :: jsonReadStringCopy rest
    else c :: jsonReadStringCopy rest

/-- A value as it stands in the document. -/
inductive RawValue
  | string (body : Text)
  | plain (text : Text)

/-- A value and the rest behind it.  One that is not a string goes up to a comma or a brace, without
the spaces at its end. -/
def readRawValue : Text → Option (RawValue × Text)
  | [] => none
  | c :: rest =>
    if c == 34 then (stringBody rest).map fun (body, rest) => (.string body, rest)
    else if c == 123 || c == 91 then none
    else
      let (plain, behind) := (c :: rest).span fun c => c != 44 && c != 125
      let value := (plain.reverse.dropWhile isSpace).reverse
      if value.isEmpty then none else some (.plain value, behind)

def parsedFloat (text : Text) (entry : Entry) : Option Entry :=
  (jsonReadFloatValue text).map fun value =>
    { entry with kind := kindFloat, floatValue := value.toBits.toBitVec }

/-- The value of an entry. -/
def parsedEntry (value : RawValue) (entry : Entry) : Option Entry :=
  match value with
  | .string body =>
    if textMax < jsonReadStringLength body then none
    else
      some { entry with
        kind := kindText, text := (jsonReadStringCopy body).take (jsonReadStringLength body) }
  | .plain text =>
    if text == [116, 114, 117, 101] then some { entry with kind := kindBool, boolValue := true }
    else if text == [102, 97, 108, 115, 101] then
      some { entry with kind := kindBool, boolValue := false }
    else if text.any fun c => c == 46 || c == 101 || c == 69 then parsedFloat text entry
    else if text.head? == some 45 then
      (jsonReadIntValue text).map fun value =>
        { entry with kind := kindInt, intValue := Int64.ofInt value }
    else
      (jsonReadUintValue text).map fun value =>
        { entry with kind := kindUint, uintValue := UInt64.ofNat value }

def parseValue (value : RawValue) (key : Text) (entries : Entries) : Option Entries :=
  if !keyIsSafe key then none
  else
    match slotIn entries key with
    | none => none
    | some (slot, entries) =>
      (parsedEntry value (entries slot)).map fun entry => Function.update entries slot entry

/-- Nothing but spaces follows. -/
def finished (text : Text) (entries : Entries) : Option Entries :=
  if (skipSpace text).isEmpty then some entries else none

/-- A key, its colon and the value behind, with the rest. -/
def readMember (text : Text) : Option ((Text × RawValue) × Text) := do
  let (key, rest) ← jsonReadStringEnd text
  if key.isEmpty || keyMax < key.length || !keyIsSafe key then none
  else
    match skipSpace rest with
    | 58 :: rest =>
      let (value, rest) ← readRawValue (skipSpace rest)
      some ((key, value), rest)
    | _ => none

/-! ## Rests are shorter -/

theorem length_skipSpace (text : Text) : (skipSpace text).length ≤ text.length :=
  (List.dropWhile_sublist isSpace).length_le

theorem length_of_stringBody {text body rest : Text} (h : stringBody text = some (body, rest)) :
    rest.length < text.length := by
  fun_induction stringBody text generalizing body rest with
  | case1 => cases h
  | case2 c behind hquote =>
      cases h
      exact Nat.lt_succ_self _
  | case3 => cases h
  | case4 => cases h
  | case5 c hquote hcontrol hslash escape behind hescape ih =>
      obtain ⟨⟨body', rest'⟩, hbody, heq⟩ := Option.map_eq_some_iff.mp h
      cases heq
      exact (ih hbody).trans (Nat.lt_add_of_pos_right Nat.two_pos)
  | case6 => cases h
  | case7 c behind hquote hcontrol hslash ih =>
      obtain ⟨⟨body', rest'⟩, hbody, heq⟩ := Option.map_eq_some_iff.mp h
      cases heq
      exact (ih hbody).trans (Nat.lt_succ_self _)

theorem length_of_readRawValue {text rest : Text} {value : RawValue}
    (h : readRawValue text = some (value, rest)) : rest.length ≤ text.length := by
  unfold readRawValue at h
  split at h
  · cases h
  next c behind =>
    split_ifs at h
    · obtain ⟨⟨body, rest'⟩, hbody, heq⟩ := Option.map_eq_some_iff.mp h
      cases heq
      exact (length_of_stringBody hbody).le.trans (Nat.le_succ _)
    · rw [List.span_eq_takeWhile_dropWhile] at h
      dsimp only at h
      split_ifs at h
      cases h
      exact (List.dropWhile_sublist _).length_le

theorem length_of_jsonReadStringEnd {text body rest : Text}
    (h : jsonReadStringEnd text = some (body, rest)) : rest.length < text.length := by
  unfold jsonReadStringEnd at h
  split at h
  · exact (length_of_stringBody h).trans (Nat.lt_succ_self _)
  · cases h

theorem length_of_readMember {text rest : Text} {member : Text × RawValue}
    (h : readMember text = some (member, rest)) : rest.length < text.length := by
  unfold readMember at h
  obtain ⟨⟨key, behind⟩, hkey, h⟩ := Option.bind_eq_some_iff.mp h
  have hbehind := length_of_jsonReadStringEnd hkey
  dsimp only at h
  split_ifs at h
  split at h
  next after hcolon =>
    obtain ⟨⟨value, last⟩, hvalue, heq⟩ := Option.bind_eq_some_iff.mp h
    cases heq
    have hafter := length_skipSpace behind
    rw [hcolon, List.length_cons] at hafter
    calc last.length ≤ (skipSpace after).length := length_of_readRawValue hvalue
      _ ≤ after.length := length_skipSpace after
      _ ≤ behind.length := by omega
      _ < text.length := hbehind
  next => cases h

/-- The members up to the closing brace, a comma after each but the last. -/
def parseMembers (text : Text) (entries : Entries) : Option Entries :=
  match _hopen : skipSpace text with
  | [] => none
  | c :: behind =>
    if c == 125 then finished behind entries
    else
      match _hmember : readMember (c :: behind) with
      | none => none
      | some ((key, value), rest) =>
        match parseValue value key entries with
        | none => none
        | some entries =>
          match _hnext : skipSpace rest with
          | [] => none
          | c :: behind =>
            if c == 44 then parseMembers behind entries
            else if c == 125 then finished behind entries
            else none
termination_by text.length
decreasing_by
  have htext := length_skipSpace text
  have hrest := length_skipSpace rest
  have hshorter := length_of_readMember _hmember
  rw [_hopen] at htext
  rw [_hnext, List.length_cons] at hrest
  omega

def parseDocument (text : Text) (entries : Entries) : Option Entries :=
  match skipSpace text with
  | 123 :: rest => parseMembers rest entries
  | _ => none

/-! ## Loading -/

/-- The entries of a document, if all of it can be read. -/
def loadDocument (document : Text) : StoreCall := fun s =>
  match parseDocument document clearEntries with
  | none => (false, s)
  | some entries => (true, bumpRevision { s with entries })

/-- The document is what could be read of the file, at most what the buffer holds. -/
def load (fileSize : ℕ) (document : Text) : StoreCall := fun s =>
  if documentMax < fileSize then (false, s) else loadDocument (document.take documentMax) s

def loadJsonExact (input : Option Text) (inputLength : ℕ) : StoreCall := fun s =>
  match input with
  | none => (false, s)
  | some input =>
    if inputLength = 0 ∨ input.length < inputLength ∨ documentMax < inputLength then (false, s)
    else loadDocument (input.take inputLength) s

end StateStore

end Jadren.App

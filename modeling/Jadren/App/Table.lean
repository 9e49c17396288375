import Jadren.Library.Digits
import Mathlib.Algebra.Order.Ring.Int
import Mathlib.Data.List.FinRange

/-!
# Tables of an application

A table has rows of eight cells and for each column a name and a kind.  Texts are lists of bytes.
A table is valid when its names are identifiers, no two columns share one, and every cell of a
row can be read as a value of the kind of its column; setting a name or a kind keeps it so.
-/

namespace Jadren.App

/-- The bytes of a text. -/
abbrev Text := List UInt8

def tableMaxTables : ℕ := 4

def tableMaxRows : ℕ := 64

def tableMaxColumns : ℕ := 8

def tableColumnNameMax : ℕ := 64

def listTextMax : ℕ := 256

abbrev TableId := Fin tableMaxTables

abbrev Column := Fin tableMaxColumns

inductive ColumnKind
  | text | int | uint | bool | float
  deriving DecidableEq, Inhabited

def ColumnKind.ofInt : ℤ → Option ColumnKind
  | 0 => some .text
  | 1 => some .int
  | 2 => some .uint
  | 3 => some .bool
  | 4 => some .float
  | _ => none

structure Table where
  rowCount : ℕ
  rowCount_le : rowCount ≤ tableMaxRows
  schemaVersion : ℤ
  columnTypes : Column → ColumnKind
  columnNames : Column → Text
  cells : Fin tableMaxRows → Column → Text

/-- The table before anything is written. -/
def Table.empty : Table where
  rowCount := 0
  rowCount_le := Nat.zero_le _
  schemaVersion := 0
  columnTypes _ := .text
  columnNames _ := []
  cells _ _ := []

abbrev Tables := TableId → Table

/-- The table of an id, if the id is valid. -/
def tableOf (tableId : ℤ) : Option TableId :=
  if h : 0 ≤ tableId ∧ tableId < tableMaxTables then some ⟨tableId.toNat, by omega⟩ else none

/-- The column of an index, if the index is in range. -/
def columnOf (columnIndex : ℤ) : Option Column :=
  if h : 0 ≤ columnIndex ∧ columnIndex < tableMaxColumns then some ⟨columnIndex.toNat, by omega⟩
  else none

/-! ## Reading values -/

def isDigit (c : UInt8) : Bool := 48 ≤ c && c ≤ 57

def digitValue (c : UInt8) : ℕ := c.toNat - 48

/-- The number that digits stand for, up to a limit. -/
def integerDigits (limit : ℕ) (digits : Text) : Option ℕ :=
  Digits.read Digits.decimal 10 limit 0 digits

/-- An unsigned number of 64 bits read as a signed one. -/
def signedOfUnsigned (value : ℕ) : ℤ := if value < 2 ^ 63 then value else value - 2 ^ 64

/-- The signed and the unsigned result of an integer text. -/
def parseIntegerText (allowNegative : Bool) : Text → Option (ℤ × ℕ)
  | [] => none
  | c :: rest =>
    if allowNegative && c == 45 then
      if rest.isEmpty then none
      else (integerDigits (2 ^ 63) rest).map fun value : ℕ => (-(value : ℤ), value)
    else
      let digits := if c == 43 then rest else c :: rest
      if digits.isEmpty then none
      else (integerDigits (2 ^ 64 - 1) digits).map fun value => (signedOfUnsigned value, value)

def integerTextValid (cell : Text) (allowNegative : Bool) : Bool :=
  cell.isEmpty || (parseIntegerText allowNegative cell).isSome

/-- The value with the digits at the beginning of the text, their number and the rest. -/
def floatDigits (value : Float) : Text → Float × ℕ × Text
  | [] => (value, 0, [])
  | c :: rest =>
    if isDigit c then
      let (value, digits, rest) := floatDigits (value * 10.0 + Float.ofNat (digitValue c)) rest
      (value, digits + 1, rest)
    else (value, 0, c :: rest)

/-- The exponent at the beginning of the text, which stops growing at `401`. -/
def exponentDigits (exponent : ℕ) : Text → ℕ × Text
  | [] => (exponent, [])
  | c :: rest =>
    if isDigit c then
      exponentDigits (if exponent < 401 then min (exponent * 10 + digitValue c) 401 else exponent)
        rest
    else (exponent, c :: rest)

def startsWithDigit : Text → Bool
  | c :: _ => isDigit c
  | [] => false

/-- The value scaled as often as the exponent says. -/
def scaleFloat (scale : Float → Float) : ℕ → Float → Float
  | 0, value => value
  | exponent + 1, value => scaleFloat scale exponent (scale value)

/-- The integer part: a zero stands alone. -/
def floatInteger : Text → Float × Text
  | 48 :: rest => (0.0, rest)
  | text =>
    let (value, _, rest) := floatDigits 0.0 text
    (value, rest)

/-- The fraction, if there is a point: digits must follow it. -/
def floatFraction (value : Float) : Text → Option (Float × Text)
  | 46 :: rest =>
    if !startsWithDigit rest then none
    else
      let (value, digits, rest) := floatDigits value rest
      some (scaleFloat (· / 10.0) digits value, rest)
  | text => some (value, text)

/-- The digits of an exponent, which the text must end with. -/
def floatScaled (negative : Bool) (value : Float) (text : Text) : Option Float :=
  if !startsWithDigit text then none
  else
    let (exponent, rest) := exponentDigits 0 text
    if !rest.isEmpty then none
    else some (scaleFloat (fun x => if negative then x / 10.0 else x * 10.0) exponent value)

/-- The exponent, if there is one; nothing may follow it. -/
def floatExponent (value : Float) : Text → Option Float
  | [] => some value
  | c :: rest =>
    if c == 101 || c == 69 then
      match rest with
      | 43 :: digits => floatScaled false value digits
      | 45 :: digits => floatScaled true value digits
      | digits => floatScaled false value digits
    else none

def jsonReadFloatValue (text : Text) : Option Float :=
  let (negative, digits) := match text with
    | 45 :: rest => (true, rest)
    | _ => (false, text)
  if !startsWithDigit digits then none
  else
    let (value, rest) := floatInteger digits
    (floatFraction value rest).bind fun (value, rest) =>
      (floatExponent value rest).bind fun value =>
        let value := if negative then -value else value
        if value.isFinite then some value else none

/-- `true` and `false`. -/
def boolTexts : List Text := [[116, 114, 117, 101], [102, 97, 108, 115, 101]]

def valueValid (cell : Text) (kind : ColumnKind) : Bool :=
  cell.isEmpty ||
    match kind with
    | .text => true
    | .bool => boolTexts.contains cell
    | .float => (jsonReadFloatValue cell).isSome
    | .int => integerTextValid cell true
    | .uint => integerTextValid cell false

/-! ## Names -/

def isNameStart (c : UInt8) : Bool := (65 ≤ c && c ≤ 90) || (97 ≤ c && c ≤ 122) || c == 95

def isNameByte (c : UInt8) : Bool := isNameStart c || isDigit c

/-- No name, or an identifier. -/
def columnNameValid : Text → Bool
  | [] => true
  | c :: rest => (c :: rest).length ≤ tableColumnNameMax && isNameStart c && rest.all isNameByte

namespace Table

variable (t : Table)

/-- No other column has the name. -/
def columnNameUnique (column : Column) (name : Text) : Bool :=
  name.isEmpty || (List.finRange tableMaxColumns).all fun other =>
    other == column || t.columnNames other != name

/-- The rows that are in the table. -/
def rows : List (Fin tableMaxRows) :=
  (List.finRange tableMaxRows).filter fun row => row < t.rowCount

def storeValid : Bool :=
  (List.finRange tableMaxColumns).all (fun column => columnNameValid (t.columnNames column) &&
    ((t.columnNames column).isEmpty || (List.finRange tableMaxColumns).all fun other =>
      other ≤ column || t.columnNames other != t.columnNames column)) &&
  t.rows.all fun row => (List.finRange tableMaxColumns).all fun column =>
    valueValid (t.cells row column) (t.columnTypes column)

def findColumn (name : Text) : Option Column :=
  if name.isEmpty || !columnNameValid name then none
  else (List.finRange tableMaxColumns).find? fun column => t.columnNames column == name

def setColumnName (column : Column) (name : Text) : Option Table :=
  if columnNameValid name && t.columnNameUnique column name then
    some { t with columnNames := Function.update t.columnNames column name }
  else none

/-- The kind is taken back if a cell does not fit it. -/
def setColumnType (column : Column) (kind : ℤ) : Option Table :=
  (ColumnKind.ofInt kind).bind fun kind =>
    let changed := { t with columnTypes := Function.update t.columnTypes column kind }
    if changed.storeValid then some changed else none

def setSchemaVersion (version : ℤ) : Option Table :=
  if version < 0 then none else some { t with schemaVersion := version }

end Table

end Jadren.App

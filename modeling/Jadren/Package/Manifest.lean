import Jadren.Determinism.Hashing
import Jadren.Library.OrderedMap
import Jadren.Library.Text
import Mathlib.Algebra.GroupWithZero.Nat
import Mathlib.Data.Char
import Mathlib.Data.List.Lex

/-!
# Package manifests

`PackageManifest::parse` reads a small part of TOML line by line, `to_toml` writes a manifest in a
fixed order, and the fingerprint of a manifest is a hash of that text.

The writer puts a backslash before quotes, backslashes and control characters, but the reader
takes what stands between the quotes as it is.
-/

namespace Jadren.Package

open Jadren.Text (isWhitespace)

abbrev Text := List Char

/-- The length in bytes. -/
def byteLen (text : Text) : ℕ := (text.map Char.utf8Size).sum

def trim (text : Text) : Text := Jadren.Text.trim isWhitespace text

/-- A registry requirement, or the directory of a local package. -/
inductive DependencySpec where
  | version (requirement : Text)
  | path (directory : Text)
  deriving DecidableEq

def DependencySpec.text : DependencySpec → Text
  | .version requirement => requirement
  | .path directory => directory

structure PackageMetadata where
  name : Text
  version : Text
  edition : Text
  deriving DecidableEq

structure PackageManifest where
  package : PackageMetadata
  dependencies : OrderedMap Text DependencySpec
  library : Bool

inductive ManifestError where
  | invalidLine (line : ℕ) (message : String)
  | duplicateKey (line : ℕ) (key : Text)
  | missingKey (sectionName key : String)
  | invalidValue (line : ℕ) (key : Text) (message : String)

/-! ### Values -/

def setOnce {T : Type} (slot : Option T) (value : T) (key : Text) (line : ℕ) :
    Except ManifestError (Option T) :=
  if slot.isSome then .error (.duplicateKey line key) else .ok (some value)

def parseString (value : Text) (line : ℕ) : Except ManifestError Text :=
  if byteLen value < 2 ∨ value.head? ≠ some '"' ∨ value.getLast? ≠ some '"' then
    .error (.invalidValue line "string".toList "expected a double-quoted string")
  else
    let value := value.tail.dropLast
    if '"' ∈ value ∨ '\n' ∈ value ∨ '\r' ∈ value then
      .error (.invalidValue line "string".toList
        "embedded quotes/newlines are not supported in MVP TOML")
    else .ok value

def parseDependency (value : Text) (line : ℕ) : Except ManifestError DependencySpec :=
  if value.head? = some '"' then (parseString value line).map .version
  else if ¬ (value.head? = some '\x7b' ∧ value.getLast? = some '\x7d') then
    .error (.invalidValue line "dependency".toList
      "expected a quoted version or `\x7b path = \"...\" \x7d`")
  else
    match Jadren.Text.splitOnce '=' (trim value.tail.dropLast) with
    | none =>
      .error (.invalidValue line "dependency".toList
        "path dependency requires `path = \"...\"`")
    | some (key, pathValue) =>
      if trim key ≠ "path".toList then
        .error (.invalidValue line "dependency".toList
          ("unsupported inline dependency key `" ++ String.ofList (trim key) ++ "`"))
      else (parseString (trim pathValue) line).map .path

def parseBool (value : Text) (line : ℕ) : Except ManifestError Bool :=
  if value = "true".toList then .ok true
  else if value = "false".toList then .ok false
  else .error (.invalidValue line "boolean".toList "expected `true` or `false`")

/-- The characters that a name may begin with. -/
def startsName (c : Char) : Bool := c.isAlpha || c == '_'

def continuesName (c : Char) : Bool := c.isAlphanum || c == '_' || c == '-'

def isName : Text → Bool
  | [] => false
  | c :: rest => startsName c && rest.all continuesName

def validateName (name : Text) (line : ℕ) : Except ManifestError Unit :=
  if isName name then .ok ()
  else .error (.invalidValue line "name".toList
    ("invalid package/dependency identifier `" ++ String.ofList name ++ "`"))

def isVersion (version : Text) : Bool :=
  (version.splitOn '.').length == 3 &&
    (version.splitOn '.').all fun part => !part.isEmpty && part.all Char.isDigit

def validateVersion (version : Text) (line : ℕ) : Except ManifestError Unit :=
  if isVersion version then .ok ()
  else .error (.invalidValue line "version".toList "expected semantic version `major.minor.patch`")

def isEdition (edition : Text) : Bool := byteLen edition == 4 && edition.all Char.isDigit

def validateEdition (edition : Text) (line : ℕ) : Except ManifestError Unit :=
  if isEdition edition then .ok ()
  else .error (.invalidValue line "edition".toList "expected four-digit edition")

/-! ### Lines -/

/-- The line before a `#` that does not stand between quotes. -/
def stripCommentFrom : Bool → Text → Text
  | _, [] => []
  | inString, c :: rest =>
    if c = '"' then c :: stripCommentFrom (!inString) rest
    else if c = '#' ∧ inString = false then []
    else c :: stripCommentFrom inString rest

def stripComment (line : Text) : Text := stripCommentFrom false line

inductive SectionName where
  | package
  | dependencies
  | targets
  deriving DecidableEq

def SectionName.parse (name : Text) : Option SectionName :=
  if name = "package".toList then some .package
  else if name = "dependencies".toList then some .dependencies
  else if name = "targets".toList then some .targets
  else none

/-- What has been read so far. -/
structure Reading where
  current : Option SectionName
  packageName : Option Text
  packageVersion : Option Text
  packageEdition : Option Text
  dependencies : OrderedMap Text DependencySpec
  library : Option Bool

def Reading.empty : Reading := ⟨none, none, none, none, ∅, none⟩

/-- A `key = value` line of a section. -/
def assign (sectionName : SectionName) (key value : Text) (line : ℕ) (state : Reading) :
    Except ManifestError Reading :=
  match sectionName with
  | .package =>
    if key = "name".toList then do
      let name ← setOnce state.packageName (← parseString value line) key line
      pure { state with packageName := name }
    else if key = "version".toList then do
      let version ← setOnce state.packageVersion (← parseString value line) key line
      pure { state with packageVersion := version }
    else if key = "edition".toList then do
      let edition ← setOnce state.packageEdition (← parseString value line) key line
      pure { state with packageEdition := edition }
    else .error (.invalidLine line
      ("unsupported `[package]` key `" ++ String.ofList key ++ "`"))
  | .dependencies => do
    validateName key line
    let specification ← parseDependency value line
    if state.dependencies.contains key then .error (.duplicateKey line key)
    else pure { state with dependencies := state.dependencies.insert key specification }
  | .targets =>
    if key ≠ "library".toList then .error (.invalidLine line
      ("unsupported `[targets]` key `" ++ String.ofList key ++ "`"))
    else do
      let library ← setOnce state.library (← parseBool value line) key line
      pure { state with library := library }

def parseLine (number : ℕ) (rawLine : Text) (state : Reading) : Except ManifestError Reading :=
  let line := trim (stripComment rawLine)
  if line = [] then .ok state
  else if line.head? = some '[' ∧ line.getLast? = some ']' then
    match SectionName.parse line.tail.dropLast with
    | some name => .ok { state with current := some name }
    | none => .error (.invalidLine number
      ("unsupported section `" ++ String.ofList line.tail.dropLast ++ "`"))
  else
    match Jadren.Text.splitOnce '=' line with
    | none => .error (.invalidLine number "expected `key = value`")
    | some (key, value) =>
      match state.current with
      | none => .error (.invalidLine number "key appears before a section")
      | some name => assign name (trim key) (trim value) number state

def parseLines : ℕ → List Text → Reading → Except ManifestError Reading
  | _, [], state => .ok state
  | number, line :: rest, state => do
    let state ← parseLine number line state
    parseLines (number + 1) rest state

/-! ### Manifests -/

/-- A dependency whose requirement or path is blank is refused. -/
def checkDependencies : List (Text × DependencySpec) → Except ManifestError Unit
  | [] => .ok ()
  | (name, specification) :: rest =>
    if trim specification.text = [] then
      .error (.invalidValue 0 name "dependency requirement must not be empty")
    else checkDependencies rest

def Reading.finish (state : Reading) : Except ManifestError PackageManifest := do
  let name ← state.packageName.elim (.error (.missingKey "package" "name")) .ok
  validateName name 0
  let version ← state.packageVersion.elim (.error (.missingKey "package" "version")) .ok
  validateVersion version 0
  let edition ← state.packageEdition.elim (.error (.missingKey "package" "edition")) .ok
  validateEdition edition 0
  checkDependencies state.dependencies.entries
  pure ⟨⟨name, version, edition⟩, state.dependencies, state.library.getD true⟩

def parse (text : Text) : Except ManifestError PackageManifest := do
  let state ← parseLines 1 (Jadren.Text.lines '\n' '\r' text) Reading.empty
  state.finish

/-! ### Writing -/

def quoteChar (c : Char) : Text :=
  if c = '"' then ['\\', '"']
  else if c = '\\' then ['\\', '\\']
  else if c = '\n' then ['\\', 'n']
  else if c = '\r' then ['\\', 'r']
  else if c = '\t' then ['\\', 't']
  else [c]

def quoteBody (value : Text) : Text := value.flatMap quoteChar

def quote (value : Text) : Text := '"' :: quoteBody value ++ ['"']

def dependencyLine (name : Text) : DependencySpec → Text
  | .version requirement => name ++ " = ".toList ++ quote requirement
  | .path directory => name ++ " = \x7b path = ".toList ++ quote directory ++ " \x7d".toList

/-- The lines of the canonical text. -/
def PackageManifest.tomlLines (manifest : PackageManifest) : List Text :=
  ["[package]".toList, "name = ".toList ++ quote manifest.package.name,
    "version = ".toList ++ quote manifest.package.version,
    "edition = ".toList ++ quote manifest.package.edition, [], "[dependencies]".toList] ++
  manifest.dependencies.entries.map (fun entry => dependencyLine entry.1 entry.2) ++
  [[], "[targets]".toList, "library = ".toList ++ (toString manifest.library).toList]

def PackageManifest.toToml (manifest : PackageManifest) : Text :=
  Jadren.Text.unlines '\n' manifest.tomlLines

def PackageManifest.fingerprint (manifest : PackageManifest) : UInt64 :=
  Determinism.fingerprintBytes "jadren-package-manifest-v1".toList
    (Determinism.utf8Bytes manifest.toToml)

end Jadren.Package

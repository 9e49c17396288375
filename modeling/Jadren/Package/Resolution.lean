import Jadren.Library.NamedSearch
import Jadren.Package.Manifest

/-!
# Local packages

`resolve_local` follows the path dependencies of a package, one manifest after another.  A package
is known by the name it declares: the names of the packages whose dependencies are still being
followed are the ones in `visiting`, and `paths` has the manifest of every name met so far.

The files are a parameter.  A search is given fuel for the depth of its calls.
-/

namespace Jadren.Package

/-! ### Files -/

/-- What the metadata of a path says it is. -/
inductive FileKind where
  | directory
  | file
  | other
  deriving DecidableEq

/-- The operations on paths and files, with the messages of those that fail. -/
structure Files (P : Type) where
  metadata : P → Except String FileKind
  canonicalize : P → Except String P
  readToString : P → Except String Text
  join : P → Text → P
  parent : P → Option P
  /-- The path `.`. -/
  current : P

def manifestFile : Text := "jadren.toml".toList

def ManifestError.display : ManifestError → String
  | .invalidLine line message => "line " ++ toString line ++ ": " ++ message
  | .duplicateKey line key =>
      "line " ++ toString line ++ ": duplicate key `" ++ String.ofList key ++ "`"
  | .missingKey sectionName key => "missing `" ++ sectionName ++ "." ++ key ++ "`"
  | .invalidValue line key message =>
      "line " ++ toString line ++ ": invalid `" ++ String.ofList key ++ "`: " ++ message

variable {P : Type}

/-- The manifest that a path stands for: the path itself, or the manifest of a directory. -/
def manifestPath (files : Files P) (path : P) : Except String P :=
  match files.metadata path with
  | .error message => .error message
  | .ok .directory => .ok (files.join path manifestFile)
  | .ok .file => .ok path
  | .ok .other => .error "path is not a file or directory"

/-! ### Packages -/

/-- A package, known by the canonical path of its manifest. -/
structure LocalPackage (P : Type) where
  manifestPath : P
  manifest : PackageManifest

def LocalPackage.name (package : LocalPackage P) : Text := package.manifest.package.name

inductive ResolutionError (P : Type) where
  | manifest (path : P) (message : String)
  | unresolvedVersion (package dependency : Text)
  | nameMismatch (dependency expected actual : Text) (path : P)
  | duplicatePackage (name : Text) (first second : P)
  | cycle (path : List Text)

/-- How resolution ends without a result: an error, or an assertion of the code that fails. -/
inductive Stop (P : Type) where
  | error (error : ResolutionError P)
  | panic

/-- The package at a path.  The first half of `visit`: it only reads files. -/
def locate (files : Files P) (path : P) (expectedName : Option Text) :
    Except (ResolutionError P) (LocalPackage P) := do
  let manifestInput ← (manifestPath files path).mapError (.manifest path)
  let manifestPath ← (files.canonicalize manifestInput).mapError (.manifest manifestInput)
  let text ← (files.readToString manifestPath).mapError (.manifest manifestPath)
  let manifest ← (parse text).mapError fun error => .manifest manifestPath error.display
  let name := manifest.package.name
  match expectedName with
  | none => pure ⟨manifestPath, manifest⟩
  | some expectedName =>
      if expectedName ≠ name then
        .error (.nameMismatch expectedName expectedName name manifestPath)
      else pure ⟨manifestPath, manifest⟩

/-- Where a package has a dependency with a relative path. -/
def dependencyPath (files : Files P) (package : LocalPackage P) (relativePath : Text) : P :=
  files.join ((files.parent package.manifestPath).getD files.current) relativePath

/-! ### Resolution -/

/-- `packages` has the packages whose dependencies have all been followed. -/
structure LocalResolver (P : Type) where
  packages : OrderedMap Text (LocalPackage P)
  paths : OrderedMap Text P
  visiting : List Text

def LocalResolver.empty : LocalResolver P := ⟨∅, ∅, []⟩

/-- The dependencies of a package, one after another, with the visit of a path given. -/
def visitDependencies (files : Files P)
    (visit : P → Option Text → LocalResolver P →
      Option (Except (Stop P) (Text × LocalResolver P)))
    (package : LocalPackage P) :
    List (Text × DependencySpec) → LocalResolver P → Option (Except (Stop P) (LocalResolver P))
  | [], resolver => some (.ok resolver)
  | (dependencyName, .version _) :: _, _ =>
      some (.error (.error (.unresolvedVersion package.name dependencyName)))
  | (dependencyName, .path relativePath) :: rest, resolver =>
      match visit (dependencyPath files package relativePath) (some dependencyName) resolver with
      | none => none
      | some (.error stop) => some (.error stop)
      | some (.ok (_, resolver)) => visitDependencies files visit package rest resolver

def LocalResolver.visit [DecidableEq P] (files : Files P) :
    ℕ → P → Option Text → LocalResolver P →
      Option (Except (Stop P) (Text × LocalResolver P))
  | 0, _, _, _ => none
  | fuel + 1, path, expectedName, resolver =>
      match locate files path expectedName with
      | .error error => some (.error (.error error))
      | .ok package =>
          let name := package.name
          match resolver.visiting.findIdx? fun item => item = name with
          | some index =>
              some (.error (.error (.cycle (resolver.visiting.drop index ++ [name]))))
          | none =>
              match resolver.paths.lookup name with
              | some existingPath =>
                  if existingPath ≠ package.manifestPath then
                    some (.error (.error
                      (.duplicatePackage name existingPath package.manifestPath)))
                  else some (.ok (name, resolver))
              | none =>
                  let pushed : LocalResolver P :=
                    { resolver with
                      visiting := resolver.visiting ++ [name]
                      paths := resolver.paths.insert name package.manifestPath }
                  match visitDependencies files (visit files fuel) package
                      package.manifest.dependencies.entries pushed with
                  | none => none
                  | some (.error stop) => some (.error stop)
                  | some (.ok resolver) =>
                      -- the name taken off has to be the one that was put on
                      if resolver.visiting.getLast? = some name then
                        some (.ok (name,
                          { resolver with
                            visiting := resolver.visiting.dropLast
                            packages := resolver.packages.insert name package }))
                      else some (.error .panic)

/-- The root package, and the others in name order. -/
structure LocalResolution (P : Type) where
  root : LocalPackage P
  dependencies : List (LocalPackage P)

/-- The packages of a search that has ended, without the root among the dependencies. -/
def LocalResolver.resolution (resolver : LocalResolver P) (rootName : Text) :
    Except (Stop P) (LocalResolution P) :=
  match resolver.packages.lookup rootName with
  | none => .error .panic
  | some root =>
      .ok ⟨root, resolver.packages.entries.filterMap fun entry =>
        if entry.1 ≠ rootName then some entry.2 else none⟩

def resolveLocal [DecidableEq P] (files : Files P) (fuel : ℕ) (root : P) :
    Option (Except (Stop P) (LocalResolution P)) :=
  match manifestPath files root with
  | .error message => some (.error (.error (.manifest root message)))
  | .ok rootManifest =>
      match LocalResolver.visit files fuel rootManifest none .empty with
      | none => none
      | some (.error stop) => some (.error stop)
      | some (.ok (rootName, resolver)) => some (resolver.resolution rootName)

end Jadren.Package

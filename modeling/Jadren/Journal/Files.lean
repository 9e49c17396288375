import Jadren.Http.Head

/-!
# Files

Files as a map from paths to their bytes.  A path that is locked is open for the exclusive use of
its owner: every other operation on it fails.
-/

namespace Jadren.Journal

open Http (Bytes)

abbrev Path := Bytes

structure Files where
  content : Path → Option Bytes
  locked : Path → Bool

namespace Files

variable (files : Files)

/-- The bytes of a file that can be opened. -/
def opened (path : Path) : Option Bytes :=
  if path.isEmpty || files.locked path then none else files.content path

def fileSize (path : Path) : ℕ := ((files.opened path).getD []).length

def fileRead (path : Path) (length : ℕ) : Bytes := ((files.opened path).getD []).take length

def fileFlush (path : Path) : Bool := (files.opened path).isSome

/-- The files with the path written, if it can be. -/
def put (path : Path) (data : Bytes) : Option Files :=
  if path.isEmpty || files.locked path then none
  else some { files with content := Function.update files.content path (some data) }

def fileWrite (path : Path) (data : Bytes) : Option Files := files.put path data

/-- The source takes the place of the target. -/
def fileReplaceAtomic (source target : Path) : Option Files :=
  (files.opened source).bind fun data =>
    if target.isEmpty || files.locked target then none
    else some { files with
      content := Function.update (Function.update files.content source none) target (some data) }

/-- Taking a lock creates its file. -/
def fileLock (path : Path) : Option Files :=
  if path.isEmpty || files.locked path then none
  else some
    { content := Function.update files.content path (some ((files.content path).getD []))
      locked := Function.update files.locked path true }

def fileUnlock (path : Path) : Files :=
  { files with locked := Function.update files.locked path false }

end Files

end Jadren.Journal

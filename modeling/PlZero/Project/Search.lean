import PlZero.Files.Disk
import PlZero.Files.Upward
import PlZero.Project.Manifest

/-! Manifests on disk: loading the one in a directory, searching upward for the nearest, and writing a
new one. -/

namespace PlZero.Project

open PlZero.Text PlZero.Files

/-- Why a manifest cannot be loaded or written. -/
inductive ManifestError where
  | unreadable (path : String) (error : FileError)
  | malformed (path : String)
  | invalid (path : String) (problem : Problem)
  | uncreatable (path : String) (error : FileError)
  deriving DecidableEq, Repr

namespace ManifestError

def message : ManifestError → String
  | unreadable path error => "cannot read " ++ path ++ ": " ++ error.message
  | malformed path => "parse error in " ++ path
  | invalid path problem => path ++ ": " ++ problem.message
  | uncreatable path error => "cannot create " ++ path ++ ": " ++ error.message

end ManifestError

namespace Manifest

/-- The path of the manifest in a directory. -/
def pathIn (dir : String) : String :=
  Path.join [dir, fileName]

/-- The manifest in a directory, where a text says what `decode` takes from it. -/
def load (disk : Disk) (dir : String) (decode : Bytes → Option Manifest := parse?) :
    Except ManifestError Manifest :=
  let path := pathIn dir
  match disk.read path with
  | .error error => .error (.unreadable path error)
  | .ok text =>
    match decode text with
    | none => .error (.malformed path)
    | some parsed =>
      let manifest := { parsed.withDefaults with dir := disk.absolute dir }
      match manifest.problem? with
      | some problem => .error (.invalid path problem)
      | none => .ok manifest

/-- A directory given by its parts and the directories above it, the nearest first. -/
def upward (parts : List String) : List String :=
  (List.range (parts.length + 1)).reverse.map fun count => Path.ofParts true (parts.take count)

/-- The manifest in a directory if there is one, and otherwise the nearest on the way up from it. -/
def climb (disk : Disk) (dir : String) (decode : Bytes → Option Manifest := parse?) :
    Except ManifestError (Option Manifest) :=
  if disk.has (pathIn dir) then (load disk dir decode).map some
  else if _hroot : Path.parent dir = dir then .ok none
  else climb disk (Path.parent dir) decode
  termination_by Path.height dir
  decreasing_by exact Path.height_parent_lt _hroot

/-- The nearest manifest in a directory or above it. -/
def find (disk : Disk) (start : String) (decode : Bytes → Option Manifest := parse?) :
    Except ManifestError (Option Manifest) :=
  climb disk (disk.absolute start) decode

/-- The manifest that holds in a directory: the nearest, or the default one. -/
def forProject (disk : Disk) (dir : String) : Except ManifestError Manifest := do
  match ← find disk dir with
  | some manifest => .ok manifest
  | none => .ok (default (disk.absolute dir))

/-- Writes a manifest into a directory that has none. -/
def write (disk : Disk) (dir : String) (manifest : Manifest) : Except ManifestError Disk :=
  let path := pathIn dir
  match disk.create path (Text.encode manifest.render) with
  | .ok written => .ok written
  | .error error => .error (.uncreatable path error)

end Manifest

end PlZero.Project

import PlZero.Archive.Table
import PlZero.Files.Path

/-! The files that a command sees: regular files, directories and archives, under the places that they
have from the root on, and the directory in which the command works. Operations take paths as texts and
fail as an operating system does. -/

namespace PlZero.Files

open PlZero.Text

/-- The way from the root to a file. -/
abbrev Location := List String

inductive Node where
  | directory
  | file (content : Bytes)
  | archive (table : Archive.Table)
  deriving DecidableEq, Repr

/-- What the operating system says. -/
inductive Errno where
  | notFound
  | notDirectory
  | isDirectory
  | alreadyThere
  | nameTooLong
  | invalidArgument
  | noSpace
  | inputOutput
  deriving DecidableEq, Repr

namespace Errno

def describe : Errno → String
  | notFound => "no such file or directory"
  | notDirectory => "not a directory"
  | isDirectory => "is a directory"
  | alreadyThere => "file exists"
  | nameTooLong => "file name too long"
  | invalidArgument => "invalid argument"
  | noSpace => "no space left on device"
  | inputOutput => "input/output error"

end Errno

/-- A failed operation on files. -/
structure FileError where
  operation : String
  path : String
  reason : Errno
  deriving DecidableEq, Repr

def FileError.message (error : FileError) : String :=
  error.operation ++ " " ++ error.path ++ ": " ++ error.reason.describe

/-- The files, and the directory in which a command works. -/
structure Disk where
  home : Location := []
  entries : List (Location × Node) := []

namespace Disk

/-- The file at a place; the root is a directory. -/
def node? (disk : Disk) (location : Location) : Option Node :=
  match location with
  | [] => some .directory
  | _ => disk.entries.lookup location

/-- Puts a file at a place. -/
def put (disk : Disk) (location : Location) (node : Node) : Disk :=
  { disk with
    entries := (location, node) :: disk.entries.filter fun entry => entry.1 != location }

/-- Takes away what is at a place. -/
def erase (disk : Disk) (location : Location) : Disk :=
  { disk with entries := disk.entries.filter fun entry => entry.1 != location }

/-- The path of the directory in which a command works. -/
def homePath (disk : Disk) : String :=
  Path.ofParts true disk.home

/-- The absolute path of a path. -/
def absolute (disk : Disk) (path : String) : String :=
  Path.absolute disk.homePath path

/-- One step from a directory. -/
def stepFrom (location : Location) (part : String) : Location :=
  if part = "." then location
  else if part = ".." then location.dropLast
  else location ++ [part]

/-- The most bytes that a name in a directory may have. -/
def maxName : Nat := 255

/-- The most bytes that a path may have. -/
def maxPath : Nat := 4095

/-- Goes from a place along parts; every place that is left must be a directory. -/
def walk (disk : Disk) (location : Location) : List String → Except Errno Location
  | [] => .ok location
  | part :: rest =>
    match disk.node? location with
    | none => .error .notFound
    | some .directory =>
      if maxName < part.utf8ByteSize then .error .nameTooLong
      else walk disk (stepFrom location part) rest
    | some _ => .error .notDirectory

/-- Whether a path ends with a slash and so names a directory. -/
def endsWithSlash (path : String) : Bool :=
  path.toList.getLast? == some '/'

/-- The place that a path names, whether there is a file or not. No path holds a NUL. -/
def place (disk : Disk) (path : String) : Except Errno Location :=
  if path.toList.contains (Char.ofNat 0) then .error .invalidArgument
  else if path = "" then .error .notFound
  else if maxPath < path.utf8ByteSize then .error .nameTooLong
  else disk.walk (if Path.isAbsolute path then [] else disk.home) (Path.parts path)

/-- The place and the file that a path names. -/
def find (disk : Disk) (path : String) : Except Errno (Location × Node) := do
  let location ← disk.place path
  match disk.node? location with
  | none => .error .notFound
  | some .directory => .ok (location, .directory)
  | some node => if endsWithSlash path then .error .notDirectory else .ok (location, node)

/-- Whether a path names a file of any kind. -/
def has (disk : Disk) (path : String) : Bool :=
  (disk.find path).toOption.isSome

/-- What every archive file starts with. -/
def archiveHead : Bytes :=
  Text.encode "SQLite format 3" ++ [0x00, 0x10, 0x00, 0x01, 0x01, 0x00, 0x40, 0x20, 0x20]

/-- The content of a file. -/
def read (disk : Disk) (path : String) : Except FileError Bytes :=
  match disk.find path with
  | .error reason => .error ⟨"open", path, reason⟩
  | .ok (_, .directory) => .error ⟨"read", path, .isDirectory⟩
  | .ok (_, .file content) => .ok content
  | .ok (_, .archive _) => .ok archiveHead

/-- Makes a directory where there is nothing. -/
def makeDirectory (disk : Disk) (path : String) : Except Errno Disk := do
  let location ← disk.place path
  match disk.node? location with
  | some _ => .error .alreadyThere
  | none => .ok (disk.put location .directory)

/-- Makes a directory unless there is one at last. -/
def provideDirectory (disk : Disk) (path : String) : Disk × Except FileError Unit :=
  match disk.makeDirectory path with
  | .ok made => (made, .ok ())
  | .error reason =>
    match disk.find path with
    | .ok (_, .directory) => (disk, .ok ())
    | _ => (disk, .error ⟨"mkdir", path, reason⟩)

/-- Sees to it that the first of the paths names a directory; each of them lies in the next, which is
seen to first unless the path can be found. -/
def ensureFirst (disk : Disk) : List String → Disk × Except FileError Unit
  | [] => (disk, .ok ())
  | path :: above =>
    match disk.find path with
    | .ok (_, .directory) => (disk, .ok ())
    | .ok _ => (disk, .error ⟨"mkdir", path, .notDirectory⟩)
    | .error _ =>
      match disk.ensureFirst above with
      | (founded, .ok _) => founded.provideDirectory path
      | (founded, .error error) => (founded, .error error)

/-- Sees to it that a path names a directory, and makes all directories on the way. Those that were made
before a failure stay. -/
def ensureDirectories (disk : Disk) (path : String) : Disk × Except FileError Unit :=
  disk.ensureFirst (Path.ancestors path).reverse

/-- Makes a file where there is nothing. -/
def create (disk : Disk) (path : String) (content : Bytes) : Except FileError Disk :=
  match disk.place path with
  | .error reason => .error ⟨"open", path, reason⟩
  | .ok location =>
    if endsWithSlash path then .error ⟨"open", path, .isDirectory⟩
    else
      match disk.node? location with
      | some _ => .error ⟨"open", path, .alreadyThere⟩
      | none => .ok (disk.put location (.file content))

/-- Gives the file that a path names another content. -/
def fill (disk : Disk) (path : String) (content : Bytes) : Disk :=
  match disk.place path with
  | .error _ => disk
  | .ok location => disk.put location (.file content)

/-- Moves a file in place of what is at another path, unless that is a directory. -/
def rename (disk : Disk) (path target : String) : Except Errno Disk := do
  let source ← disk.place path
  match disk.node? source with
  | none => .error .notFound
  | some node =>
    let location ← disk.place target
    match disk.node? location with
    | some .directory => .error .alreadyThere
    | _ => .ok ((disk.erase source).put location node)

/-- Takes away the file that a path names, if it names one; directories stay. -/
def unlink (disk : Disk) (path : String) : Disk :=
  match disk.place path with
  | .error _ => disk
  | .ok location =>
    match disk.node? location with
    | some .directory => disk
    | _ => disk.erase location

/-- Every place on the way to a place, itself excluded. -/
def placesAbove (location : Location) : List Location :=
  (List.range location.length).map fun count => location.take count

/-- A disk with a file put at a place and directories on the way to it. -/
def install (disk : Disk) (location : Location) (node : Node) : Disk :=
  let founded := (placesAbove location).foldl (fun disk above =>
    if (disk.node? above).isSome then disk else disk.put above .directory) disk
  founded.put location node

end Disk

end PlZero.Files

import PlZero.Archive.Address
import PlZero.Files.Disk
import PlZero.Source.Compile

/-! Archives in use: opening the archive at an address, and the operations on an open one, which may
also be closed. An archive without a place on disk is kept in memory and is empty at each opening. Compiling
with an archive at hand compiles nothing that is stored and stores what it compiles; rows that cannot be used
are replaced, and an archive that fails changes nothing about the answer. -/

namespace PlZero.Archive

open PlZero.Text PlZero.Files PlZero.Machine

/-- Why an operation on an archive is not carried out. -/
inductive Interruption where
  | closed
  | cancelled
  | readOnly
  deriving DecidableEq, Repr

def Interruption.describe : Interruption → String
  | closed => "sql: database is closed"
  | cancelled => "context canceled"
  | readOnly => "attempt to write a readonly database (8)"

/-- The operations that can be interrupted. -/
inductive Action where
  | get
  | count
  | put
  | list
  | clear
  deriving DecidableEq, Repr

def Action.failure : Action → String
  | get => "failed to get artifact"
  | count => "failed to record hit"
  | put => "failed to store artifact"
  | list => "failed to list artifacts"
  | clear => "failed to clear cache"

inductive StoreError where
  | noDirectory (error : FileError)
  | unreachable
  | notArchive
  | interrupted (action : Action) (reason : Interruption)
  | corrupt (key : String) (error : Artifact.DecodeError)
  deriving DecidableEq, Repr

namespace StoreError

def message : StoreError → String
  | noDirectory error => "failed to create cache directory: " ++ error.message
  | unreachable => "failed to ping sqlite database"
  | notArchive => "failed to initialize schema"
  | interrupted action reason => action.failure ++ ": " ++ reason.describe
  | corrupt key error => "corrupt artifact " ++ shortKey key ++ ": " ++ error.message

end StoreError

/-- An archive in use: the address it was opened with, its place on disk if it has one, and its rows if
it has none. -/
structure Store where
  path : String
  location : Option Location
  memory : Table := []
  isReadOnly : Bool := false
  isClosed : Bool := false

/-- An archive in use together with the disk. -/
structure Shelf where
  disk : Disk
  store : Store

/-- The most bytes that the path of an archive may have from the root on. -/
def maxArchivePath : Nat := 504

/-- How many bytes the name of the file that guards the changes of an archive has more than its own. -/
def companionSize : Nat := 8

/-- Whether nothing can be told of a place: a file stands where a directory should be, or a name on the
way is too long. -/
def isBlocked (disk : Disk) (location : Location) : Bool :=
  match disk.walk [] location with
  | .ok _ | .error .notFound => false
  | .error _ => true

/-- The place of an archive, worked out on the text of its path; a directory that is left again need not
be there. -/
def locate? (disk : Disk) (path : String) : Option Location := do
  let start := if Path.isAbsolute path then [] else disk.home
  let location ← (Path.parts path).foldlM (fun location part =>
    let next := Disk.stepFrom location part
    if isBlocked disk next then none else some next) start
  if (Path.ofParts true location).utf8ByteSize ≤ maxArchivePath then some location else none

/-- Whether a file counts as empty. -/
def countsAsEmpty (content : Bytes) : Bool :=
  content.length ≤ 1

/-- The disk with a file at the place of an archive; it is made if there is nothing and the access lets
it. -/
def reach? (disk : Disk) (location : Location) (access : Access) : Option Disk :=
  match disk.node? location with
  | some .directory => none
  | some _ => some disk
  | none =>
    if access = .create ∧ disk.node? location.dropLast = some .directory then
      some (disk.put location (.file []))
    else none

/-- Whether an archive under a name can be changed. -/
def isWritable (location : Location) (access : Access) : Bool :=
  access != .readOnly
    && (location.getLast?.getD "").utf8ByteSize + companionSize ≤ Disk.maxName

/-- The disk with an archive at a place that has a file; an empty file becomes an archive without rows. -/
def found? (disk : Disk) (location : Location) (access : Access) : Option Disk :=
  match disk.node? location with
  | some (.archive _) => some disk
  | some (.file content) =>
    if countsAsEmpty content && isWritable location access then some (disk.put location (.archive []))
    else none
  | _ => none

/-- Opens the archive in a file. -/
def openFile (disk : Disk) (path file : String) (address : Address) :
    Disk × Except StoreError Store :=
  match (locate? disk file).bind fun location =>
      (reach? disk location address.access).map fun reached => (location, reached) with
  | none => (disk, .error .unreachable)
  | some (location, reached) =>
    if address.isAccepted then
      match found? reached location address.access with
      | none => (reached, .error .notArchive)
      | some opened =>
        (opened, .ok
          { path := path, location := some location, isReadOnly := address.access == .readOnly })
    else (reached, .error .unreachable)

/-- Opens a new archive in memory. -/
def openMemory (path : String) (address : Address) : Except StoreError Store :=
  if !address.isAccepted then .error .unreachable
  else if address.access = .readOnly then .error .notArchive
  else .ok { path := path, location := none }

/-- Opens the archive at an address, and makes the directories on the way to it, which are read off the
address as it is written. -/
def openAt (disk : Disk) (path : String) : Disk × Except StoreError Store :=
  let (founded, made) :=
    if path = Address.memoryName then (disk, .ok ())
    else disk.ensureDirectories (Path.parent path)
  match made, Address.read? path with
  | .error error, _ => (founded, .error (.noDirectory error))
  | .ok _, none => (founded, .error .unreachable)
  | .ok _, some address =>
    match address.path with
    | none => (founded, openMemory path address)
    | some file => openFile founded path file address

namespace Shelf

/-- The rows of the archive. -/
def table (shelf : Shelf) : Table :=
  match shelf.store.location with
  | none => shelf.store.memory
  | some location =>
    match shelf.disk.node? location with
    | some (.archive rows) => rows
    | _ => []

/-- The archive with other rows. -/
def withTable (shelf : Shelf) (rows : Table) : Shelf :=
  match shelf.store.location with
  | none => { shelf with store := { shelf.store with memory := rows } }
  | some location => { shelf with disk := shelf.disk.put location (.archive rows) }

def close (shelf : Shelf) : Shelf :=
  { shelf with store := { shelf.store with isClosed := true } }

/-- Lets an operation go ahead unless the archive is closed or the operation is cancelled. -/
def permit (shelf : Shelf) (cancelled : Bool) (action : Action) : Except StoreError Unit :=
  if shelf.store.isClosed then .error (.interrupted action .closed)
  else if cancelled then .error (.interrupted action .cancelled)
  else .ok ()

/-- Lets an operation that changes rows go ahead unless the archive can only be read. -/
def permitChange (shelf : Shelf) (cancelled : Bool) (action : Action) : Except StoreError Unit :=
  match shelf.permit cancelled action with
  | .error error => .error error
  | .ok _ => if shelf.store.isReadOnly then .error (.interrupted action .readOnly) else .ok ()

/-- The program of a source, if it is there. -/
def get (shelf : Shelf) (source : Bytes) (cancelled : Bool) :
    Shelf × Except StoreError (Option Code) :=
  match shelf.permit cancelled .get with
  | .error error => (shelf, .error error)
  | .ok _ =>
    match shelf.table.get source with
    | (_, .miss) => (shelf, .ok none)
    | (_, .corrupt key error) => (shelf, .error (.corrupt key error))
    | (rows, .hit code) =>
      match shelf.permitChange cancelled .count with
      | .error error => (shelf, .error error)
      | .ok _ => (shelf.withTable rows, .ok (some code))

/-- Stores the program of a source. -/
def put (shelf : Shelf) (source : Bytes) (code : Code) (now : Int) (cancelled : Bool) :
    Shelf × Except StoreError Unit :=
  match shelf.permitChange cancelled .put with
  | .error error => (shelf, .error error)
  | .ok _ => (shelf.withTable (shelf.table.put source code now), .ok ())

/-- The rows in the order in which they are listed. -/
def entries (shelf : Shelf) (cancelled : Bool) : Except StoreError (List Row) :=
  (shelf.permit cancelled .list).map fun _ => shelf.table.entries

/-- Removes all rows and tells how many there were. -/
def clear (shelf : Shelf) (cancelled : Bool) : Shelf × Except StoreError Nat :=
  match shelf.permitChange cancelled .clear with
  | .error error => (shelf, .error error)
  | .ok _ => (shelf.withTable [], .ok shelf.table.length)

/-- Changes the row of a source if there is one; `none` if the archive cannot be changed. -/
def change? (shelf : Shelf) (source : Bytes) (update : Row → Row) : Option Shelf :=
  (shelf.permitChange false .put).toOption.map fun _ =>
    shelf.withTable (shelf.table.update (key source) update)

/-- The code of a source, from the archive or else by compiling it; faulty sources are not stored. -/
def compile (shelf : Shelf) (source : Bytes) (now : Int) (cancelled : Bool) :
    Shelf × Except Source.Fault Code :=
  match shelf.get source cancelled with
  | (counted, .ok (some code)) => (counted, .ok code)
  | (looked, _) =>
    match Source.compile source with
    | .error fault => (looked, .error fault)
    | .ok code => ((looked.put source code now cancelled).1, .ok code)

end Shelf

end PlZero.Archive

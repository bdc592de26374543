import PlZero.Archive.Digest
import PlZero.Machine.Artifact

/-! The table of compiled programs, one row for each source, found by the digest of its text. -/

namespace PlZero.Archive

open PlZero.Text PlZero.Machine

structure Row where
  hash : String
  version : Int
  instructions : Nat
  program : Bytes
  created : Int
  hits : Nat
  deriving DecidableEq, Repr

/-- The rows, with no hash in two of them. -/
abbrev Table := List Row

/-- The key of a source. -/
def key (source : Bytes) : String :=
  Digest.hexText (Digest.sha256 source)

/-- The start of a key, as messages show it. -/
def shortKey (key : String) : String :=
  String.ofList (key.toList.take 12)

/-- What looking a source up comes to. -/
inductive Found where
  | miss
  | corrupt (key : String) (error : Artifact.DecodeError)
  | hit (code : Code)
  deriving DecidableEq, Repr

namespace Table

def row? (table : Table) (hash : String) : Option Row :=
  table.find? fun row => row.hash == hash

/-- Changes the row with a hash. -/
def update (table : Table) (hash : String) (change : Row → Row) : Table :=
  table.map fun row => if row.hash = hash then change row else row

/-- Looks a source up. Rows of another format version count as missing. A hit is counted. -/
def get (table : Table) (source : Bytes) : Table × Found :=
  let hash := key source
  match table.row? hash with
  | none => (table, .miss)
  | some row =>
    if row.version = formatVersion then
      match Artifact.readBinary row.program with
      | .ok code => (table.update hash fun row => { row with hits := row.hits + 1 }, .hit code)
      | .error error => (table, .corrupt hash error)
    else (table, .miss)

/-- Stores the program of a source in place of what was stored for it. -/
def put (table : Table) (source : Bytes) (code : Code) (now : Int) : Table :=
  let hash := key source
  table.filter (fun row => row.hash != hash)
    ++ [⟨hash, formatVersion, code.length, Artifact.binary code, now, 0⟩]

/-- Whether a row is listed before another: the newer first, rows of one time by their hashes. -/
def precedes (left right : Row) : Bool :=
  right.created < left.created || (left.created == right.created && left.hash ≤ right.hash)

/-- The rows in the order in which they are listed. -/
def entries (table : Table) : List Row :=
  table.mergeSort precedes

end Table

end PlZero.Archive

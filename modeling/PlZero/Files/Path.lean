/-! Paths as texts: parts between slashes, `.` for the same directory and `..` for the one above. The
operations are on the text alone and look at no file. -/

namespace PlZero.Files.Path

/-- The pieces of a text between its slashes. -/
def split : List Char → List (List Char)
  | [] => [[]]
  | sign :: rest =>
    if sign = '/' then [] :: split rest
    else
      match split rest with
      | [] => [[sign]]
      | piece :: pieces => (sign :: piece) :: pieces

/-- The parts of a path, without empty ones. -/
def parts (path : String) : List String :=
  ((split path.toList).filter fun piece => !piece.isEmpty).map String.ofList

def isAbsolute (path : String) : Bool :=
  path.toList.head? == some '/'

/-- Goes one part further; `found` holds the parts before, the latest first. A `..` takes back the part
before it, and is lost above the root. -/
def push (rooted : Bool) (found : List String) (part : String) : List String :=
  if part = "." then found
  else if part = ".." then
    match found with
    | [] => if rooted then [] else [".."]
    | latest :: rest => if latest = ".." then ".." :: found else rest
  else part :: found

/-- Parts with `.` and `..` worked out. -/
def normal (rooted : Bool) (parts : List String) : List String :=
  (parts.foldl (push rooted) []).reverse

/-- The text of a path. -/
def ofParts (rooted : Bool) (parts : List String) : String :=
  if rooted then "/" ++ "/".intercalate parts
  else
    match parts with
    | [] => "."
    | _ => "/".intercalate parts

/-- The shortest path with the same meaning. -/
def clean (path : String) : String :=
  ofParts (isAbsolute path) (normal (isAbsolute path) (parts path))

/-- Paths one behind the other, cleaned; empty ones are left out. -/
def join (paths : List String) : String :=
  match paths.filter fun path => path != "" with
  | [] => ""
  | kept => clean ("/".intercalate kept)

/-- The last part of a path. -/
def base (path : String) : String :=
  match (parts path).getLast? with
  | some part => part
  | none => if path = "" then "." else "/"

/-- All but the last part of a path, cleaned. -/
def parent (path : String) : String :=
  clean (String.ofList (path.toList.reverse.dropWhile fun sign => sign != '/').reverse)

/-- The extension of the last part: what starts at its last dot. -/
def extension (path : String) : String :=
  let name := path.toList.reverse.takeWhile fun sign => sign != '/'
  if name.contains '.' then
    String.ofList ('.' :: (name.takeWhile fun sign => sign != '.').reverse)
  else ""

/-- A path with another extension. -/
def withExtension (path extension : String) : String :=
  let old := Path.extension path
  String.ofList (path.toList.take (path.length - old.length)) ++ extension

/-- The absolute path, for paths relative to `home`. -/
def absolute (home path : String) : String :=
  if isAbsolute path then clean path else join [home, path]

/-- The path and the paths above it, the shortest first, as far as they are written out. -/
def ancestors (path : String) : List String :=
  let signs := path.toList
  let starts := (List.range signs.length).filter fun index =>
    1 < index && signs[index - 1]? == some '/' && signs[index]? != some '/'
  starts.map (fun index => String.ofList (signs.take (index - 1))) ++ [path]

end PlZero.Files.Path

import PlZero.Project.Search
import PlZero.Source.Compile

/-! Building artifacts: a source file is read, compiled, encoded and written in the format of the project. An
artifact is written beside its place first and then moved there, so it is there whole or not at all. -/

namespace PlZero.Command

open PlZero.Text PlZero.Files PlZero.Machine PlZero.Project PlZero.Source

/-- Why a source file gives no artifact. -/
inductive BuildError where
  | unreadable (error : FileError)
  | faulty (fault : Fault)
  | unencoded (text : String)
  | noDirectory (dir : String) (error : FileError)
  | undrafted (path : String) (error : FileError)
  | unfilled (path : String) (error : FileError)
  | unwritable (path draft : String) (reason : Errno)
  deriving DecidableEq, Repr

namespace BuildError

def message : BuildError → String
  | unreadable error => "cannot read: " ++ error.message
  | faulty fault => fault.message
  | unencoded text => text
  | noDirectory dir error => "cannot create " ++ dir ++ ": " ++ error.message
  | undrafted path error => "cannot write " ++ path ++ ": " ++ error.message
  | unfilled path error => "cannot write " ++ path ++ ": " ++ error.message
  | unwritable path draft reason =>
    "cannot write " ++ path ++ ": rename " ++ draft ++ " " ++ path ++ ": " ++ reason.describe

end BuildError

/-- The path of a draft in a directory. Drafts are told apart by digits; what is reported has `N` in
their place. -/
def draftIn (dir : String) (digits : String := "N") : String :=
  if Disk.endsWithSlash dir then dir ++ (".plc0-" ++ digits) else dir ++ "/" ++ (".plc0-" ++ digits)

/-- How many numbers are tried before a draft is given up. -/
def draftTries : Nat := 10000

/-- The numbers that are drawn, each when so many tries are left. -/
abbrev Draws := Nat → UInt32

/-- The numbers of the drafts unless others are drawn. -/
def draftNumber : Draws := fun left =>
  4294967295 - left.toUInt32

/-- Makes an empty draft under the first number drawn that is free, and gives the path that it has. -/
def createDraft (disk : Disk) (dir : String) (draws : Draws) :
    Nat → Except FileError (Disk × String)
  | 0 => .error ⟨"createtemp", draftIn dir "*", .alreadyThere⟩
  | left + 1 =>
    let draft := draftIn dir (showNat (draws left).toNat)
    match disk.create draft [] with
    | .ok drafted => .ok (drafted, draft)
    | .error error =>
      if error.reason = .alreadyThere then createDraft disk dir draws left
      else .error { error with path := draftIn dir }

/-- How the content of a draft is taken to it: all of it, or only so many bytes because writing fails, or
all of it but closing the draft fails. -/
inductive Transfer where
  | whole
  | cut (count : Nat) (reason : Errno)
  | unclosed (reason : Errno)
  deriving DecidableEq, Repr

namespace Transfer

/-- What comes to be in a draft. -/
def taken (content : Bytes) : Transfer → Bytes
  | cut count _ => content.take count
  | whole | unclosed _ => content

/-- What fails about a draft in a directory. -/
def failure? (dir : String) : Transfer → Option FileError
  | whole => none
  | cut _ reason => some ⟨"write", draftIn dir, reason⟩
  | unclosed reason => some ⟨"close", draftIn dir, reason⟩

end Transfer

/-- What a build relies on and neither its source nor the files decide: whether encoding fails, which
numbers are drawn for drafts, and how the content of a draft is taken to it. -/
structure Means where
  refusal? : String → Code → Option String := fun _ _ => none
  draws : Draws := draftNumber
  transfer : Transfer := .whole

/-- Writes a file as a whole: the directories on the way are made, a draft is written beside the file and
moved in its place, and whatever came of that, the draft is taken away in the end. -/
def writeWhole (disk : Disk) (path : String) (content : Bytes) (means : Means := {}) :
    Disk × Except BuildError Unit :=
  let dir := Path.parent path
  match disk.ensureDirectories dir with
  | (founded, .error error) => (founded, .error (.noDirectory dir error))
  | (founded, .ok _) =>
    match createDraft founded dir means.draws draftTries with
    | .error error => (founded, .error (.undrafted path error))
    | .ok (drafted, draft) =>
      let filled := drafted.fill draft (means.transfer.taken content)
      match means.transfer.failure? dir with
      | some error => (filled.unlink draft, .error (.unfilled path error))
      | none =>
        match filled.rename draft path with
        | .ok renamed => (renamed.unlink draft, .ok ())
        | .error reason => (filled.unlink draft, .error (.unwritable path (draftIn dir) reason))

/-- Where the artifact of a source goes. -/
def artifactPath (manifest : Manifest) (source : String) : String :=
  Artifact.pathOf source manifest.fullOutputDir manifest.format

/-- Builds the artifact of one source file, and gives the disk as it then is with the code. -/
def build (disk : Disk) (manifest : Manifest) (source : String) (means : Means := {}) :
    Disk × Except BuildError Code :=
  match disk.read source with
  | .error error => (disk, .error (.unreadable error))
  | .ok text =>
    match compile text with
    | .error fault => (disk, .error (.faulty fault))
    | .ok code =>
      match means.refusal? manifest.format code with
      | some text => (disk, .error (.unencoded text))
      | none =>
        let (next, result) := writeWhole disk (artifactPath manifest source)
          (Artifact.encode manifest.format code) means
        (next, result.map fun _ => code)

/-- What building one source file came to. -/
structure BuildResult where
  source : String
  outcome : Except BuildError Code

/-- Builds source files one after the other, and goes on after errors. -/
def buildAll (disk : Disk) (manifest : Manifest) : List String → Disk × List BuildResult
  | [] => (disk, [])
  | source :: rest =>
    let (next, outcome) := build disk manifest source
    let (done, results) := buildAll next manifest rest
    (done, ⟨source, outcome⟩ :: results)

/-- Builds a source file and tells what came of it. -/
def buildReport (disk : Disk) (manifest : Manifest) (source : String) : Disk × String :=
  match build disk manifest source with
  | (next, .ok code) =>
    (next, source ++ ": ok, " ++ showNat code.length ++ " instructions -> "
      ++ artifactPath manifest source ++ "\n")
  | (next, .error error) => (next, source ++ ": " ++ error.message ++ "\n")

/-- Builds source files, one report for each. -/
def buildReports (disk : Disk) (manifest : Manifest) (sources : List String) : Disk × String :=
  sources.foldl (fun (disk, text) source =>
    let (next, report) := buildReport disk manifest source
    (next, text ++ report)) (disk, "")

/-- Files that change at one time, with their new contents. -/
abbrev Edit := List (String × Bytes)

/-- The last of the sources that names the same file as a path. -/
def sourceAt? (disk : Disk) (sources : List String) (path : String) : Option String :=
  sources.reverse.find? fun source => disk.absolute source == disk.absolute path

/-- Takes an edit, and builds the sources that it changes. -/
def follow (manifest : Manifest) (sources : List String) (state : Disk × String) (edit : Edit) :
    Disk × String :=
  let changed := edit.foldl (fun disk (path, content) =>
    disk.install (Path.parts (disk.absolute path)) (.file content)) state.1
  let touched := edit.filterMap fun (path, _) => sourceAt? changed sources path
  let (next, text) := buildReports changed manifest touched
  (next, state.2 ++ text)

/-- The first source whose directory cannot be watched, and why. -/
def unwatchable? (disk : Disk) (sources : List String) : Option (String × Errno) :=
  sources.findSome? fun source =>
    match disk.find (Path.parent (disk.absolute source)) with
    | .ok _ => none
    | .error reason => some (source, reason)

end PlZero.Command

import PlZero.Archive.Form
import PlZero.Command.Run
import Std.Time.DateTime.Timestamp

/-! The command line. The files that a command looks at are read into a disk, the command is carried out
on it, and the files that changed are written back. -/

namespace PlZero.Main

open PlZero.Text PlZero.Files PlZero.Command

/-- The file at a place, whose parent is a directory. -/
def probe (location : Location) : IO (Option Node) := do
  match ← (IO.FS.readBinFile (Path.ofParts true location)).toBaseIO with
  | .ok content =>
    match Archive.Table.read? content.toList with
    | some rows => return some (.archive rows)
    | none => return some (.file content.toList)
  | .error (.noFileOrDirectory ..) => return none
  | .error _ => return some .directory

/-- Reads the files on the way to a place, as far as there are directories. -/
def readWay (disk : Disk) (location : Location) : IO Disk := do
  let mut known := disk
  for count in List.range (location.length + 1) do
    let place := location.take count
    if (known.node? place).isNone && known.node? place.dropLast == some .directory then
      if let some node ← probe place then known := known.put place node
  return known

/-- Reads the files that paths name. -/
def readPaths (disk : Disk) (paths : List String) : IO Disk :=
  paths.foldlM (fun disk path => readWay disk (Path.parts (disk.absolute path))) disk

/-- The files that a command looks at. -/
def gather (home : Location) (call : Call) : IO Disk := do
  let bare ← readWay { home := home } home
  let given ← readPaths bare (givenPaths bare call)
  match manifestFor given call.settings with
  | .ok manifest => readPaths given (derivedPaths manifest call)
  | .error _ => return given

/-- Writes a file. -/
def writeNode (location : Location) (node : Node) : IO Unit := do
  let path := Path.ofParts true location
  IO.FS.createDirAll (Path.ofParts true location.dropLast)
  match node with
  | .directory => IO.FS.createDirAll path
  | .file content => IO.FS.writeBinFile path ⟨content.toArray⟩
  | .archive rows => IO.FS.writeFile path rows.render

/-- Writes the files that differ from what they were. -/
def writeBack (before after : Disk) : IO Unit :=
  after.entries.forM fun (location, node) => do
    if before.node? location != some node then writeNode location node

/-- Shows what a command shows, and gives the exit code. -/
def present (result : Result) : IO UInt32 := do
  IO.print result.output
  IO.eprint result.errors
  match result.failure with
  | none => return 0
  | some error =>
    IO.eprintln ("Error: " ++ error.message)
    return 1

/-- Builds watched sources again when their contents change. -/
partial def keepWatching (home : Location) (call : Call) (known : Disk) : IO Unit := do
  IO.sleep 100
  let current ← gather home call
  let edit : Edit := call.arguments.filterMap fun source =>
    match current.read source, known.read source with
    | .ok content, .ok earlier => if content = earlier then none else some (source, content)
    | .ok content, .error _ => some (source, content)
    | .error _, _ => none
  if let .ok manifest := manifestFor current call.settings then
    let (built, report) :=
      follow (buildManifest manifest call.settings) call.arguments (current, "") edit
    IO.eprint report
    writeBack current built
  keepWatching home call current

/-- Carries out a command line in a directory. -/
def runIn (home : Location) (words : List String) : IO UInt32 := do
  match interpret words with
  | .ok (.call call) =>
    let disk ← gather home call
    let now ← Std.Time.Timestamp.now
    let result := runCall disk { now := now.toSecondsSinceUnixEpoch.toInt } call
    writeBack disk result.disk
    let code ← present result
    if call.verb = .watch && result.failure.isNone then keepWatching home call result.disk
    return code
  | _ => present (runLine { home := home } {} words)

end PlZero.Main

def main (words : List String) : IO UInt32 := do
  let home := PlZero.Files.Path.parts (toString (← IO.currentDir))
  PlZero.Main.runIn home words

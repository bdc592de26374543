import PlZero.Command.Build
import PlZero.Command.Execute
import PlZero.Command.Usage
import PlZero.Text.Calendar

/-! The commands. Each takes the files as they are and gives them as they then are, with what it shows
and why it failed if it did. Only some paths are looked at, so that only these need to be known of a file
system: first those that tell which manifest holds, then those that a command reads or writes under it. -/

namespace PlZero.Command

open PlZero.Text PlZero.Files PlZero.Machine PlZero.Project PlZero.Source

/-- The version of the program. -/
def programVersion : String := "0.1.0"

/-- Why a command fails. -/
inductive CommandError where
  | usage (error : UsageError)
  | manifest (error : ManifestError)
  | invalidSetting (problem : Problem)
  | unreadable (path : String) (error : FileError)
  | faulty (path : String) (fault : Fault)
  | undecodable (path : String) (error : Artifact.DecodeError)
  | runtime (failure : Failure)
  | store (error : Archive.StoreError)
  | notAllBuilt (failed total : Nat)
  | unwatchable (path : String) (reason : Errno)
  | noDirectory (path : String) (error : FileError)
  deriving DecidableEq, Repr

namespace CommandError

def message : CommandError → String
  | usage error => error.message
  | manifest error => error.message
  | invalidSetting problem => problem.message
  | unreadable path error => "cannot read " ++ path ++ ": " ++ error.message
  | faulty path fault => path ++ ": " ++ fault.message
  | undecodable path error => path ++ ": " ++ error.message
  | runtime failure => failure.message
  | store error => error.message
  | notAllBuilt failed total =>
    showNat failed ++ " of " ++ showNat total ++ " files failed to compile"
  | unwatchable path reason => "cannot watch " ++ path ++ ": " ++ reason.describe
  | noDirectory path error => "failed to create directory " ++ path ++ ": " ++ error.message

end CommandError

/-- What a command leaves behind and shows. -/
structure Result where
  disk : Disk
  output : String := ""
  errors : String := ""
  failure : Option CommandError := none

namespace Result

/-- A command that fails and shows nothing else. -/
def failing (disk : Disk) (error : CommandError) : Result :=
  { disk := disk, failure := some error }

end Result

/-- What happens around a command: the time in seconds, and the edits while it watches files. -/
structure Surroundings where
  now : Int := 0
  edits : List Edit := []

/-- The manifest with the settings that flags of all commands override. -/
def overridden (manifest : Manifest) (settings : Settings) : Manifest :=
  { manifest with
    verbosity := (settings.count? "verbose").getD manifest.verbosity
    logFile := (settings.text? "log-file").getD manifest.logFile
    cacheEnabled := manifest.cacheEnabled && !settings.isOn "no-cache" }

/-- Whether anything is logged at a verbosity. -/
def isLogging (verbosity : Int) : Bool :=
  -4 < verbosity

/-- The disk with the log file of a project. -/
def startLog (disk : Disk) (manifest : Manifest) : Disk :=
  if manifest.fullLogFile = "" || !isLogging manifest.verbosity then disk
  else (disk.create manifest.fullLogFile []).toOption.getD disk

/-- The manifest for building, with the settings that flags override. -/
def buildManifest (manifest : Manifest) (settings : Settings) : Manifest :=
  { manifest with
    outputDir := (settings.text? "output").getD manifest.outputDir
    format := (settings.text? "format").getD manifest.format }

/-- Shows the tokens of a source file. -/
def runTokens (disk : Disk) (path : String) : Result :=
  match disk.read path with
  | .error error => .failing disk (.unreadable path error)
  | .ok text =>
    match tokenize text with
    | .error fault => .failing disk (.faulty path fault)
    | .ok tokens => { disk := disk, output := dump tokens }

/-- Builds source files, and shows a listing of each if asked to. -/
def runCompile (disk : Disk) (manifest : Manifest) (settings : Settings) (sources : List String) :
    Result :=
  let chosen := buildManifest manifest settings
  match chosen.problem? with
  | some problem => .failing disk (.invalidSetting problem)
  | none =>
    let (done, results) := buildAll disk chosen sources
    let errors := results.filterMap fun result =>
      match result.outcome with
      | .error error => some (result.source ++ ": " ++ error.message ++ "\n")
      | .ok _ => none
    let listings := results.filterMap fun result =>
      match result.outcome with
      | .ok code => some (Listing.render result.source code)
      | .error _ => none
    { disk := done
      output := if settings.isOn "listing" then String.join listings else ""
      errors := String.join errors
      failure :=
        if errors.isEmpty then none else some (.notAllBuilt errors.length results.length) }

/-- The result of running a program. -/
def ofReport (disk : Disk) (report : RunReport) : Result :=
  { disk := disk, output := report.output, errors := report.errors,
    failure := report.failure.map CommandError.runtime }

/-- Whether a run is traced. -/
def isTraced (manifest : Manifest) (settings : Settings) : Bool :=
  (settings.switch? "trace").getD manifest.trace

/-- Runs an artifact. -/
def runArtifact (disk : Disk) (manifest : Manifest) (settings : Settings) (path : String) :
    Result :=
  match disk.read path with
  | .error error => .failing disk (.unreadable path error)
  | .ok bytes =>
    match Artifact.decode bytes with
    | .error error => .failing disk (.undecodable path error)
    | .ok code => ofReport disk (execute code (isTraced manifest settings))

/-- Compiles and runs a source file. -/
def runSource (disk : Disk) (manifest : Manifest) (settings : Settings) (now : Int)
    (path : String) : Result :=
  match disk.read path with
  | .error error => .failing disk (.unreadable path error)
  | .ok text =>
    match compileCached disk manifest text now with
    | (next, .error fault) => .failing next (.faulty path fault)
    | (next, .ok code) => ofReport next (execute code (isTraced manifest settings))

/-- Builds source files, and again after each edit. -/
def runWatch (disk : Disk) (manifest : Manifest) (settings : Settings) (edits : List Edit)
    (sources : List String) : Result :=
  let chosen := buildManifest manifest settings
  match chosen.problem? with
  | some problem => .failing disk (.invalidSetting problem)
  | none =>
    match unwatchable? disk sources with
    | some (source, reason) => .failing disk (.unwatchable source reason)
    | none =>
      let (done, reports) :=
        edits.foldl (follow chosen sources) (buildReports disk chosen sources)
      { disk := done, errors := reports }

/-- The table of the rows of an archive. -/
def cacheGrid (rows : List Archive.Row) : Grid where
  headings := ["source hash", "version", "instructions", "hits", "created"]
  rows := rows.map fun row =>
    [.text (String.ofList (row.hash.toList.take 16)), .number row.version,
      .number row.instructions, .number row.hits, .text (Calendar.showSecond row.created)]

/-- Shows what is in the cache. -/
def runCacheList (disk : Disk) (manifest : Manifest) : Result :=
  match Archive.openAt disk manifest.fullCachePath with
  | (opened, .error error) => .failing opened (.store error)
  | (opened, .ok store) =>
    match (Archive.Shelf.mk opened store).entries false with
    | .error error => .failing opened (.store error)
    | .ok rows =>
      { disk := opened
        output :=
          (if rows.isEmpty then "" else (cacheGrid rows).render)
            ++ "(" ++ showNat rows.length ++ " entries)\n" }

/-- Empties the cache. -/
def runCacheClear (disk : Disk) (manifest : Manifest) : Result :=
  match Archive.openAt disk manifest.fullCachePath with
  | (opened, .error error) => .failing opened (.store error)
  | (opened, .ok store) =>
    match (Archive.Shelf.mk opened store).clear false with
    | (shelf, .error error) => .failing shelf.disk (.store error)
    | (shelf, .ok count) =>
      { disk := shelf.disk, output := "removed " ++ showNat count ++ " entries\n" }

/-- Writes the default manifest into a directory. -/
def runInit (disk : Disk) (arguments : List String) : Result :=
  let dir := arguments.head?.getD "."
  match disk.ensureDirectories dir with
  | (founded, .error error) => .failing founded (.noDirectory dir error)
  | (founded, .ok _) =>
    match Manifest.write founded dir (.default disk.homePath) with
    | .error error => .failing founded (.manifest error)
    | .ok written => { disk := written, output := "created " ++ Manifest.fileName ++ "\n" }

/-- Carries out a command in a project. -/
def runIn (disk : Disk) (manifest : Manifest) (around : Surroundings) (call : Call) : Result :=
  match call.verb, call.arguments with
  | .tokens, path :: _ => runTokens disk path
  | .compile, sources => runCompile disk manifest call.settings sources
  | .run, path :: _ => runArtifact disk manifest call.settings path
  | .exec, path :: _ => runSource disk manifest call.settings around.now path
  | .watch, sources => runWatch disk manifest call.settings around.edits sources
  | .cacheList, _ => runCacheList disk manifest
  | .cacheClear, _ => runCacheClear disk manifest
  | .version, _ => { disk := disk, output := "plc0 v" ++ programVersion ++ "\n" }
  | _, _ => { disk := disk }

/-- The manifest that holds for a command. -/
def manifestFor (disk : Disk) (settings : Settings) : Except ManifestError Manifest :=
  (Manifest.forProject disk ((settings.text? "project").getD ".")).map fun manifest =>
    overridden manifest settings

/-- Carries out a command; all but `init` and `help` take the project's manifest first. -/
def runCall (disk : Disk) (around : Surroundings) (call : Call) : Result :=
  match call.verb with
  | .help => { disk := disk }
  | .init => runInit disk call.arguments
  | _ =>
    match manifestFor disk call.settings with
    | .error error => .failing disk (.manifest error)
    | .ok manifest => runIn (startLog disk manifest) manifest around call

/-- Carries out a command line. -/
def runLine (disk : Disk) (around : Surroundings) (words : List String) : Result :=
  match interpret words with
  | .error error => .failing disk (.usage error)
  | .ok (.help _) => { disk := disk }
  | .ok .version =>
    { disk := disk, output := "plc0 version " ++ programVersion ++ "\n" }
  | .ok (.call call) => runCall disk around call

/-- The paths of the arguments and of the manifests that may hold. -/
def givenPaths (disk : Disk) (call : Call) : List String :=
  let project := disk.absolute ((call.settings.text? "project").getD ".")
  let started := call.arguments.map Manifest.pathIn
  (Manifest.upward (Path.parts project)).map Manifest.pathIn ++ call.arguments
    ++ (if call.verb = .init then Manifest.pathIn "." :: started else [])

/-- The paths that a manifest adds: the cache, the log and the artifacts. -/
def derivedPaths (manifest : Manifest) (call : Call) : List String :=
  let chosen := buildManifest manifest call.settings
  let cache := (Archive.Address.read? manifest.fullCachePath).bind Archive.Address.path
  ([manifest.fullCachePath, manifest.fullLogFile] ++ cache.toList).filter (fun path => path != "")
    ++ call.arguments.map (artifactPath chosen)

end PlZero.Command

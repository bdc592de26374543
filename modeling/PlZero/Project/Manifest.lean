import PlZero.Machine.Format
import PlZero.Text.LetterCase
import PlZero.Toml.Builder

/-! The configuration of a project: what a manifest says, how it is written as TOML and taken from it,
and what is checked. Paths in it are relative to the directory of the manifest. -/

namespace PlZero.Project

open PlZero.Text PlZero.Files PlZero.Machine PlZero.Toml

structure Manifest where
  format : String := ""
  outputDir : String := ""
  trace : Bool := false
  verbosity : Int := 0
  logFile : String := ""
  cacheEnabled : Bool := false
  cachePath : String := ""
  dir : String := ""
  deriving DecidableEq, Repr

/-- What a manifest must not say. -/
inductive Problem where
  | unknownFormat (format : String)
  | negativeVerbosity (verbosity : Int)
  deriving DecidableEq, Repr

namespace Problem

def message : Problem → String
  | unknownFormat format =>
    "build.format: unknown format " ++ quote format ++ " (want " ++ quote Artifact.textFormat
      ++ " or " ++ quote Artifact.binaryFormat ++ ")"
  | negativeVerbosity verbosity =>
    "log.verbosity: must not be negative, got " ++ showInt verbosity

end Problem

namespace Manifest

/-- The name of a manifest's file. -/
def fileName : String := "plc0.toml"

/-- Where the cache is unless the manifest says otherwise. -/
def defaultCachePath : String := ".plc0/cache.db"

/-- The manifest before a file is read into it. -/
def blank : Manifest := { cacheEnabled := true }

/-- Fills in what was left empty. -/
def withDefaults (manifest : Manifest) : Manifest :=
  { manifest with
    format := if manifest.format = "" then Artifact.textFormat else manifest.format
    cachePath := if manifest.cachePath = "" then defaultCachePath else manifest.cachePath }

/-- The manifest of a directory without one. -/
def default (dir : String) : Manifest :=
  { blank.withDefaults with dir := dir }

/-- The first thing that is wrong with a manifest. -/
def problem? (manifest : Manifest) : Option Problem :=
  if !Artifact.isFormat manifest.format then some (.unknownFormat manifest.format)
  else if manifest.verbosity < 0 then some (.negativeVerbosity manifest.verbosity)
  else none

/-- A path of the manifest, seen from its directory; an empty one stays empty. -/
def resolve (manifest : Manifest) (path : String) : String :=
  if path = "" || Path.isAbsolute path then path else Path.join [manifest.dir, path]

/-- Where artifacts go; if empty, next to their sources. -/
def fullOutputDir (manifest : Manifest) : String :=
  manifest.resolve manifest.outputDir

/-- Where the cache is. -/
def fullCachePath (manifest : Manifest) : String :=
  manifest.resolve manifest.cachePath

/-- Where the log goes, if it goes to a file. -/
def fullLogFile (manifest : Manifest) : String :=
  manifest.resolve manifest.logFile

def string? : Value → Option String
  | .string text => some text
  | _ => none

def boolean? : Value → Option Bool
  | .boolean value => some value
  | _ => none

def integer? : Value → Option Int
  | .integer value => some value
  | _ => none

def table? : Value → Option Table
  | .table entries => some entries
  | _ => none

/-- Takes a value for a setting of a section, whose names are compared without regard to case.
Settings that are not known are passed over. -/
def set? (part : String) (manifest : Manifest) (entry : String × Value) : Option Manifest :=
  match part, fold entry.1 with
  | "build", "format" => (string? entry.2).map fun value => { manifest with format := value }
  | "build", "output-dir" => (string? entry.2).map fun value => { manifest with outputDir := value }
  | "run", "trace" => (boolean? entry.2).map fun value => { manifest with trace := value }
  | "log", "verbosity" => (integer? entry.2).map fun value => { manifest with verbosity := value }
  | "log", "file" => (string? entry.2).map fun value => { manifest with logFile := value }
  | "cache", "enabled" =>
    (boolean? entry.2).map fun value => { manifest with cacheEnabled := value }
  | "cache", "path" => (string? entry.2).map fun value => { manifest with cachePath := value }
  | _, _ => some manifest

/-- The sections of a manifest. -/
def sections : List String := ["build", "run", "log", "cache"]

/-- Takes the settings of a section; sections that are not known are passed over. -/
def setSection? (manifest : Manifest) (entry : String × Value) : Option Manifest :=
  let name := fold entry.1
  if sections.contains name then do
    (← table? entry.2).foldlM (set? name) manifest
  else some manifest

/-- The manifest that a text says, if it is well-formed and its settings are of the right kinds. -/
def parse? (text : Bytes) : Option Manifest := do
  (← Toml.read? text).foldlM setSection? blank

def writeBoolean (value : Bool) : String :=
  if value then "true" else "false"

/-- The text of a manifest: all settings in their sections, whatever their values. -/
def render (manifest : Manifest) : String :=
  "[build]\n  format = " ++ writeString manifest.format
    ++ "\n  output-dir = " ++ writeString manifest.outputDir
    ++ "\n\n[run]\n  trace = " ++ writeBoolean manifest.trace
    ++ "\n\n[log]\n  verbosity = " ++ showInt manifest.verbosity
    ++ "\n  file = " ++ writeString manifest.logFile
    ++ "\n\n[cache]\n  enabled = " ++ writeBoolean manifest.cacheEnabled
    ++ "\n  path = " ++ writeString manifest.cachePath ++ "\n"

end Manifest

end PlZero.Project

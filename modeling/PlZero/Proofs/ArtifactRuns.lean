import PlZero.Proofs.BinaryForm
import PlZero.Proofs.CompilerCorrectness
import PlZero.Proofs.Drafts
import PlZero.Proofs.Spelling
import PlZero.Proofs.TextForm

/-! Building an artifact and running it, beside running the source. Compiled code survives the text form
whatever its length, and the binary form up to the size that is read back. Main statement: where the
code survives, both ways show the same and fail the same; where it does not, the artifact is written all
the same and running it fails. -/

namespace PlZero.Machine.Artifact

open PlZero.Text

/-- The name of an opcode does not start as the magic word does. -/
theorem isBinary_opcodeName (opcode : UInt8) (rest : Bytes) :
    isBinary (encodeChars (opcodeName opcode).toList ++ rest) = false := by
  cases hoperation : Operation.ofOpcode? opcode with
  | some operation =>
      rw [opcodeName_of_known hoperation]
      cases operation <;> rfl
  | none =>
      rw [opcodeName_of_unknown hoperation]
      rfl

/-- The text form is never taken for the binary one. -/
theorem isBinary_render (code : Code) : isBinary (Text.encode (Assembly.render code)) = false := by
  rw [Assembly.encode_render]
  cases code with
  | nil => rfl
  | cons instruction rest =>
      rw [List.map_cons, List.flatMap_cons, Assembly.lineOf, Text.encode, instruction.toList_render,
        List.append_assoc]
      split
      · rw [encodeChars_append, List.append_assoc]
        exact isBinary_opcodeName _ _
      · exact isBinary_opcodeName _ _

/-- The code is longer than an artifact in the format gives back. -/
def Exceeds (format : String) (code : Code) : Prop :=
  format = binaryFormat ∧ 131072 < code.length

instance (format : String) (code : Code) : Decidable (Exceeds format code) :=
  inferInstanceAs (Decidable (_ ∧ _))

theorem decode_binary (code : Code) :
    decode (binary code) = if code.length ≤ Cbor.sizeLimit then .ok code else .error .malformed := by
  have hmagic : isBinary (binary code) = true := by
    rw [binary_eq]
    rfl
  rw [decode, if_pos hmagic, readBinary_binary]

/-- An artifact of code without surplus operands is decoded as the code, unless it exceeds the size
that the binary form gives back. -/
theorem decode_encode {format : String} {code : Code} (hcode : IsPlain code) :
    decode (encode format code) = if Exceeds format code then .error .malformed else .ok code := by
  rw [encode]
  by_cases hformat : format = binaryFormat
  · rw [if_pos hformat, decode_binary]
    by_cases hlength : code.length ≤ Cbor.sizeLimit
    · rw [if_pos hlength, if_neg fun h => Nat.not_le.mpr h.2 hlength]
    · rw [if_neg hlength, if_pos ⟨hformat, Nat.not_le.mp hlength⟩]
  · rw [if_neg hformat, if_neg fun h => hformat h.1, decode, isBinary_render, if_neg (by decide),
      hcode.read_render]

end PlZero.Machine.Artifact

namespace PlZero.Command

open PlZero.Text PlZero.Files PlZero.Machine PlZero.Project PlZero.Source PlZero.Attempt

/-- What a user sees of a command. -/
def Result.shown (result : Result) : String × String × Option CommandError :=
  (result.output, result.errors, result.failure)

theorem Result.failure_of_shown {result : Result} {output errors : String}
    {failure : Option CommandError} (h : result.shown = (output, errors, failure)) :
    result.failure = failure :=
  congrArg (fun shown => shown.2.2) h

/-- What a user sees of a run. -/
def RunReport.shown (report : RunReport) : String × String × Option CommandError :=
  (report.output, report.errors, report.failure.map CommandError.runtime)

section Building

variable {disk : Disk} {source : String} {text : Bytes} {code : Code}
  (hread : disk.read source = .ok text) (hcompile : compile text = .ok code)

include hread hcompile

theorem buildAll_singleton (manifest : Manifest) : buildAll disk manifest [source] =
    let written := writeWhole disk (artifactPath manifest source) (Artifact.encode manifest.format code)
    (written.1, [⟨source, written.2.map fun _ => code⟩]) := by
  simp only [buildAll, build, hread, hcompile]

theorem runCompile_of_written {manifest : Manifest} {settings : Settings} {written : Disk}
    (hproblem : (buildManifest manifest settings).problem? = none)
    (hlisting : settings.isOn "listing" = false)
    (hwritten : writeWhole disk (artifactPath (buildManifest manifest settings) source)
      (Artifact.encode (buildManifest manifest settings).format code) = (written, .ok ())) :
    runCompile disk manifest settings [source] = { disk := written } := by
  simp only [runCompile, hproblem, buildAll_singleton hread hcompile, hwritten, hlisting]
  rfl

/-- The artifact of a build without failure is on the disk, in a format that there is. -/
theorem read_runCompile {manifest : Manifest} {settings : Settings}
    (h : (runCompile disk manifest settings [source]).failure = none) :
    (runCompile disk manifest settings [source]).disk.read
        (artifactPath (buildManifest manifest settings) source) =
      .ok (Artifact.encode (buildManifest manifest settings).format code) := by
  rw [runCompile] at h ⊢
  generalize buildManifest manifest settings = chosen at h ⊢
  dsimp only at h ⊢
  cases hproblem : chosen.problem? with
  | some problem =>
      rw [hproblem] at h
      cases h
  | none =>
      rw [hproblem] at h
      have hformat : Artifact.isFormat chosen.format = true := by
        rw [Manifest.problem?] at hproblem
        split at hproblem
        · cases hproblem
        · next hformat => simpa using hformat
      rw [buildAll_singleton hread hcompile] at h ⊢
      cases hwritten : writeWhole disk (artifactPath chosen source)
          (Artifact.encode chosen.format code) with
      | mk written outcome =>
          rw [hwritten] at h
          cases outcome with
          | error error => cases h
          | ok _ => exact read_writeWhole hformat hwritten

end Building

theorem runArtifact_shown {disk : Disk} {path : String} {format : String} {code : Code}
    (hcode : IsPlain code) (hread : disk.read path = .ok (Artifact.encode format code))
    (manifest : Manifest) (settings : Settings) :
    (runArtifact disk manifest settings path).shown =
      if Artifact.Exceeds format code then ("", "", some (.undecodable path .malformed))
      else (execute code (isTraced manifest settings)).shown := by
  rw [runArtifact, hread]
  dsimp only
  rw [Artifact.decode_encode hcode]
  by_cases hexceeds : Artifact.Exceeds format code
  · rw [if_pos hexceeds, if_pos hexceeds]
    rfl
  · rw [if_neg hexceeds, if_neg hexceeds]
    rfl

theorem runSource_shown {disk : Disk} {source : String} {text : Bytes} {code : Code}
    (hread : disk.read source = .ok text) (hcompile : compile text = .ok code) {manifest : Manifest}
    (hcache : manifest.cacheEnabled = false) (settings : Settings) (now : Int) :
    (runSource disk manifest settings now source).shown =
      (execute code (isTraced manifest settings)).shown := by
  rw [runSource, hread]
  dsimp only
  rw [compileCached, hcache, if_neg (by decide), hcompile]
  rfl

/-- The settings of a command that is told to leave the cache alone. -/
def withoutCache (settings : Settings) : Settings :=
  ("no-cache", .switch true) :: settings

theorem lookup_withoutCache (settings : Settings) {name : String} (h : name ≠ "no-cache") :
    (withoutCache settings).lookup name = settings.lookup name := by
  rw [withoutCache, List.lookup_cons, beq_false_of_ne h]

theorem overridden_withoutCache (manifest : Manifest) (settings : Settings) :
    overridden manifest (withoutCache settings) =
      { overridden manifest settings with cacheEnabled := false } := by
  have hverbose : (withoutCache settings).count? "verbose" = settings.count? "verbose" := by
    rw [Settings.count?, lookup_withoutCache settings (by decide), Settings.count?]
  have hlog : (withoutCache settings).text? "log-file" = settings.text? "log-file" := by
    rw [Settings.text?, lookup_withoutCache settings (by decide), Settings.text?]
  have hcache : (withoutCache settings).isOn "no-cache" = true := rfl
  rw [overridden, overridden, hverbose, hlog, hcache, Bool.not_true, Bool.and_false]

/-- Leaving the cache alone changes nothing else of the manifest that holds. -/
theorem manifestFor_withoutCache (disk : Disk) (settings : Settings) :
    manifestFor disk (withoutCache settings) =
      (manifestFor disk settings).map fun manifest => { manifest with cacheEnabled := false } := by
  have hproject : (withoutCache settings).text? "project" = settings.text? "project" := by
    rw [Settings.text?, lookup_withoutCache settings (by decide), Settings.text?]
  rw [manifestFor, manifestFor, hproject]
  generalize Manifest.forProject disk ((settings.text? "project").getD ".") = found
  cases found with
  | error error => rfl
  | ok manifest => exact congrArg Except.ok (overridden_withoutCache manifest settings)

theorem isTraced_withoutCache (manifest : Manifest) (settings : Settings) :
    isTraced { manifest with cacheEnabled := false } (withoutCache settings) =
      isTraced manifest settings := by
  rw [isTraced, Settings.switch?, lookup_withoutCache settings (by decide), isTraced,
    Settings.switch?]

/-- Every command but two takes the manifest of the project first. -/
theorem runCall_eq {verb : Verb} (hhelp : verb ≠ .help) (hinit : verb ≠ .init) (disk : Disk)
    (around : Surroundings) (settings : Settings) (arguments : List String) :
    runCall disk around ⟨verb, settings, arguments⟩ =
      match manifestFor disk settings with
      | .error error => .failing disk (.manifest error)
      | .ok manifest => runIn (startLog disk manifest) manifest around ⟨verb, settings, arguments⟩ := by
  rw [runCall]
  -- How a manifest is found plays no part, only whether one is.
  generalize manifestFor disk settings = found
  split
  · next hverb => exact absurd hverb hhelp
  · next hverb => exact absurd hverb hinit
  · cases found <;> rfl

theorem runCall_shown_of_error {verb : Verb} (hhelp : verb ≠ .help) (hinit : verb ≠ .init)
    {disk : Disk} {settings : Settings} {error : ManifestError}
    (h : manifestFor disk settings = .error error) (around : Surroundings) (arguments : List String) :
    (runCall disk around ⟨verb, settings, arguments⟩).shown = ("", "", some (.manifest error)) := by
  rw [runCall_eq hhelp hinit, h]
  rfl

section Calls

variable {disk : Disk} {source : String} {text : Bytes} {code : Code} {settings : Settings}
  {project : Manifest} (hproject : manifestFor disk settings = .ok project)

include hproject

theorem runCall_of_manifestFor {verb : Verb} (hhelp : verb ≠ .help) (hinit : verb ≠ .init)
    (arguments : List String) (around : Surroundings) :
    runCall disk around ⟨verb, settings, arguments⟩ =
      runIn (startLog disk project) project around ⟨verb, settings, arguments⟩ := by
  rw [runCall_eq hhelp hinit, hproject]

theorem runCall_compile (sources : List String) (around : Surroundings) :
    runCall disk around ⟨.compile, settings, sources⟩ =
      runCompile (startLog disk project) project settings sources :=
  runCall_of_manifestFor hproject (by decide) (by decide) sources around

theorem read_runCall_compile (hread : disk.read source = .ok text) (hcompile : compile text = .ok code)
    {around : Surroundings}
    (hbuilt : (runCall disk around ⟨.compile, settings, [source]⟩).failure = none) :
    (runCall disk around ⟨.compile, settings, [source]⟩).disk.read
        (artifactPath (buildManifest project settings) source) =
      .ok (Artifact.encode (buildManifest project settings).format code) := by
  rw [runCall_compile hproject] at hbuilt ⊢
  exact read_runCompile (read_startLog project hread) hcompile hbuilt

theorem runCall_run_shown {path format : String} (hcode : IsPlain code)
    (hread : disk.read path = .ok (Artifact.encode format code)) (around : Surroundings) :
    (runCall disk around ⟨.run, settings, [path]⟩).shown =
      if Artifact.Exceeds format code then ("", "", some (.undecodable path .malformed))
      else (execute code (isTraced project settings)).shown := by
  rw [runCall_of_manifestFor hproject (by decide) (by decide)]
  exact runArtifact_shown hcode (read_startLog project hread) project settings

theorem runCall_exec_shown (hread : disk.read source = .ok text) (hcompile : compile text = .ok code)
    (around : Surroundings) :
    (runCall disk around ⟨.exec, withoutCache settings, [source]⟩).shown =
      (execute code (isTraced project settings)).shown := by
  have huncached : manifestFor disk (withoutCache settings) =
      .ok { project with cacheEnabled := false } := by
    rw [manifestFor_withoutCache, hproject]
    rfl
  rw [runCall_of_manifestFor huncached (by decide) (by decide), ← isTraced_withoutCache]
  exact runSource_shown (read_startLog _ hread) hcompile rfl (withoutCache settings) around.now

end Calls

theorem isPlain_of_compile {text : Bytes} {code : Code} (h : compile text = .ok code) :
    IsPlain code := by
  obtain ⟨tree, -, -, rfl⟩ := compile_sound h
  exact tree.isPlain

/-- A source that compiles is built in the project's format; then the artifact is run, and on the disk
as it was the source is run without a cache, with the same settings otherwise; building leaves the
manifest of the project as it was. If the code does not exceed what the format gives back, the artifact
is decoded as the code, and the two runs show the same output and errors and fail the same. Code that
exceeds it is built without failure, but not decoded, and the run of the artifact says so. -/
theorem run_artifact_eq_exec (disk : Disk) (source : String) (text : Bytes) (code : Code)
    (manifest : Manifest) (building running : Settings) (first second third : Surroundings)
    (hread : disk.read source = .ok text) (hcompile : compile text = .ok code)
    (hmanifest : manifestFor disk building = .ok manifest)
    (hbuilt : (runCall disk first ⟨.compile, building, [source]⟩).failure = none)
    (hproject : manifestFor (runCall disk first ⟨.compile, building, [source]⟩).disk running =
      manifestFor disk running) :
    let format := (buildManifest manifest building).format
    let path := artifactPath (buildManifest manifest building) source
    let built := runCall disk first ⟨.compile, building, [source]⟩
    let ran := runCall built.disk second ⟨.run, running, [path]⟩
    let executed := runCall disk third ⟨.exec, withoutCache running, [source]⟩
    (¬Artifact.Exceeds format code →
      Artifact.decode (Artifact.encode format code) = .ok code ∧ ran.shown = executed.shown) ∧
    (Artifact.Exceeds format code →
      Artifact.decode (Artifact.encode format code) = .error .malformed ∧
        ∀ project, manifestFor disk running = .ok project →
          ran.shown = ("", "", some (.undecodable path .malformed)) ∧
            executed.shown = (execute code (isTraced project running)).shown) := by
  intro format path built ran executed
  -- All that the two runs need is that compiled code is plain and that the artifact is on the disk.
  have hplain := isPlain_of_compile hcompile
  have hdecode : Artifact.decode (Artifact.encode format code) = _ := Artifact.decode_encode hplain
  have hartifact := read_runCall_compile hmanifest hread hcompile hbuilt
  have hexecuted {project : Manifest} (hfound : manifestFor disk running = .ok project) :=
    runCall_exec_shown hfound hread hcompile third
  have hran {project : Manifest} (hfound : manifestFor disk running = .ok project) :=
    runCall_run_shown (hproject.trans hfound) hplain hartifact second
  refine ⟨fun hfits => ⟨?_, ?_⟩, fun hexceeds => ⟨?_, fun project hfound => ⟨?_, hexecuted hfound⟩⟩⟩
  · rw [hdecode, if_neg hfits]
  · cases hfound : manifestFor disk running with
    | ok project => exact (hran hfound).trans ((if_neg hfits).trans (hexecuted hfound).symm)
    | error error =>
        -- Without a manifest neither of the two gets to a program.
        have hran : ran.shown = ("", "", some (.manifest error)) :=
          runCall_shown_of_error (by decide) (by decide) (hproject.trans hfound) second [path]
        have huncached : manifestFor disk (withoutCache running) = .error error := by
          rw [manifestFor_withoutCache, hfound]
          rfl
        have hexecuted : executed.shown = ("", "", some (.manifest error)) :=
          runCall_shown_of_error (by decide) (by decide) huncached third [source]
        rw [hran, hexecuted]
  · rw [hdecode, if_pos hexceeds]
  · exact (hran hfound).trans (if_pos hexceeds)

/-! ### Two programs -/

theorem manifestFor_root {disk : Disk} {settings : Settings} (hhome : disk.home = [])
    (hproject : settings.text? "project" = none) (hnone : disk.node? [Manifest.fileName] = none) :
    manifestFor disk settings = .ok (overridden (.default "/") settings) := by
  have habsolute : disk.absolute "." = "/" := by
    rw [Disk.absolute, Disk.homePath, hhome]
    decide +kernel
  have htop : Path.parent "/" = "/" := by decide
  have hpath : Manifest.pathIn "/" = "/plc0.toml" := by decide +kernel
  have hplace : disk.place "/plc0.toml" = .ok [Manifest.fileName] := by
    have hparts : Path.parts "/plc0.toml" = [Manifest.fileName] := by decide +kernel
    rw [Disk.place, if_neg (by decide), if_neg (by decide), if_neg (by decide), if_pos (by decide),
      hparts]
    rfl
  have hhas : disk.has (Manifest.pathIn "/") = false := by
    rw [hpath, Disk.has, Disk.find, hplace, ok_bind, hnone]
    rfl
  have hfind : Manifest.find disk "." = .ok none := by
    rw [Manifest.find, habsolute, Manifest.climb, if_neg (Bool.eq_false_iff.mp hhas), dif_pos htop]
  rw [manifestFor, hproject, Option.getD_none, Manifest.forProject, hfind, ok_bind]
  dsimp only
  rw [habsolute]
  rfl

/-- A disk with one source file and nothing else. -/
def loneSource (text : Bytes) : Disk :=
  { entries := [(["p.plc0"], .file text)] }

/-- Builds in the binary form. -/
def binarySettings : Settings :=
  [("format", .text Artifact.binaryFormat)]

/-- Runs with a trace. -/
def tracingSettings : Settings :=
  [("trace", .switch true)]

/-- The disk behind a build of the one source. -/
def besideSource (text : Bytes) (code : Code) : Disk :=
  (loneSource text).put ["p.bin"] (.file (Artifact.binary code))

theorem manifestFor_lone (text : Bytes) (settings : Settings)
    (hproject : settings.text? "project" = none) :
    manifestFor (loneSource text) settings = .ok (overridden (.default "/") settings) :=
  manifestFor_root rfl hproject rfl

theorem manifestFor_beside (text : Bytes) (code : Code) :
    manifestFor (besideSource text code) tracingSettings =
      manifestFor (loneSource text) tracingSettings :=
  (manifestFor_root rfl rfl rfl).trans (manifestFor_root rfl rfl rfl).symm

theorem read_lone (text : Bytes) : (loneSource text).read "p.plc0" = .ok text := rfl

theorem artifactPath_lone : artifactPath
    (buildManifest (overridden (.default "/") binarySettings) binarySettings) "p.plc0" = "p.bin" := by
  decide +kernel

theorem runCall_compile_lone {text : Bytes} {code : Code} (hcompile : compile text = .ok code) :
    runCall (loneSource text) {} ⟨.compile, binarySettings, ["p.plc0"]⟩ =
      { disk := besideSource text code } := by
  have hlog : (overridden (.default "/") binarySettings).fullLogFile = "" := by decide +kernel
  have hproblem : (buildManifest (overridden (.default "/") binarySettings) binarySettings).problem? =
      none := by decide +kernel
  have hwritten : writeWhole (loneSource text) "p.bin" (Artifact.binary code) =
      (besideSource text code, .ok ()) := rfl
  have hstart : startLog (loneSource text) (overridden (.default "/") binarySettings) =
      loneSource text :=
    if_pos (Bool.or_eq_true_iff.mpr (.inl (decide_eq_true hlog)))
  rw [runCall_compile (manifestFor_lone text binarySettings rfl), hstart]
  refine runCompile_of_written (read_lone text) hcompile hproblem rfl ?_
  rw [artifactPath_lone]
  exact hwritten

/-- A text that prints a number and then divides by zero. -/
def faultingText : Bytes :=
  "begin var a=6; print(a); print(a/0); end".toUTF8.toList

def faultingCode : Code :=
  [.of .literal 6, .of .load 0, .of .write, .of .load 0, .of .literal 0, .of .divide, .of .write]

theorem run_artifact_eq_exec_faulting :
    compile faultingText = .ok faultingCode ∧
      ¬Artifact.Exceeds Artifact.binaryFormat faultingCode ∧
      (runCall (besideSource faultingText faultingCode) {} ⟨.run, tracingSettings, ["p.bin"]⟩).shown =
        (runCall (loneSource faultingText) {}
          ⟨.exec, withoutCache tracingSettings, ["p.plc0"]⟩).shown := by
  have hcompile : compile faultingText = .ok faultingCode := by cbv
  have hfits : ¬Artifact.Exceeds Artifact.binaryFormat faultingCode := by decide
  have hbuilt := runCall_compile_lone hcompile
  have hruns := run_artifact_eq_exec (loneSource faultingText) "p.plc0" faultingText faultingCode
    (overridden (.default "/") binarySettings) binarySettings tracingSettings {} {} {}
    (read_lone faultingText) hcompile (manifestFor_lone _ _ rfl) (by rw [hbuilt])
    (by rw [hbuilt]; exact manifestFor_beside _ _)
  rw [hbuilt, artifactPath_lone] at hruns
  exact ⟨hcompile, hfits, (hruns.1 hfits).2⟩

/-- Statements that print zero, as many as asked for. -/
def printing (count : Nat) : Block :=
  ⟨[], [], (List.range count).map fun _ => .print (.literal 0)⟩

/-- The text of these statements. -/
def printingText (count : Nat) : Bytes :=
  encodeChars (Spelling.enclose [] [] ((List.range count).flatMap fun _ =>
    [(['p', 'r', 'i', 'n', 't'], .printWord), (['('], .openParen), (['0'], .integer 0),
      ([')'], .closeParen), ([';'], .semicolon)])).text

theorem isTreeOf_printing (count : Nat) : IsTreeOf (printingText count) (printing count) := by
  refine Spelling.isTreeOf_text (.enclose Spelling.isValid_nil Spelling.isValid_nil ?_)
    (Spelling.blockPhrase_enclose .nil .nil ?_)
  · refine Spelling.isValid_flatMap fun _ _ => ?_
    simp only [Spelling.IsValid, List.forall_mem_cons, List.not_mem_nil, false_imp_iff, implies_true,
      and_true]
    exact ⟨.word rfl rfl, .mark rfl, .number (by decide) rfl (by decide), .mark rfl, .mark rfl⟩
  · exact Spelling.sequence_flatMap fun _ _ => .print (.single (.lone (.unsigned (.literal 0))))

theorem wellNamed_printing (count : Nat) : (printing count).WellNamed := by
  refine ⟨List.nodup_nil, ?_, ?_, ?_⟩
  · intro before declared after value hvars
    cases before <;> cases hvars
  · intro target value hmem
    obtain ⟨_, -, hprint⟩ := List.mem_map.mp hmem
    cases hprint
  · intro before statement after hsplit used hused
    have hmem : statement ∈ (printing count).statements := by
      rw [hsplit]
      simp
    obtain ⟨_, -, rfl⟩ := List.mem_map.mp hmem
    cases hused

theorem compile_printing (count : Nat) : compile (printingText count) = .ok (printing count).code :=
  (isTreeOf_printing count).compile (wellNamed_printing count)

theorem code_printing (count : Nat) : (printing count).code =
    (List.replicate count [Instruction.of .literal 0, .of .write]).flatten := by
  simp [printing, Block.code, Statement.code, Expression.code, List.flatMap_def]

theorem length_printing (count : Nat) : (printing count).code.length = 2 * count := by
  rw [code_printing, List.length_flatten, List.map_replicate, List.sum_replicate, smul_eq_mul,
    mul_comm]
  rfl

theorem advance_printing (count : Nat) {progress : Progress} (hstack : progress.stack = #[])
    (hsink : progress.sink = .endless) :
    ∃ after, progress.advance (printing count).code = .ok after := by
  rw [code_printing]
  induction count generalizing progress with
  | zero => exact ⟨progress, rfl⟩
  | succ count ih =>
      have hstatement : progress.advance [.of .literal 0, .of .write] =
          .ok ((progress.proceed #[0]).proceedPrinting 0 #[] .endless) := by
        obtain ⟨next, stack, sink, printed, marks⟩ := progress
        cases hstack
        cases hsink
        rfl
      rw [List.replicate_succ, List.flatten_cons, Progress.advance_append, hstatement, ok_bind]
      exact ih rfl rfl

theorem execute_printing (count : Nat) (trace : Bool) :
    (execute (printing count).code trace).failure = none := by
  have hadvance : ∃ after, Progress.advance { sink := .endless } (printing count).code = .ok after :=
    advance_printing count rfl rfl
  have hrun : (run (printing count).code).failure? = none := by
    obtain ⟨after, hafter⟩ := hadvance
    rw [run, execute_eq_outcome_advance, hafter]
    rfl
  rw [execute, hrun]

theorem runCall_run_beside {text : Bytes} {code : Code} (hcompile : compile text = .ok code)
    (hexceeds : Artifact.Exceeds Artifact.binaryFormat code) :
    (runCall (besideSource text code) {} ⟨.run, tracingSettings, ["p.bin"]⟩).failure =
      some (.undecodable "p.bin" .malformed) := by
  have hread : (besideSource text code).read "p.bin" =
      .ok (Artifact.encode Artifact.binaryFormat code) := rfl
  have hproject := manifestFor_lone text tracingSettings rfl
  have hshown := runCall_run_shown ((manifestFor_beside text code).trans hproject)
    (isPlain_of_compile hcompile) hread {}
  exact Result.failure_of_shown (hshown.trans (if_pos hexceeds))

theorem runCall_exec_lone {text : Bytes} {code : Code} (hcompile : compile text = .ok code)
    (hfailure : ∀ trace, (execute code trace).failure = none) :
    (runCall (loneSource text) {} ⟨.exec, withoutCache tracingSettings, ["p.plc0"]⟩).failure =
      none := by
  have hproject := manifestFor_lone text tracingSettings rfl
  have hshown := runCall_exec_shown hproject (read_lone text) hcompile {}
  rw [RunReport.shown, hfailure] at hshown
  exact Result.failure_of_shown hshown

/-- A source that runs without failure, and whose artifact is built without failure, but whose artifact
does not run: its code is too long for the binary form. -/
theorem run_artifact_printing :
    compile (printingText 65537) = .ok (printing 65537).code ∧
      let source := loneSource (printingText 65537)
      let built := runCall source {} ⟨.compile, binarySettings, ["p.plc0"]⟩
      built.failure = none ∧
        (runCall source {} ⟨.exec, withoutCache tracingSettings, ["p.plc0"]⟩).failure = none ∧
        (runCall built.disk {} ⟨.run, tracingSettings, ["p.bin"]⟩).failure =
          some (.undecodable "p.bin" .malformed) := by
  have hcompile := compile_printing 65537
  have hexceeds : Artifact.Exceeds Artifact.binaryFormat (printing 65537).code := by
    refine ⟨rfl, ?_⟩
    rw [length_printing]
    decide
  refine ⟨hcompile, ?_⟩
  intro source built
  have hbuilt : built = _ := runCall_compile_lone hcompile
  refine ⟨by rw [hbuilt], runCall_exec_lone hcompile (execute_printing 65537), ?_⟩
  rw [hbuilt]
  exact runCall_run_beside hcompile hexceeds

end PlZero.Command

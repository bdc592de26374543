import PlZero.Proofs.Drafts
import PlZero.Proofs.SourceHeads

/-! Builds of several sources that work on one disk. A build reads and compiles its source and writes the
artifact later, and other builds may read and write in between. Main statement: when no artifact goes to
the place of a source and different artifacts go to different places, each build that comes to code
leaves its source alone and has its artifact in place in the end, in whatever order the builds take their
steps; and builds that all do so kept apart. -/

namespace PlZero.Command

open PlZero.Text PlZero.Files PlZero.Machine PlZero.Project PlZero.Source PlZero.Attempt

/-- Reads and compiles a source file. -/
def loadSource (disk : Disk) (source : String) : Except BuildError Code := do
  let text ← (disk.read source).mapError .unreadable
  (compile text).mapError .faulty

/-- Writes the artifact of a source that was loaded. -/
def storeArtifact (disk : Disk) (manifest : Manifest) (source : String) :
    Except BuildError Code → Disk × Except BuildError Code
  | .error error => (disk, .error error)
  | .ok code =>
    let (next, result) :=
      writeWhole disk (artifactPath manifest source) (Artifact.encode manifest.format code)
    (next, result.map fun _ => code)

theorem build_eq (disk : Disk) (manifest : Manifest) (source : String) :
    build disk manifest source = storeArtifact disk manifest source (loadSource disk source) := by
  rw [build, loadSource]
  cases disk.read source with
  | error error => rfl
  | ok text =>
      cases hcompile : compile text with
      | error fault => simp [hcompile, Except.mapError, storeArtifact]
      | ok code => simp [hcompile, Except.mapError, storeArtifact]

theorem loadSource_eq_ok_iff {disk : Disk} {source : String} {code : Code} :
    loadSource disk source = .ok code ↔
      ∃ text, disk.read source = .ok text ∧ compile text = .ok code := by
  rw [loadSource, bind_eq_ok_iff]
  simp only [mapError_eq_ok_iff]

/-- One half of the build of a source. -/
inductive Half where
  | load (source : String)
  | store (source : String)
  deriving DecidableEq, Repr

def Half.source : Half → String
  | load source => source
  | store source => source

/-- Builds at work: the disk, what the sources that were loaded came to, the latest first, and the
results so far. -/
structure Workshop where
  disk : Disk
  loaded : List (String × Except BuildError Code) := []
  results : List BuildResult := []

namespace Workshop

/-- Carries out one half of a build; nothing is stored of a source that was not loaded. -/
def step (manifest : Manifest) (shop : Workshop) : Half → Workshop
  | .load source =>
    { shop with loaded := (source, loadSource shop.disk source) :: shop.loaded }
  | .store source =>
    match shop.loaded.lookup source with
    | none => shop
    | some outcome =>
      let (next, result) := storeArtifact shop.disk manifest source outcome
      { shop with disk := next, results := shop.results ++ [⟨source, result⟩] }

def run (manifest : Manifest) (shop : Workshop) (halves : List Half) : Workshop :=
  halves.foldl (step manifest) shop

end Workshop

/-- The halves of builds that are carried out one after the other. -/
def inTurn (sources : List String) : List Half :=
  sources.flatMap fun source => [.load source, .store source]

theorem run_inTurn (manifest : Manifest) (sources : List String) (shop : Workshop) :
    (shop.run manifest (inTurn sources)).disk = (buildAll shop.disk manifest sources).1 ∧
      (shop.run manifest (inTurn sources)).results =
        shop.results ++ (buildAll shop.disk manifest sources).2 := by
  induction sources generalizing shop with
  | nil => exact ⟨rfl, (List.append_nil _).symm⟩
  | cons source rest ih =>
      have hbuild : (shop.step manifest (.load source)).step manifest (.store source) =
          { disk := (build shop.disk manifest source).1
            loaded := (source, loadSource shop.disk source) :: shop.loaded
            results := shop.results ++ [⟨source, (build shop.disk manifest source).2⟩] } := by
        simp [Workshop.step, build_eq]
      have hrun : shop.run manifest (inTurn (source :: rest)) =
          Workshop.run manifest ((shop.step manifest (.load source)).step manifest (.store source))
            (inTurn rest) := rfl
      obtain ⟨hdisk, hresults⟩ := ih ((shop.step manifest (.load source)).step manifest (.store source))
      rw [hrun, hdisk, hresults, hbuild]
      exact ⟨rfl, by simp [buildAll]⟩

/-- A build changes no other file than its artifact. -/
theorem changesOnly_build (disk : Disk) (manifest : Manifest) (source : String) :
    Disk.ChangesOnly (· = disk.destination (artifactPath manifest source)) disk
      (build disk manifest source).1 := by
  rw [build_eq]
  cases loadSource disk source with
  | error error => exact .refl _ _
  | ok code =>
      dsimp only [storeArtifact]
      cases hwritten : writeWhole disk (artifactPath manifest source)
          (Artifact.encode manifest.format code) with
      | mk next result =>
          cases result with
          | error error => exact changesOnly_unwritten hwritten _
          | ok _ => exact changesOnly_written hwritten

theorem home_buildAll (disk : Disk) (manifest : Manifest) (sources : List String) :
    (buildAll disk manifest sources).1.home = disk.home := by
  induction sources generalizing disk with
  | nil => rfl
  | cons source rest ih => exact (ih _).trans (changesOnly_build disk manifest source).home

theorem source_buildAll (disk : Disk) (manifest : Manifest) (sources : List String) :
    (buildAll disk manifest sources).2.map BuildResult.source = sources := by
  induction sources generalizing disk with
  | nil => rfl
  | cons source rest ih => exact congrArg (source :: ·) (ih _)

/-! ### Builds that keep apart -/

/-- What the source holds compiles to the code. -/
def Holds (disk : Disk) (source : String) (code : Code) : Prop :=
  ∃ text, disk.contentAt? source = some text ∧ compile text = .ok code

theorem Holds.unique {disk : Disk} {source : String} {code found : Code}
    (hcode : Holds disk source code) (hfound : Holds disk source found) : code = found := by
  obtain ⟨text, htext, hcode⟩ := hcode
  obtain ⟨held, hheld, hfound⟩ := hfound
  obtain rfl := Option.some.inj (htext.symm.trans hheld)
  exact Except.ok.inj (hcode.symm.trans hfound)

/-- Among the sources that compile, no artifact goes to the place of a source, and two artifacts go to
one place only if they are the same. -/
def Apart (disk : Disk) (manifest : Manifest) (sources : List String) : Prop :=
  ∀ source ∈ sources, ∀ other ∈ sources, ∀ code found,
    Holds disk source code → Holds disk other found →
      disk.destination (artifactPath manifest source) ≠ disk.destination other ∧
        (disk.destination (artifactPath manifest source) =
            disk.destination (artifactPath manifest other) →
          Artifact.encode manifest.format code = Artifact.encode manifest.format found)

/-- Sources keep apart when all places are different. -/
theorem apart_of_distinct {disk : Disk} {manifest : Manifest} {sources : List String}
    (h : ∀ source ∈ sources, ∀ other ∈ sources,
      disk.destination (artifactPath manifest source) ≠ disk.destination other ∧
        (disk.destination (artifactPath manifest source) =
          disk.destination (artifactPath manifest other) → source = other)) :
    Apart disk manifest sources := by
  intro source hsource other hother code found hcode hfound
  obtain ⟨hsources, hartifacts⟩ := h source hsource other hother
  refine ⟨hsources, fun hsame => ?_⟩
  obtain rfl := hartifacts hsame
  rw [hcode.unique hfound]

/-- If the build came to code, the source holds what it held before, the code is that of this text, and
the artifact holds the code. -/
def Delivered (manifest : Manifest) (before after : Disk) (result : BuildResult) : Prop :=
  ∀ code, result.outcome = .ok code → ∃ text, before.contentAt? result.source = some text ∧
    compile text = .ok code ∧ after.read result.source = .ok text ∧
    after.read (artifactPath manifest result.source) = .ok (Artifact.encode manifest.format code)

theorem Delivered.holds {manifest : Manifest} {before after : Disk} {result : BuildResult} {code : Code}
    (h : Delivered manifest before after result) (hcode : result.outcome = .ok code) :
    Holds before result.source code := by
  obtain ⟨text, hbefore, hcompile, -⟩ := h code hcode
  exact ⟨text, hbefore, hcompile⟩

/-- Builds that all come to code and are delivered kept apart. -/
theorem apart_of_delivered {before after : Disk} {manifest : Manifest} {results : List BuildResult}
    (hhome : after.home = before.home)
    (hresults : ∀ result ∈ results,
      (∃ code, result.outcome = .ok code) ∧ Delivered manifest before after result) :
    Apart before manifest (results.map BuildResult.source) := by
  have hplace (path : String) : after.destination path = before.destination path := by
    rw [Disk.destination, Disk.destination, hhome]
  intro source hsource other hother code found hholds hfound
  obtain ⟨result, hresult, rfl⟩ := List.mem_map.mp hsource
  obtain ⟨rival, hrival, rfl⟩ := List.mem_map.mp hother
  obtain ⟨⟨_, hcode⟩, hdelivered⟩ := hresults result hresult
  obtain ⟨⟨_, hrivalCode⟩, hrivalDelivered⟩ := hresults rival hrival
  obtain rfl := (hdelivered.holds hcode).unique hholds
  obtain rfl := (hrivalDelivered.holds hrivalCode).unique hfound
  obtain ⟨-, -, -, -, hartifact⟩ := hdelivered _ hcode
  obtain ⟨text, -, hcompile, hkept, hrivalArtifact⟩ := hrivalDelivered _ hrivalCode
  rw [Disk.read_eq_ok_iff, Disk.contentAt?, hplace] at hartifact hkept hrivalArtifact
  constructor
  · intro hsame
    rw [hsame] at hartifact
    obtain rfl := Option.some.inj (hartifact.2.2.symm.trans hkept.2.2)
    exact Artifact.compile_encode manifest.format _ _ hcompile
  · intro hsame
    rw [hsame] at hartifact
    exact Option.some.inj (hartifact.2.2.symm.trans hrivalArtifact.2.2)

namespace Workshop

/-- What holds of builds that keep apart, from a disk on: no text that compiles is new, what was loaded
is the code of what its source holds, and all results are delivered. -/
structure Orderly (disk : Disk) (manifest : Manifest) (sources : List String) (shop : Workshop) :
    Prop where
  home : shop.disk.home = disk.home
  kept : ∀ path text code, shop.disk.contentAt? path = some text → compile text = .ok code →
    disk.contentAt? path = some text
  loaded : ∀ source code, (source, .ok code) ∈ shop.loaded → source ∈ sources ∧
    ∃ text, shop.disk.read source = .ok text ∧ compile text = .ok code
  results : ∀ result ∈ shop.results, result.source ∈ sources ∧
    Delivered manifest disk shop.disk result

variable {disk : Disk} {manifest : Manifest} {sources : List String} {shop : Workshop}

theorem orderly_start (disk : Disk) (manifest : Manifest) (sources : List String) :
    Orderly disk manifest sources { disk := disk } where
  home := rfl
  kept _ _ _ hcontent _ := hcontent
  loaded _ _ hmem := by cases hmem
  results _ hmem := by cases hmem

theorem Orderly.destination_eq (h : Orderly disk manifest sources shop) (path : String) :
    shop.disk.destination path = disk.destination path := by
  rw [Disk.destination, Disk.destination, h.home]

/-- What compiles now was there from the start. -/
theorem Orderly.holds (h : Orderly disk manifest sources shop) {source : String} {text : Bytes}
    {code : Code} (hread : shop.disk.read source = .ok text) (hcompile : compile text = .ok code) :
    Holds disk source code :=
  ⟨text, h.kept source text code (Disk.read_eq_ok_iff.mp hread).2.2 hcompile, hcompile⟩

theorem Orderly.load (h : Orderly disk manifest sources shop) {source : String}
    (hsource : source ∈ sources) :
    Orderly disk manifest sources (shop.step manifest (.load source)) where
  home := h.home
  kept := h.kept
  loaded other code hmem := by
    rcases List.mem_cons.mp hmem with hnew | hold
    · obtain ⟨rfl, hcode⟩ := Prod.mk.inj hnew
      exact ⟨hsource, loadSource_eq_ok_iff.mp hcode.symm⟩
    · exact h.loaded other code hold
  results := h.results

/-- A change that spares the sources that compile, adds nothing that compiles, and behind which all
artifacts are as they should be. -/
theorem Orderly.change (h : Orderly disk manifest sources shop) {next : Disk}
    {changed : Location → Prop} (hchange : Disk.ChangesOnly changed shop.disk next)
    (hsources : ∀ source ∈ sources, ∀ code, Holds disk source code →
      ¬changed (shop.disk.destination source))
    (hadded : ∀ path text code, changed (shop.disk.destination path) →
      next.contentAt? path = some text → compile text ≠ .ok code)
    (hartifacts : ∀ result ∈ shop.results, ∀ code, result.outcome = .ok code →
      next.read (artifactPath manifest result.source) =
        .ok (Artifact.encode manifest.format code)) :
    Orderly disk manifest sources { shop with disk := next } := by
  refine ⟨hchange.home.trans h.home, ?_, ?_, ?_⟩
  · intro path text code hcontent hcompile
    have hunchanged : ¬changed (shop.disk.destination path) := fun hchanged =>
      hadded path text code hchanged hcontent hcompile
    exact h.kept path text code (hchange.some_of_contentAt? hunchanged hcontent) hcompile
  · intro source code hmem
    obtain ⟨hsource, text, hread, hcompile⟩ := h.loaded source code hmem
    have hspared := hsources source hsource code (h.holds hread hcompile)
    exact ⟨hsource, text, hchange.read hspared hread, hcompile⟩
  · intro result hresult
    obtain ⟨hsource, hdelivered⟩ := h.results result hresult
    refine ⟨hsource, fun code hcode => ?_⟩
    have hspared := hsources _ hsource code (hdelivered.holds hcode)
    obtain ⟨text, hbefore, hcompile, hread, -⟩ := hdelivered code hcode
    exact ⟨text, hbefore, hcompile, hchange.read hspared hread, hartifacts result hresult code hcode⟩

theorem Orderly.addResult (h : Orderly disk manifest sources shop) (result : BuildResult)
    (hsource : result.source ∈ sources) (hdelivered : Delivered manifest disk shop.disk result) :
    Orderly disk manifest sources { shop with results := shop.results ++ [result] } := by
  refine ⟨h.home, h.kept, h.loaded, fun other hother => ?_⟩
  rcases List.mem_append.mp hother with hold | hnew
  · exact h.results other hold
  · rw [List.mem_singleton.mp hnew]
    exact ⟨hsource, hdelivered⟩

/-- Directories alone do no harm. -/
theorem Orderly.unwritten (h : Orderly disk manifest sources shop) {next : Disk} {path : String}
    {content : Bytes} {error : BuildError}
    (hwritten : writeWhole shop.disk path content = (next, .error error)) :
    Orderly disk manifest sources { shop with disk := next } := by
  have hchange := changesOnly_unwritten hwritten fun _ => False
  refine h.change hchange (fun _ _ _ _ => id) (fun _ _ _ hchanged => hchanged.elim) ?_
  intro result hresult code hcode
  obtain ⟨-, -, -, -, hartifact⟩ := (h.results result hresult).2 code hcode
  exact hchange.read id hartifact

section Apart

variable (hformat : Artifact.isFormat manifest.format = true) (hapart : Apart disk manifest sources)

include hformat hapart

theorem Orderly.written (h : Orderly disk manifest sources shop) {source : String} {text : Bytes}
    {code : Code} {next : Disk} (hsource : source ∈ sources)
    (hread : shop.disk.read source = .ok text) (hcompile : compile text = .ok code)
    (hwritten : writeWhole shop.disk (artifactPath manifest source)
      (Artifact.encode manifest.format code) = (next, .ok ())) :
    Orderly disk manifest sources
      { shop with disk := next, results := shop.results ++ [⟨source, .ok code⟩] } := by
  have hchange := changesOnly_written hwritten
  have hstored := read_writeWhole hformat hwritten
  have hholds := h.holds hread hcompile
  have hspared : ∀ other ∈ sources, ∀ found, Holds disk other found →
      ¬shop.disk.destination other = shop.disk.destination (artifactPath manifest source) := by
    intro other hother found hfound
    rw [h.destination_eq, h.destination_eq]
    exact (hapart source hsource other hother code found hholds hfound).1.symm
  have hnext : Orderly disk manifest sources { shop with disk := next } := by
    refine h.change hchange hspared ?_ ?_
    · intro path held found hchanged hheld
      have hcontent := (Disk.read_eq_ok_iff.mp hstored).2.2
      rw [Disk.contentAt?, hchange.destination_eq] at hheld hcontent
      rw [hchanged] at hheld
      obtain rfl := Option.some.inj (hcontent.symm.trans hheld)
      exact Artifact.compile_encode manifest.format code found
    · intro result hresult found hfound
      obtain ⟨hother, hdelivered⟩ := h.results result hresult
      obtain ⟨-, -, -, -, hartifact⟩ := hdelivered found hfound
      by_cases hsame : shop.disk.destination (artifactPath manifest result.source) =
          shop.disk.destination (artifactPath manifest source)
      · -- The two artifacts are the same, and it is written once more.
        have hheld := hchange.read_of_destination hartifact hstored hsame
        rw [h.destination_eq, h.destination_eq] at hsame
        rw [hheld, (hapart source hsource _ hother code found hholds
          (hdelivered.holds hfound)).2 hsame.symm]
      · exact hchange.read hsame hartifact
  refine hnext.addResult ⟨source, .ok code⟩ hsource ?_
  rintro _ ⟨⟩
  obtain ⟨held, hheld, hcompiled⟩ := hholds
  have hcontent := h.kept source text code (Disk.read_eq_ok_iff.mp hread).2.2 hcompile
  exact ⟨text, hcontent, hcompile,
    hchange.read (hspared source hsource code ⟨held, hheld, hcompiled⟩) hread, hstored⟩

theorem Orderly.store (h : Orderly disk manifest sources shop) {source : String}
    (hsource : source ∈ sources) :
    Orderly disk manifest sources (shop.step manifest (.store source)) := by
  rw [step]
  cases hlookup : shop.loaded.lookup source with
  | none => exact h
  | some outcome =>
      obtain ⟨before, after, hsplit, -⟩ := List.lookup_eq_some_iff.mp hlookup
      have hmem : (source, outcome) ∈ shop.loaded := by
        rw [hsplit]
        exact List.mem_append_right _ List.mem_cons_self
      cases outcome with
      | error error => exact h.addResult ⟨source, .error error⟩ hsource nofun
      | ok code =>
          obtain ⟨-, text, hread, hcompile⟩ := h.loaded source code hmem
          dsimp only [storeArtifact]
          cases hwritten : writeWhole shop.disk (artifactPath manifest source)
              (Artifact.encode manifest.format code) with
          | mk next result =>
              cases result with
              | error error =>
                  exact (h.unwritten hwritten).addResult ⟨source, .error error⟩ hsource nofun
              | ok _ => exact h.written hformat hapart hsource hread hcompile hwritten

theorem Orderly.run (h : Orderly disk manifest sources shop) {halves : List Half}
    (hhalves : ∀ half ∈ halves, half.source ∈ sources) :
    Orderly disk manifest sources (shop.run manifest halves) := by
  induction halves generalizing shop with
  | nil => exact h
  | cons first rest ih =>
      obtain ⟨hfirst, hrest⟩ := List.forall_mem_cons.mp hhalves
      refine ih ?_ hrest
      cases first with
      | load source => exact h.load hfirst
      | store source => exact h.store hformat hapart hfirst

end Apart

end Workshop

theorem source_inTurn {sources : List String} {half : Half} (h : half ∈ inTurn sources) :
    half.source ∈ sources := by
  obtain ⟨source, hsource, hhalf⟩ := List.mem_flatMap.mp h
  rcases List.mem_pair.mp hhalf with rfl | rfl
  · exact hsource
  · exact hsource

/-- When the builds keep apart, all that come to code are delivered, in whatever order they are carried
out and however their steps alternate. Only then can they be delivered if all of them come to code. -/
theorem builds_delivered (disk : Disk) (manifest : Manifest) (sources : List String)
    (hformat : Artifact.isFormat manifest.format = true) :
    (Apart disk manifest sources →
      (∀ order, order.Perm sources → ∀ result ∈ (buildAll disk manifest order).2,
        Delivered manifest disk (buildAll disk manifest order).1 result) ∧
      ∀ halves : List Half, (∀ half ∈ halves, half.source ∈ sources) →
        ∀ result ∈ (Workshop.run manifest { disk := disk } halves).results,
          Delivered manifest disk (Workshop.run manifest { disk := disk } halves).disk result) ∧
    ∀ order, order.Perm sources →
      (∀ result ∈ (buildAll disk manifest order).2, (∃ code, result.outcome = .ok code) ∧
        Delivered manifest disk (buildAll disk manifest order).1 result) →
      Apart disk manifest sources := by
  refine ⟨fun hapart => ?_, fun order horder hresults => ?_⟩
  · have hrun (halves : List Half) (hhalves : ∀ half ∈ halves, half.source ∈ sources) :=
      (Workshop.orderly_start disk manifest sources).run hformat hapart hhalves
    refine ⟨fun order horder result hresult => ?_, fun halves hhalves result hresult =>
      ((hrun halves hhalves).results result hresult).2⟩
    obtain ⟨hdisk, hresults⟩ := run_inTurn manifest order { disk := disk }
    have horderly := hrun (inTurn order) fun half hhalf =>
      horder.mem_iff.mp (source_inTurn hhalf)
    rw [← hdisk]
    refine (horderly.results result ?_).2
    rw [hresults]
    exact List.mem_append_right _ hresult
  · have hapart := apart_of_delivered (home_buildAll disk manifest order) hresults
    rw [source_buildAll] at hapart
    intro source hsource other hother
    exact hapart source (horder.mem_iff.mpr hsource) other (horder.mem_iff.mpr hother)

/-- Text artifacts go to one directory. -/
def gathering : Manifest :=
  { Manifest.default "/" with outputDir := "out" }

def printingSeven : Bytes :=
  "begin print(7); end".toUTF8.toList

def printingEight : Bytes :=
  "begin print(8); end".toUTF8.toList

def codeOfSeven : Code :=
  [.of .literal 7, .of .write]

def codeOfEight : Code :=
  [.of .literal 8, .of .write]

theorem compile_printingSeven : compile printingSeven = .ok codeOfSeven := by cbv

theorem compile_printingEight : compile printingEight = .ok codeOfEight := by cbv

/-- Two sources in a directory each. -/
def twoSources (first second : String) : Disk where
  entries := [(["a"], .directory), (["b"], .directory), (["out"], .directory),
    (["a", first], .file printingSeven), (["b", second], .file printingEight)]

/-- The text artifact of some code. -/
def artifactOf (code : Code) : Node :=
  .file (Artifact.encode Artifact.textFormat code)

theorem build_of_written {disk next : Disk} {manifest : Manifest} {source : String} {text : Bytes}
    {code : Code} (hread : disk.read source = .ok text) (hcompile : compile text = .ok code)
    (hwritten : writeWhole disk (artifactPath manifest source)
      (Artifact.encode manifest.format code) = (next, .ok ())) :
    build disk manifest source = (next, .ok code) := by
  rw [build_eq, loadSource_eq_ok_iff.mpr ⟨text, hread, hcompile⟩, storeArtifact, hwritten]
  rfl

theorem buildAll_pair {disk next last : Disk} {manifest : Manifest} {first second : String}
    {code found : Code} (hfirst : build disk manifest first = (next, .ok code))
    (hsecond : build next manifest second = (last, .ok found)) :
    buildAll disk manifest [first, second] =
      (last, [⟨first, .ok code⟩, ⟨second, .ok found⟩]) := by
  simp only [buildAll, hfirst, hsecond]

theorem builds_delivered_gathered : Artifact.isFormat gathering.format = true ∧
    Apart (twoSources "p.plc0" "q.plc0") gathering ["a/p.plc0", "b/q.plc0"] ∧
    ∃ disk, buildAll (twoSources "p.plc0" "q.plc0") gathering ["b/q.plc0", "a/p.plc0"] =
        (disk, [⟨"b/q.plc0", .ok codeOfEight⟩, ⟨"a/p.plc0", .ok codeOfSeven⟩]) ∧
      Delivered gathering (twoSources "p.plc0" "q.plc0") disk ⟨"b/q.plc0", .ok codeOfEight⟩ := by
  have hformat : Artifact.isFormat gathering.format = true := by decide
  have hapart : Apart (twoSources "p.plc0" "q.plc0") gathering ["a/p.plc0", "b/q.plc0"] :=
    apart_of_distinct (by decide +kernel)
  have hp : artifactPath gathering "a/p.plc0" = "/out/p.s" := by decide +kernel
  have hq : artifactPath gathering "b/q.plc0" = "/out/q.s" := by decide +kernel
  have hfirst : build (twoSources "p.plc0" "q.plc0") gathering "b/q.plc0" =
      ((twoSources "p.plc0" "q.plc0").put ["out", "q.s"] (artifactOf codeOfEight),
        .ok codeOfEight) :=
    build_of_written rfl compile_printingEight (by rw [hq]; rfl)
  have hsecond : build ((twoSources "p.plc0" "q.plc0").put ["out", "q.s"] (artifactOf codeOfEight))
      gathering "a/p.plc0" =
      (((twoSources "p.plc0" "q.plc0").put ["out", "q.s"] (artifactOf codeOfEight)).put
        ["out", "p.s"] (artifactOf codeOfSeven), .ok codeOfSeven) :=
    build_of_written rfl compile_printingSeven (by rw [hp]; rfl)
  have hboth := buildAll_pair hfirst hsecond
  have hdelivered := ((builds_delivered _ gathering _ hformat).1 hapart).1 _ (.swap _ _ _)
  rw [hboth] at hdelivered
  exact ⟨hformat, hapart, _, hboth, hdelivered _ List.mem_cons_self⟩

/-- An artifact that another one replaced is lost. -/
theorem not_delivered_of_read {manifest : Manifest} {before after : Disk} {source : String}
    {code : Code} (found : Code) (hread : after.read (artifactPath manifest source) =
      .ok (Artifact.encode manifest.format found))
    (hother : Artifact.encode manifest.format found ≠ Artifact.encode manifest.format code) :
    ¬Delivered manifest before after ⟨source, .ok code⟩ := by
  intro h
  obtain ⟨-, -, -, -, hartifact⟩ := h code rfl
  exact hother (Except.ok.inj (hread.symm.trans hartifact))

/-- Two artifacts go to one place, and the first is lost; and a source that is named as an artifact loses
its text to it. No build fails. -/
theorem builds_overlapping :
    (∃ disk, buildAll (twoSources "p.plc0" "p.plc0") gathering ["a/p.plc0", "b/p.plc0"] =
        (disk, [⟨"a/p.plc0", .ok codeOfSeven⟩, ⟨"b/p.plc0", .ok codeOfEight⟩]) ∧
      ¬Delivered gathering (twoSources "p.plc0" "p.plc0") disk ⟨"a/p.plc0", .ok codeOfSeven⟩) ∧
    ∃ disk, buildAll (twoSources "p.s" "q.plc0") (.default "/") ["a/p.s", "b/q.plc0"] =
        (disk, [⟨"a/p.s", .ok codeOfSeven⟩, ⟨"b/q.plc0", .ok codeOfEight⟩]) ∧
      ¬Delivered (.default "/") (twoSources "p.s" "q.plc0") disk ⟨"a/p.s", .ok codeOfSeven⟩ := by
  constructor
  · have hp : artifactPath gathering "a/p.plc0" = "/out/p.s" := by decide +kernel
    have hq : artifactPath gathering "b/p.plc0" = "/out/p.s" := by decide +kernel
    have hfirst : build (twoSources "p.plc0" "p.plc0") gathering "a/p.plc0" =
        ((twoSources "p.plc0" "p.plc0").put ["out", "p.s"] (artifactOf codeOfSeven), _) :=
      build_of_written rfl compile_printingSeven (by rw [hp]; rfl)
    have hsecond : build ((twoSources "p.plc0" "p.plc0").put ["out", "p.s"] (artifactOf codeOfSeven))
        gathering "b/p.plc0" =
        (((twoSources "p.plc0" "p.plc0").put ["out", "p.s"] (artifactOf codeOfSeven)).put
          ["out", "p.s"] (artifactOf codeOfEight), _) :=
      build_of_written rfl compile_printingEight (by rw [hq]; rfl)
    refine ⟨_, buildAll_pair hfirst hsecond, not_delivered_of_read codeOfEight ?_ (by decide)⟩
    rw [hp]
    rfl
  · have hp : artifactPath (.default "/") "a/p.s" = "a/p.s" := by decide +kernel
    have hq : artifactPath (.default "/") "b/q.plc0" = "b/q.s" := by decide +kernel
    have hfirst : build (twoSources "p.s" "q.plc0") (.default "/") "a/p.s" =
        ((twoSources "p.s" "q.plc0").put ["a", "p.s"] (artifactOf codeOfSeven), _) :=
      build_of_written rfl compile_printingSeven (by rw [hp]; rfl)
    have hsecond : build ((twoSources "p.s" "q.plc0").put ["a", "p.s"] (artifactOf codeOfSeven))
        (.default "/") "b/q.plc0" =
        (((twoSources "p.s" "q.plc0").put ["a", "p.s"] (artifactOf codeOfSeven)).put
          ["b", "q.s"] (artifactOf codeOfEight), _) :=
      build_of_written rfl compile_printingEight (by rw [hq]; rfl)
    refine ⟨_, buildAll_pair hfirst hsecond, fun h => ?_⟩
    obtain ⟨text, -, hcompile, hkept, -⟩ := h codeOfSeven rfl
    have hclobbered : Artifact.encode Artifact.textFormat codeOfSeven = text := Except.ok.inj hkept
    rw [← hclobbered] at hcompile
    exact Artifact.compile_encode Artifact.textFormat codeOfSeven codeOfSeven hcompile

end PlZero.Command

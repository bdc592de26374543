import PlZero.Proofs.NearestManifest
import PlZero.Proofs.TomlTables
import PlZero.Project.Search

/-! Manifests that were written are loaded again. The text of a manifest is a document of four sections,
which is read as the table of its settings; the settings are all of the manifest but its directory; and
neither the defaults nor the checks of loading change a valid manifest. Main statement: a manifest that is
written into a directory without one is loaded from there as it was, and no other one is written over
it. -/

namespace PlZero.Project.Manifest

open PlZero.Text PlZero.Files PlZero.Machine PlZero.Toml PlZero.Attempt

/-- The lines of a written manifest. -/
def lines (manifest : Manifest) : List Line :=
  [.header "build", .setting "format" (.text manifest.format),
    .setting "output-dir" (.text manifest.outputDir), .blank,
    .header "run", .setting "trace" (.boolean manifest.trace), .blank,
    .header "log", .setting "verbosity" (.number manifest.verbosity.toNat),
    .setting "file" (.text manifest.logFile), .blank,
    .header "cache", .setting "enabled" (.boolean manifest.cacheEnabled),
    .setting "path" (.text manifest.cachePath)]

/-- The sections of a written manifest. -/
def written (manifest : Manifest) : List Section :=
  [⟨"build", [("format", .text manifest.format), ("output-dir", .text manifest.outputDir)]⟩,
    ⟨"run", [("trace", .boolean manifest.trace)]⟩,
    ⟨"log", [("verbosity", .number manifest.verbosity.toNat), ("file", .text manifest.logFile)]⟩,
    ⟨"cache", [("enabled", .boolean manifest.cacheEnabled), ("path", .text manifest.cachePath)]⟩]

theorem toList_writeBoolean (value : Bool) :
    (writeBoolean value).toList = (Literal.boolean value).spelling := by
  cases value <;> rfl

theorem toList_showInt {value : Int} (h : 0 ≤ value) :
    (showInt value).toList = decimalDigits value.toNat := by
  obtain ⟨number, rfl⟩ := Int.eq_ofNat_of_zero_le h
  rw [showInt, String.toList_ofList, Int.toNat_natCast]
  exact decimal.eq_1 number

theorem toList_render {manifest : Manifest} (h : 0 ≤ manifest.verbosity) :
    manifest.render.toList = manifest.lines.flatMap Line.spelling := by
  unfold render
  simp [lines, Line.spelling, Literal.spelling, toList_writeBoolean, toList_showInt h]

theorem statements_lines (manifest : Manifest) :
    manifest.lines.filterMap Line.statement? = manifest.written.flatMap Section.statements := rfl

theorem isValid_lines {manifest : Manifest} (h : manifest.verbosity ≤ 9223372036854775807) :
    ∀ line ∈ manifest.lines, line.IsValid := by
  have hnames : ∀ name ∈ ["build", "format", "output-dir", "run", "trace", "log", "verbosity", "file",
      "cache", "enabled", "path"], IsBareName name := by
    decide
  have hfits : manifest.verbosity.toNat ≤ 9223372036854775807 := by omega
  simp only [List.forall_mem_cons, List.not_mem_nil, false_imp_iff, implies_true, and_true] at hnames
  simp [lines, Line.IsValid, Literal.Fits, hnames, hfits]

theorem dropMark_render (manifest : Manifest) (h : 0 ≤ manifest.verbosity) :
    dropMark (encodeChars manifest.render.toList) = encodeChars manifest.render.toList := by
  rw [toList_render h]
  rfl

theorem read?_render {manifest : Manifest} (hleast : 0 ≤ manifest.verbosity)
    (hmost : manifest.verbosity ≤ 9223372036854775807) :
    Toml.read? (encode manifest.render) = some (manifest.written.map Section.entry) := by
  refine read?_sections (isValid_lines hmost) (toList_render hleast) (dropMark_render manifest hleast)
    (statements_lines manifest) ?_ ?_
  · simp [written]
  · simp [written]

/-- The settings of a manifest, without its directory, are all that is written and read. -/
theorem parse?_render {manifest : Manifest} (hleast : 0 ≤ manifest.verbosity)
    (hmost : manifest.verbosity ≤ 9223372036854775807) :
    parse? (encode manifest.render) = some { manifest with dir := "" } := by
  have hverbosity : (manifest.verbosity.toNat : Int) = manifest.verbosity := Int.toNat_of_nonneg hleast
  have hnames : ∀ name ∈ ["build", "format", "output-dir", "run", "trace", "log", "verbosity", "file",
      "cache", "enabled", "path"], fold name = name := by
    decide
  simp only [List.forall_mem_cons, List.not_mem_nil, false_imp_iff, implies_true, and_true] at hnames
  rw [parse?, read?_render hleast hmost, Option.bind_eq_bind, Option.bind_some]
  simp [written, Section.entry, Section.entries, Literal.value, setSection?, hnames, sections, table?,
    set?, string?, boolean?, integer?, hverbosity, blank]

/-! ### Files of manifests -/

variable {disk : Disk} {dir : String} {location : Location}

theorem pathIn_eq (hdir : dir ≠ "") : pathIn dir = Path.clean (dir ++ "/" ++ fileName) :=
  Path.join_pair hdir (by decide)

theorem endsWithSlash_pathIn (hdir : dir ≠ "") : Disk.endsWithSlash (pathIn dir) = false := by
  obtain ⟨before, hbefore⟩ :=
    Path.clean_of_parts (Path.parts_join dir isName_fileName) isName_fileName
  rw [pathIn_eq hdir]
  exact Disk.endsWithSlash_of_isName isName_fileName hbefore

/-- The manifest of a directory has its place there, whatever the path of the directory goes through. -/
theorem place_pathIn (hdir : disk.place dir = .ok location)
    (hnode : disk.node? location = some .directory) (hfits : Disk.Fits (pathIn dir)) :
    disk.place (pathIn dir) = .ok (location ++ [fileName]) := by
  obtain ⟨⟨-, hempty, -⟩, hpassable, rfl⟩ := Disk.place_eq_ok_iff.mp hdir
  have hwhole : disk.Passable (if Path.isAbsolute (dir ++ "/" ++ fileName) then [] else disk.home)
      (Path.parts (dir ++ "/" ++ fileName)) := by
    rw [Path.isAbsolute_pair hempty, Path.parts_join dir isName_fileName]
    exact Disk.passable_concat.mpr ⟨hpassable, hnode, by decide⟩
  have hplace : disk.destination (pathIn dir) = disk.destination dir ++ [fileName] := by
    obtain ⟨hdot, hdots⟩ := isName_fileName.ne_dots
    rw [pathIn_eq hempty, Disk.destination_clean, Disk.destination, Path.isAbsolute_pair hempty,
      Path.parts_join dir isName_fileName, List.foldl_append, List.foldl_cons, List.foldl_nil,
      Disk.stepFrom, if_neg hdot, if_neg hdots, Disk.destination]
  have hpath : dir ++ "/" ++ fileName ≠ "" := by
    intro hnone
    have hparts := Path.parts_join dir isName_fileName
    rw [hnone] at hparts
    exact List.append_ne_nil_of_right_ne_nil _ (List.cons_ne_nil _ _) hparts.symm
  refine Disk.place_eq_ok_iff.mpr
    ⟨⟨hfits.noNul, hfits.ne_empty, hfits.le_maxPath⟩, ?_, hplace.symm⟩
  rw [pathIn_eq hempty]
  exact hwhole.clean hpath

theorem withDefaults_eq_self {manifest : Manifest} (hformat : Artifact.isFormat manifest.format = true)
    (hcache : manifest.cachePath ≠ "") : manifest.withDefaults = manifest := by
  have hformat : manifest.format ≠ "" := by
    intro hempty
    rw [hempty] at hformat
    cases hformat
  rw [withDefaults, if_neg hformat, if_neg hcache]

theorem problem?_eq_none {manifest : Manifest} (hformat : Artifact.isFormat manifest.format = true)
    (hverbosity : 0 ≤ manifest.verbosity) : manifest.problem? = none := by
  rw [problem?, hformat, Bool.not_true, if_neg Bool.false_ne_true, if_neg (Int.not_lt.mpr hverbosity)]

/-- A valid manifest that was read is loaded as it was written, with the directory that it was read
from. -/
theorem load_of_read {manifest : Manifest} (hread : disk.read (pathIn dir) = .ok (encode manifest.render))
    (hformat : Artifact.isFormat manifest.format = true) (hleast : 0 ≤ manifest.verbosity)
    (hmost : manifest.verbosity ≤ 9223372036854775807) (hcache : manifest.cachePath ≠ "") :
    load disk dir = .ok { manifest with dir := disk.absolute dir } := by
  have hdefaults : ({ manifest with dir := "" } : Manifest).withDefaults = { manifest with dir := "" } :=
    withDefaults_eq_self hformat hcache
  have hproblem : ({ manifest with dir := disk.absolute dir } : Manifest).problem? = none :=
    problem?_eq_none hformat hleast
  simp only [load, hread, parse?_render hleast hmost, hdefaults, hproblem]

/-- A manifest that is written into a directory without one is loaded from there again, with the
directory as its own, and stays as it is. -/
theorem load_write (disk : Disk) (dir : String) (location : Location) (manifest : Manifest)
    (hdir : disk.find dir = .ok (location, .directory))
    (hnew : disk.node? (location ++ [fileName]) = none) (hfits : Disk.Fits (pathIn dir))
    (hformat : Artifact.isFormat manifest.format = true) (hleast : 0 ≤ manifest.verbosity)
    (hmost : manifest.verbosity ≤ 9223372036854775807) (hcache : manifest.cachePath ≠ "") :
    ∃ written, write disk dir manifest = .ok written ∧
      load written dir = .ok { manifest with dir := disk.absolute dir } ∧
      written.read (pathIn dir) = .ok (encode manifest.render) ∧
      ∀ other, write written dir other =
        .error (.uncreatable (pathIn dir) ⟨"open", pathIn dir, .alreadyThere⟩) := by
  obtain ⟨hfound, hdirectory⟩ := Disk.find_eq_ok hdir
  obtain ⟨⟨-, hempty, -⟩, -⟩ := Disk.place_eq_ok_iff.mp hfound
  have hplace := place_pathIn hfound hdirectory hfits
  have hslash := endsWithSlash_pathIn hempty
  have hvacant := Disk.ne_directory_of_vacant hnew
  have hread := Disk.read_put_of_find hvacant (encode manifest.render) hplace hslash
  refine ⟨disk.put (location ++ [fileName]) (.file (encode manifest.render)), ?_, ?_, hread, ?_⟩
  · simp only [write, Disk.create, hplace, hslash, hnew]
    rfl
  · exact load_of_read hread hformat hleast hmost hcache
  · intro other
    simp only [write, Disk.create, Disk.place_put hvacant _ hplace, hslash,
      Disk.node?_put_self hvacant]
    rfl

/-- A manifest with all that has to be escaped. -/
def escaping : Manifest :=
  { Manifest.default "" with
    outputDir := "a \"b\"\n\\c\t\x7f", verbosity := 9223372036854775807, logFile := "π" }

theorem load_write_escaping : ∃ written, write {} "." escaping = .ok written ∧
    load written "." = .ok { escaping with dir := "/" } := by
  have hdir : ({} : Disk).find "." = .ok ([], .directory) := rfl
  have hnew : ({} : Disk).node? [fileName] = none := rfl
  have hfits : Disk.Fits (pathIn ".") := by decide +kernel
  obtain ⟨written, hwrite, hload, -⟩ := load_write {} "." [] escaping hdir hnew hfits (by decide)
    (by decide) (by decide) (by decide)
  exact ⟨written, hwrite, hload⟩

end PlZero.Project.Manifest

import PlZero.Proofs.DiskChanges
import PlZero.Proofs.Words

/-! Files that are written as a whole. A draft is made where nothing is, so its directory without it is
the directory as it was; moving it puts its content in the place of the file, and taking the draft away
then takes nothing. Main statements: only the file that is written changes, and a file that was written
in the place of an artifact is read as it was written, because no draft is named like an artifact. -/

namespace PlZero.Files.Disk

open PlZero.Text PlZero.Attempt PlZero.Machine

variable {disk made : Disk} {location vacant : Location} {path : String}

theorem not_mem_of_vacant (h : disk.node? vacant = none) :
    ∀ entry ∈ disk.entries, (entry.1 != vacant) = true := by
  rintro entry hentry
  have hroot : vacant ≠ [] := by
    rintro rfl
    cases h
  rw [node?.eq_2 _ _ hroot, List.lookup_eq_none_iff] at h
  simpa [bne, BEq.comm] using h entry hentry

theorem erase_of_vacant (h : disk.node? vacant = none) : disk.erase vacant = disk := by
  rw [erase, List.filter_eq_self.mpr (not_mem_of_vacant h)]

/-- A file that was made where nothing was leaves nothing behind. -/
theorem erase_put (h : disk.node? vacant = none) (node : Node) :
    (disk.put vacant node).erase vacant = disk := by
  rw [erase, put, List.filter_cons_of_neg (by simp), List.filter_filter]
  simp only [Bool.and_self]
  exact erase_of_vacant h

/-- What is put in a place twice is there as it was put last. -/
theorem put_put (location : Location) (first second : Node) :
    (disk.put location first).put location second = disk.put location second := by
  unfold put
  rw [List.filter_cons_of_neg (by simp), List.filter_filter]
  simp only [Bool.and_self]

theorem create_eq_ok {content : Bytes} (h : disk.create path content = .ok made) :
    ∃ location, disk.place path = .ok location ∧ disk.node? location = none ∧
      made = disk.put location (.file content) := by
  rw [create] at h
  cases hplace : disk.place path with
  | error reason =>
      rw [hplace] at h
      cases h
  | ok location =>
      rw [hplace] at h
      dsimp only at h
      split at h
      · cases h
      · split at h
        · cases h
        · next hvacant => exact ⟨location, rfl, hvacant, (Except.ok.inj h).symm⟩

section Past

variable {content : Bytes} (hvacant : disk.node? vacant ≠ some .directory)

include hvacant

theorem walk_of_put {start : Location} {parts : List String}
    (h : (disk.put vacant (.file content)).walk start parts = .ok location) :
    disk.walk start parts = .ok location := by
  induction parts generalizing start with
  | nil => exact h
  | cons part rest ih =>
      rw [walk] at h ⊢
      by_cases hstart : start = vacant
      · -- No way leads past the file.
        rw [hstart, node?_put_self hvacant] at h
        cases h
      · rw [node?_put_of_ne hstart] at h
        split at h
        · cases h
        · split at h
          · cases h
          · next hshort =>
              rw [if_neg hshort]
              exact ih h
        · cases h

theorem place_of_put (h : (disk.put vacant (.file content)).place path = .ok location) :
    disk.place path = .ok location := by
  rw [place] at h ⊢
  split_ifs at h ⊢ <;> exact walk_of_put hvacant h

end Past

/-- What comes of moving a new file: it stands in place of the other one, and the rest is as before it
was made. -/
theorem rename_draft {draft : String} {content : Bytes} {next : Disk}
    (hplace : disk.place draft = .ok vacant) (hvacant : disk.node? vacant = none)
    (h : (disk.put vacant (.file content)).rename draft path = .ok next) :
    ∃ location, disk.place path = .ok location ∧ disk.node? location ≠ some .directory ∧
      next = disk.put location (.file content) := by
  have hfree := ne_directory_of_vacant hvacant
  rw [rename, place_put hfree _ hplace, ok_bind, node?_put_self hfree] at h
  obtain ⟨location, hlocation, hmoved⟩ := bind_eq_ok_iff.mp h
  have hnode : (disk.put vacant (.file content)).node? location ≠ some .directory := by
    intro hdirectory
    rw [hdirectory] at hmoved
    cases hmoved
  refine ⟨location, place_of_put hfree hlocation, ?_, ?_⟩
  · by_cases hsame : location = vacant
    · rwa [hsame]
    · rwa [node?_put_of_ne hsame] at hnode
  · split at hmoved
    · next hdirectory => exact absurd hdirectory hnode
    · rw [erase_put hvacant] at hmoved
      exact (Except.ok.inj hmoved).symm

theorem unlink_of_file (hplace : disk.place path = .ok location)
    (hnode : disk.node? location ≠ some .directory) : disk.unlink path = disk.erase location := by
  rw [unlink, hplace]
  dsimp only
  split
  · next hdirectory => exact absurd hdirectory hnode
  · rfl

section Draft

variable {draft : String} (hplace : disk.place draft = .ok vacant) (hvacant : disk.node? vacant = none)

include hplace hvacant

theorem fill_draft (content : Bytes) :
    (disk.put vacant (.file [])).fill draft content = disk.put vacant (.file content) := by
  rw [fill, place_put (ne_directory_of_vacant hvacant) _ hplace]
  exact put_put vacant _ _

/-- A draft that is taken away leaves the disk as it was. -/
theorem unlink_draft (content : Bytes) : (disk.put vacant (.file content)).unlink draft = disk := by
  have hfree := ne_directory_of_vacant hvacant
  rw [unlink_of_file (place_put hfree _ hplace), erase_put hvacant]
  rw [node?_put_self hfree]
  rintro ⟨⟩

/-- Behind a draft that was moved there is nothing to take away. -/
theorem unlink_moved (hfree : disk.node? location ≠ some .directory) (hne : location ≠ vacant)
    (content : Bytes) : (disk.put location (.file content)).unlink draft =
      disk.put location (.file content) := by
  have hleft : (disk.put location (.file content)).node? vacant = none := by
    rw [node?_put_of_ne (Ne.symm hne), hvacant]
  rw [unlink_of_file (place_put hfree _ hplace) (ne_directory_of_vacant hleft), erase_of_vacant hleft]

end Draft

end PlZero.Files.Disk

namespace PlZero.Command

open PlZero.Text PlZero.Files PlZero.Machine

theorem createDraft_eq_ok {disk drafted : Disk} {dir draft : String} {draws : Draws} {tries : Nat}
    (h : createDraft disk dir draws tries = .ok (drafted, draft)) :
    ∃ left vacant, draft = draftIn dir (showNat (draws left).toNat) ∧ disk.place draft = .ok vacant ∧
      disk.node? vacant = none ∧ drafted = disk.put vacant (.file []) := by
  induction tries with
  | zero => cases h
  | succ left ih =>
      rw [createDraft.eq_def] at h
      dsimp only at h
      cases hcreated : disk.create (draftIn dir (showNat (draws left).toNat)) [] with
      | error error =>
          simp only [hcreated] at h
          split at h
          · exact ih h
          · cases h
      | ok made =>
          simp only [hcreated, Except.ok.injEq, Prod.mk.injEq] at h
          obtain ⟨rfl, rfl⟩ := h
          obtain ⟨vacant, hplace, hvacant, rfl⟩ := Disk.create_eq_ok hcreated
          exact ⟨left, vacant, rfl, hplace, hvacant, rfl⟩

theorem Transfer.eq_whole {transfer : Transfer} {dir : String} (h : transfer.failure? dir = none) :
    transfer = .whole := by
  cases transfer with
  | whole => rfl
  | cut | unclosed => cases h

/-- How a file is written as a whole. The directories on the way are made; then nothing else happens, for one
of four reasons, or the file is put in its place. Only a draft that was made in the very place of the file
is lost. -/
inductive Writing (disk : Disk) (path : String) (content : Bytes) (means : Means) :
    Disk → Except BuildError Unit → Prop
  | unfounded {founded : Disk} {error : FileError}
      (h : disk.ensureDirectories (Path.parent path) = (founded, .error error)) :
      Writing disk path content means founded (.error (.noDirectory (Path.parent path) error))
  | undrafted {founded : Disk} {error : FileError}
      (hfounded : disk.ensureDirectories (Path.parent path) = (founded, .ok ()))
      (h : createDraft founded (Path.parent path) means.draws draftTries = .error error) :
      Writing disk path content means founded (.error (.undrafted path error))
  | unfilled {founded : Disk} {error : FileError}
      (hfounded : disk.ensureDirectories (Path.parent path) = (founded, .ok ()))
      (h : means.transfer.failure? (Path.parent path) = some error) :
      Writing disk path content means founded (.error (.unfilled path error))
  | unmoved {founded : Disk} {draft : String} {vacant : Location} {reason : Errno}
      (hfounded : disk.ensureDirectories (Path.parent path) = (founded, .ok ()))
      (hdraft : founded.place draft = .ok vacant) (hvacant : founded.node? vacant = none)
      (h : (founded.put vacant (.file content)).rename draft path = .error reason) :
      Writing disk path content means founded
        (.error (.unwritable path (draftIn (Path.parent path)) reason))
  | moved {founded drafted : Disk} {draft : String} {location : Location}
      (hfounded : disk.ensureDirectories (Path.parent path) = (founded, .ok ()))
      (hdrafted : createDraft founded (Path.parent path) means.draws draftTries = .ok (drafted, draft))
      (hwhole : means.transfer = .whole) (hplace : founded.place path = .ok location)
      (hfree : founded.node? location ≠ some .directory) :
      Writing disk path content means (founded.put location (.file content)) (.ok ())
  | lost {founded : Disk} {location : Location} {left : Nat}
      (hfounded : disk.ensureDirectories (Path.parent path) = (founded, .ok ()))
      (hplace : founded.place path = .ok location)
      (hdraft : founded.place (draftIn (Path.parent path) (showNat (means.draws left).toNat)) =
        .ok location) :
      Writing disk path content means founded (.ok ())

theorem writing_of_writeWhole {disk after : Disk} {path : String} {content : Bytes} {means : Means}
    {outcome : Except BuildError Unit} (h : writeWhole disk path content means = (after, outcome)) :
    Writing disk path content means after outcome := by
  unfold writeWhole at h
  dsimp only at h
  cases hensured : disk.ensureDirectories (Path.parent path) with
  | mk founded ensured =>
  rw [hensured] at h
  cases ensured with
  | error error =>
      obtain ⟨rfl, rfl⟩ := Prod.mk.inj h
      exact .unfounded hensured
  | ok =>
  dsimp only at h
  cases hdrafted : createDraft founded (Path.parent path) means.draws draftTries with
  | error error =>
      rw [hdrafted] at h
      obtain ⟨rfl, rfl⟩ := Prod.mk.inj h
      exact .undrafted hensured hdrafted
  | ok found =>
  obtain ⟨drafted, draft⟩ := found
  rw [hdrafted] at h
  obtain ⟨left, vacant, hname, hplace, hvacant, rfl⟩ := createDraft_eq_ok hdrafted
  dsimp only at h
  rw [Disk.fill_draft hplace hvacant] at h
  cases hfailure : means.transfer.failure? (Path.parent path) with
  | some error =>
      rw [hfailure] at h
      obtain ⟨rfl, rfl⟩ := Prod.mk.inj h
      rw [Disk.unlink_draft hplace hvacant]
      exact .unfilled hensured hfailure
  | none =>
  have hwhole := Transfer.eq_whole hfailure
  rw [hfailure, hwhole] at h
  dsimp only [Transfer.taken] at h
  cases hmoved : (founded.put vacant (.file content)).rename draft path with
  | error reason =>
      rw [hmoved] at h
      obtain ⟨rfl, rfl⟩ := Prod.mk.inj h
      rw [Disk.unlink_draft hplace hvacant]
      exact .unmoved hensured hplace hvacant hmoved
  | ok renamed =>
  rw [hmoved] at h
  obtain ⟨rfl, rfl⟩ := Prod.mk.inj h
  obtain ⟨location, hlocation, hnode, rfl⟩ := Disk.rename_draft hplace hvacant hmoved
  by_cases hsame : location = vacant
  · rw [hsame, Disk.unlink_draft hplace hvacant]
    exact .lost hensured (hsame ▸ hlocation) (hname ▸ hplace)
  · rw [Disk.unlink_moved hplace hvacant hnode hsame]
    exact .moved hensured hdrafted hwhole hlocation hnode

/-- A file that could not be written has left nothing but the directories that were made. -/
theorem founded_of_writeWhole {disk after : Disk} {path : String} {content : Bytes} {means : Means}
    {error : BuildError} (h : writeWhole disk path content means = (after, .error error)) :
    ∃ ensured, disk.ensureDirectories (Path.parent path) = (after, ensured) := by
  cases writing_of_writeWhole h with
  | unfounded hfounded => exact ⟨_, hfounded⟩
  | undrafted hfounded | unfilled hfounded | unmoved hfounded => exact ⟨_, hfounded⟩

section Changes

variable {disk after : Disk} {path : String} {content : Bytes} {means : Means}

/-- A file that could not be written has changed nothing but for the directories that were made. -/
theorem changesOnly_unwritten {error : BuildError}
    (h : writeWhole disk path content means = (after, .error error)) (changed : Location → Prop) :
    Disk.ChangesOnly changed disk after := by
  obtain ⟨ensured, hfounded⟩ := founded_of_writeWhole h
  exact .of_ensureFirst changed hfounded

/-- A file that was written as a whole is the only one that changed. -/
theorem changesOnly_written (h : writeWhole disk path content means = (after, .ok ())) :
    Disk.ChangesOnly (· = disk.destination path) disk after := by
  cases writing_of_writeWhole h with
  | @moved _ _ _ location hfounded _ _ hplace hfree =>
      have hchange := Disk.ChangesOnly.of_ensureFirst (· = disk.destination path) hfounded
      have hlocation : location = disk.destination path :=
        (Disk.place_eq_destination hplace).trans (hchange.destination_eq path)
      exact hchange.trans (.put _ hfree (.inr hlocation) (.inr hlocation))
  | lost hfounded => exact .of_ensureFirst _ hfounded

end Changes

/-! ### The names of drafts and of artifacts -/

/-- What the name of a draft looks like. -/
def draftName (number : Nat) : String :=
  ".plc0-" ++ showNat number

theorem draftName_isName (number : Nat) :
    Path.IsName (draftName number).toList ∧
      ∃ digit, (draftName number).toList.getLast? = some digit ∧ isDigit digit = true := by
  have hsigns : (draftName number).toList = ".plc0-".toList ++ decimalDigits number := by
    rw [draftName, String.toList_append]
    exact congrArg _ String.toList_ofList
  have hdigits : decimalDigits number ≠ [] := List.ne_nil_of_length_pos Nat.length_toDigits_pos
  obtain ⟨digit, hlast⟩ := Option.ne_none_iff_exists'.mp (mt List.getLast?_eq_none_iff.mp hdigits)
  have hdigit := isDigit_of_mem_decimalDigits (List.mem_of_getLast? hlast)
  have hends : (draftName number).toList.getLast? = some digit := by
    rw [hsigns, List.getLast?_append_of_ne_nil _ hdigits, hlast]
  refine ⟨⟨?_, digit, hends, ?_⟩, digit, hends, hdigit⟩
  · rw [hsigns, List.mem_append, not_or]
    refine ⟨by decide, fun hslash => ?_⟩
    exact absurd (isDigit_of_mem_decimalDigits hslash) (by decide)
  · rintro rfl
    exact absurd hdigit (by decide)

theorem parts_draftIn (dir : String) (number : Nat) :
    Path.parts (draftIn dir (showNat number)) = Path.parts dir ++ [draftName number] := by
  have hname := (draftName_isName number).1
  rw [draftIn]
  split
  · next hslash =>
      rw [Disk.endsWithSlash, beq_iff_eq] at hslash
      obtain ⟨before, hbefore⟩ := List.getLast?_eq_some_iff.mp hslash
      have hdir : dir = String.ofList before ++ "/" := by
        rw [← String.toList_inj, hbefore, String.toList_append, String.toList_ofList]
        rfl
      rw [hdir, Path.parts_slash_empty]
      exact Path.parts_join _ hname
  · exact Path.parts_join dir hname

end PlZero.Command

namespace PlZero.Files.Disk

open PlZero.Text PlZero.Machine PlZero.Command

theorem destination_of_parts (disk : Disk) {path last : String} {others : List String}
    (hparts : Path.parts path = others ++ [last]) (hlast : Path.IsName last.toList) :
    (disk.destination path).getLast? = some last := by
  obtain ⟨hdot, hdots⟩ := hlast.ne_dots
  rw [destination, hparts, List.foldl_append, List.foldl_cons, List.foldl_nil, stepFrom, if_neg hdot,
    if_neg hdots, List.getLast?_concat]

/-- No draft has the place of an artifact. -/
theorem destination_draft_ne {format : String} (h : Artifact.isFormat format = true) (disk : Disk)
    (dir source outputDir : String) (number : Nat) :
    disk.destination (draftIn dir (showNat number)) ≠
      disk.destination (Artifact.pathOf source outputDir format) := by
  intro hsame
  obtain ⟨hname, digit, hdigit, hisDigit⟩ := draftName_isName number
  have hparts := parts_draftIn dir number
  have hextension := isName_extensionOf h
  obtain ⟨before, hbefore⟩ := exists_pathOf h source outputDir
  obtain ⟨above, piece, habove, hartifact⟩ := Path.parts_append hextension before
  rw [← hbefore, String.ofList_toList] at habove
  have hends := destination_of_parts disk habove (by rwa [String.toList_ofList])
  rw [← hsame, destination_of_parts disk hparts hname, Option.some.injEq] at hends
  -- The last sign would be a digit and the last letter of an extension.
  rw [hends, String.toList_ofList, List.getLast?_append_of_ne_nil _ hextension.ne_nil] at hdigit
  rw [Artifact.isFormat, Bool.or_eq_true, beq_iff_eq, beq_iff_eq] at h
  rcases h with rfl | rfl
  · cases hdigit
    cases hisDigit
  · cases hdigit
    cases hisDigit

end PlZero.Files.Disk

namespace PlZero.Command

open PlZero.Text PlZero.Files PlZero.Machine PlZero.Project

/-- An artifact that was written as a whole is read as it was written. -/
theorem read_writeWhole {disk written : Disk} {source : String} {manifest : Manifest} {content : Bytes}
    {means : Means} (hformat : Artifact.isFormat manifest.format = true)
    (h : writeWhole disk (artifactPath manifest source) content means = (written, .ok ())) :
    written.read (artifactPath manifest source) = .ok content := by
  cases writing_of_writeWhole h with
  | moved _ _ _ hplace hfree =>
      exact Disk.read_put_of_find hfree content hplace (Disk.endsWithSlash_pathOf hformat _ _)
  | lost _ hplace hdraft =>
      have hsame := (Disk.place_eq_destination hdraft).symm.trans (Disk.place_eq_destination hplace)
      exact absurd hsame (Disk.destination_draft_ne hformat _ _ _ _ _)

end PlZero.Command

import PlZero.Command.Run
import PlZero.Proofs.ArchiveRows

/-! Files that are written are found again. A walk leaves directories only, so it takes the same way
whatever is put where no directory is; and the path of an artifact names a file, since the last part of
it ends with an extension. Main statements: a file that was put in its place is read from there, and the
log of a project does not hide a file. -/

namespace PlZero.Files.Path

/-- A text that can only name a file: no slash is in it, and it does not end with a dot. -/
structure IsName (name : List Char) : Prop where
  unbroken : '/' ∉ name
  last : ∃ mark, name.getLast? = some mark ∧ mark ≠ '.'

theorem IsName.ne_nil {name : List Char} (h : IsName name) : name ≠ [] := by
  rintro rfl
  obtain ⟨mark, hmark, -⟩ := h.last
  cases hmark

theorem IsName.behind {name : List Char} (h : IsName name) {piece : List Char}
    (hpiece : '/' ∉ piece) : IsName (piece ++ name) := by
  obtain ⟨mark, hmark, hdot⟩ := h.last
  refine ⟨?_, mark, ?_, hdot⟩
  · rw [List.mem_append, not_or]
    exact ⟨hpiece, h.unbroken⟩
  · rw [List.getLast?_append_of_ne_nil _ h.ne_nil, hmark]

theorem IsName.ne_dots {name : String} (h : IsName name.toList) : name ≠ "." ∧ name ≠ ".." := by
  obtain ⟨mark, hmark, hdot⟩ := h.last
  constructor <;>
  · rintro rfl
    cases hmark
    exact hdot rfl

theorem split_unbroken {name : List Char} (h : '/' ∉ name) : split name = [name] := by
  induction name with
  | nil => rfl
  | cons sign rest ih =>
      obtain ⟨hsign, hrest⟩ := List.ne_and_not_mem_of_not_mem_cons h
      exact split_cons_of_ne (Ne.symm hsign) (ih hrest)

theorem split_append {name : List Char} (h : '/' ∉ name) (before : List Char) :
    ∃ pieces piece, split (before ++ name) = pieces ++ [piece ++ name] ∧ '/' ∉ piece := by
  -- Only what stands behind the last slash of `before` gets longer.
  induction before with
  | nil => exact ⟨[], [], split_unbroken h, List.not_mem_nil⟩
  | cons sign rest ih =>
      obtain ⟨pieces, piece, hsplit, hpiece⟩ := ih
      by_cases hsign : sign = '/'
      · refine ⟨[] :: pieces, piece, ?_, hpiece⟩
        rw [List.cons_append, split, if_pos hsign, hsplit, List.cons_append]
      · cases pieces with
        | nil =>
            refine ⟨[], sign :: piece, split_cons_of_ne hsign hsplit, ?_⟩
            simp [hpiece, Ne.symm hsign]
        | cons first others =>
            exact ⟨(sign :: first) :: others, piece, split_cons_of_ne hsign hsplit, hpiece⟩

theorem filter_append_name {name : List Char} (h : IsName name) (pieces : List (List Char)) :
    (pieces ++ [name]).filter (fun piece => !piece.isEmpty) =
      pieces.filter (fun piece => !piece.isEmpty) ++ [name] := by
  rw [List.filter_append]
  simp [h.ne_nil]

theorem parts_append {name : List Char} (h : IsName name) (before : List Char) :
    ∃ others piece, parts (String.ofList (before ++ name)) =
      others ++ [String.ofList (piece ++ name)] ∧ IsName (piece ++ name) := by
  obtain ⟨pieces, piece, hsplit, hpiece⟩ := split_append h.unbroken before
  have hname := h.behind hpiece
  refine ⟨(pieces.filter fun piece => !piece.isEmpty).map String.ofList, piece, ?_, hname⟩
  rw [parts, String.toList_ofList, hsplit, filter_append_name hname, List.map_append,
    List.map_singleton]

/-- A path behind another one. -/
theorem join_pair {dir path : String} (hdir : dir ≠ "") (hpath : path ≠ "") :
    join [dir, path] = clean (dir ++ "/" ++ path) := by
  simp [join, hdir, hpath, String.append_assoc]

theorem isAbsolute_pair {dir : String} (hdir : dir ≠ "") (path : String) :
    isAbsolute (dir ++ "/" ++ path) = isAbsolute dir := by
  rw [String.append_assoc, isAbsolute_append hdir]

theorem parts_join (dir : String) {name : String} (h : IsName name.toList) :
    parts (dir ++ "/" ++ name) = parts dir ++ [name] := by
  have hsigns : (dir ++ "/" ++ name).toList = dir.toList ++ '/' :: name.toList := by
    simp
  rw [parts, hsigns, split_append_slash, split_unbroken h.unbroken, filter_append_name h,
    List.map_append, List.map_singleton, String.ofList_toList, parts]

theorem ofParts_append (rooted : Bool) (others : List String) (last : String) :
    ∃ before, (ofParts rooted (others ++ [last])).toList = before ++ last.toList := by
  have hjoined : ∃ before, ("/".intercalate (others ++ [last])).toList = before ++ last.toList := by
    cases others with
    | nil => exact ⟨[], by simp⟩
    | cons part rest =>
        rw [String.intercalate_append_of_ne_nil (List.cons_ne_nil _ _) (List.cons_ne_nil _ _),
          String.intercalate_singleton, String.toList_append]
        exact ⟨_, rfl⟩
  obtain ⟨before, hbefore⟩ := hjoined
  cases rooted with
  | true =>
      refine ⟨'/' :: before, ?_⟩
      rw [ofParts.eq_def, if_pos rfl, String.toList_append, hbefore]
      rfl
  | false =>
      refine ⟨before, ?_⟩
      rw [← hbefore]
      cases others <;> rfl

theorem clean_of_parts {path : String} {others : List String} {last : String}
    (hparts : parts path = others ++ [last]) (hlast : IsName last.toList) :
    ∃ before, (clean path).toList = before ++ last.toList := by
  obtain ⟨hdot, hdots⟩ := hlast.ne_dots
  have hpush (rooted : Bool) (found : List String) : push rooted found last = last :: found := by
    rw [push.eq_def, if_neg hdot, if_neg hdots]
  rw [clean, hparts, normal, List.foldl_append, List.foldl_cons, List.foldl_nil, hpush,
    List.reverse_cons]
  exact ofParts_append _ _ _

end PlZero.Files.Path

namespace PlZero.Files.Disk

open PlZero.Text PlZero.Attempt PlZero.Machine

theorem endsWithSlash_of_isName {path : String} {before name : List Char} (h : Path.IsName name)
    (hpath : path.toList = before ++ name) : endsWithSlash path = false := by
  rw [endsWithSlash, hpath, List.getLast?_append_of_ne_nil _ h.ne_nil]
  refine beq_false_of_ne fun hslash => h.unbroken ?_
  exact List.mem_of_getLast? hslash

theorem isName_extensionOf {format : String} (h : Artifact.isFormat format = true) :
    Path.IsName (Artifact.extensionOf format).toList := by
  rw [Artifact.isFormat, Bool.or_eq_true, beq_iff_eq, beq_iff_eq] at h
  rcases h with rfl | rfl
  · exact ⟨by decide, 's', rfl, by decide⟩
  · exact ⟨by decide, 'n', rfl, by decide⟩

/-- The path of an artifact ends with the extension of its format. -/
theorem exists_pathOf {format : String} (h : Artifact.isFormat format = true)
    (source outputDir : String) : ∃ before,
      (Artifact.pathOf source outputDir format).toList =
        before ++ (Artifact.extensionOf format).toList := by
  have hextension := isName_extensionOf h
  have hbeside : ∃ before, (Path.withExtension source (Artifact.extensionOf format)).toList =
      before ++ (Artifact.extensionOf format).toList := by
    rw [Path.withExtension, String.toList_append]
    exact ⟨_, rfl⟩
  obtain ⟨before, hbefore⟩ := hbeside
  rw [Artifact.pathOf]
  split
  · exact ⟨before, hbefore⟩
  · next hdir =>
      obtain ⟨others, piece, hparts, hlast⟩ := Path.parts_append hextension before
      generalize hname : String.ofList (piece ++ (Artifact.extensionOf format).toList) = last at hparts
      have hsigns : last.toList = piece ++ (Artifact.extensionOf format).toList := by
        rw [← hname, String.toList_ofList]
      rw [← hsigns] at hlast
      have hbase : Path.base (Path.withExtension source (Artifact.extensionOf format)) = last := by
        rw [Path.base, ← String.ofList_toList (s := Path.withExtension _ _), hbefore, hparts,
          List.getLast?_append_of_ne_nil _ (List.cons_ne_nil _ _)]
        rfl
      have hne : last ≠ "" := by
        rintro rfl
        exact hlast.ne_nil rfl
      obtain ⟨ahead, hahead⟩ := Path.clean_of_parts (Path.parts_join outputDir hlast) hlast
      rw [hbase, Path.join_pair hdir hne, hahead, hsigns, ← List.append_assoc]
      exact ⟨_, rfl⟩

/-- The path of an artifact names a file. -/
theorem endsWithSlash_pathOf {format : String} (h : Artifact.isFormat format = true)
    (source outputDir : String) :
    endsWithSlash (Artifact.pathOf source outputDir format) = false := by
  obtain ⟨before, hbefore⟩ := exists_pathOf h source outputDir
  exact endsWithSlash_of_isName (isName_extensionOf h) hbefore

/-! ### Reading behind a put -/

theorem node?_put_self {disk : Disk} {location : Location} (h : disk.node? location ≠ some .directory)
    (node : Node) : (disk.put location node).node? location = some node := by
  have hroot : location ≠ [] := by
    rintro rfl
    exact h rfl
  rw [node?_put, if_neg hroot, if_pos rfl]

theorem ne_directory_of_vacant {disk : Disk} {location : Location} (h : disk.node? location = none) :
    disk.node? location ≠ some .directory := by
  rw [h]
  rintro ⟨⟩

theorem makeDirectory_eq_ok {disk made : Disk} {path : String}
    (h : disk.makeDirectory path = .ok made) : ∃ location, disk.place path = .ok location ∧
      disk.node? location = none ∧ made = disk.put location .directory := by
  obtain ⟨location, hplace, hmade⟩ := bind_eq_ok_iff.mp h
  refine ⟨location, hplace, ?_⟩
  split at hmade
  · cases hmade
  · next hnone => exact ⟨hnone, (Except.ok.inj hmade).symm⟩

theorem node?_put_of_ne {disk : Disk} {location other : Location} (h : other ≠ location)
    (node : Node) : (disk.put location node).node? other = disk.node? other := by
  rw [node?_put, if_neg h]
  split
  · next hroot =>
      rw [hroot]
      rfl
  · rfl

variable {disk : Disk} {vacant : Location} (hvacant : disk.node? vacant ≠ some .directory)

include hvacant

theorem walk_put (node : Node) {start location : Location} {parts : List String}
    (h : disk.walk start parts = .ok location) :
    (disk.put vacant node).walk start parts = .ok location := by
  induction parts generalizing start with
  | nil => exact h
  | cons part rest ih =>
      rw [walk] at h ⊢
      cases hnode : disk.node? start with
      | none =>
          rw [hnode] at h
          cases h
      | some found =>
          rw [hnode] at h
          cases found with
          | file content => cases h
          | archive table => cases h
          | directory =>
              -- The walk goes on from a directory, so not from the place where the node is put.
              have hstart : start ≠ vacant := by
                rintro rfl
                exact hvacant hnode
              rw [node?_put_of_ne hstart, hnode]
              dsimp only at h ⊢
              split at h
              · cases h
              · next hshort =>
                  rw [if_neg hshort]
                  exact ih h

theorem place_put (node : Node) {path : String} {location : Location}
    (h : disk.place path = .ok location) : (disk.put vacant node).place path = .ok location := by
  rw [place] at h ⊢
  split_ifs at h ⊢ <;> exact walk_put hvacant node h

theorem read_put_of_find (content : Bytes) {path : String} (hplace : disk.place path = .ok vacant)
    (hpath : endsWithSlash path = false) :
    (disk.put vacant (.file content)).read path = .ok content := by
  have hfind : (disk.put vacant (.file content)).find path = .ok (vacant, .file content) := by
    rw [find, place_put hvacant _ hplace, ok_bind, node?_put_self hvacant]
    dsimp only
    rw [hpath]
    rfl
  rw [read, hfind]

omit hvacant in
theorem read_put_of_vacant (hvacant : disk.node? vacant = none) (node : Node) {path : String}
    {content : Bytes} (h : disk.read path = .ok content) :
    (disk.put vacant node).read path = .ok content := by
  have hnone := ne_directory_of_vacant hvacant
  have hfind {found : Location × Node} (h : disk.find path = .ok found) :
      (disk.put vacant node).find path = .ok found := by
    rw [find] at h ⊢
    obtain ⟨location, hplace, hnode⟩ := bind_eq_ok_iff.mp h
    rw [place_put hnone node hplace, ok_bind]
    have hlocation : location ≠ vacant := by
      rintro rfl
      rw [hvacant] at hnode
      cases hnode
    rwa [node?_put_of_ne hlocation]
  rw [read] at h ⊢
  cases hfound : disk.find path with
  | error reason =>
      rw [hfound] at h
      cases h
  | ok found =>
      rw [hfound] at h
      rw [hfind hfound]
      exact h

end PlZero.Files.Disk

namespace PlZero.Command

open PlZero.Text PlZero.Files PlZero.Attempt PlZero.Project PlZero.Machine

/-- The log file of a project is new if it is made at all, so it hides no file. -/
theorem read_startLog {disk : Disk} {path : String} {content : Bytes} (manifest : Manifest)
    (h : disk.read path = .ok content) : (startLog disk manifest).read path = .ok content := by
  rw [startLog]
  split
  · exact h
  · rw [Disk.create]
    cases hplace : disk.place manifest.fullLogFile with
    | error reason => exact h
    | ok location =>
        dsimp only
        split
        · exact h
        · cases hnode : disk.node? location with
          | some node => exact h
          | none => exact Disk.read_put_of_vacant hnode _ h

end PlZero.Command

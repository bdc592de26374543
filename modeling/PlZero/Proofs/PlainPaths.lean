import PlZero.Proofs.Founding

/-! Paths of plain names. An absolute path is made of names that lead one directory down each, and going up
takes the last of them off, until the root is its own directory. Names that are too long are plain as
well. -/

namespace PlZero.Files.Path

/-- A part that leads one directory down. -/
structure IsPlain (part : String) : Prop extends IsPart part where
  ne_dot : part ≠ "."
  ne_dots : part ≠ ".."

theorem push_of_isPlain {part : String} (h : IsPlain part) (rooted : Bool) (found : List String) :
    push rooted found part = part :: found := by
  rw [push.eq_def, if_neg h.ne_dot, if_neg h.ne_dots]

theorem foldl_push_of_isPlain {parts : List String} (h : ∀ part ∈ parts, IsPlain part) (rooted : Bool)
    (found : List String) : parts.foldl (push rooted) found = parts.reverse ++ found := by
  induction parts generalizing found with
  | nil => rfl
  | cons part rest ih =>
      obtain ⟨hpart, hrest⟩ := List.forall_mem_cons.mp h
      rw [List.foldl_cons, push_of_isPlain hpart, ih hrest, List.reverse_cons, List.append_assoc,
        List.singleton_append]

theorem normal_of_isPlain {parts : List String} (h : ∀ part ∈ parts, IsPlain part) (rooted : Bool) :
    normal rooted parts = parts := by
  rw [normal, foldl_push_of_isPlain h, List.append_nil, List.reverse_reverse]

/-- Behind the root nothing but plain names is left. -/
theorem isPlain_normal (path : String) : ∀ part ∈ normal true (parts path), IsPlain part := by
  intro part hpart
  obtain ⟨ups, names, hnormal, hups, hnames⟩ :=
    (isNormal_foldl (isNormal_nil true) (parts path)).reverse
  obtain rfl := hups rfl
  rw [List.replicate_zero, List.nil_append] at hnormal
  have hdots := hnames part (hnormal ▸ hpart)
  exact ⟨isPart_normal hpart, hdots.1, hdots.2⟩

section Rooted

variable {names : List String} (hnames : ∀ name ∈ names, IsPlain name)
include hnames

theorem parts_rooted : parts (ofParts true names) = names :=
  parts_ofParts (fun name hname => (hnames name hname).toIsPart) true

theorem clean_rooted : clean (ofParts true names) = ofParts true names := by
  have habsolute := isAbsolute_ofParts (fun name hname => (hnames name hname).toIsPart) true
  rw [clean, habsolute, parts_rooted hnames, normal_of_isPlain hnames]

end Rooted

theorem isAbsolute_rooted (names : List String) : isAbsolute (ofParts true names) = true := by
  rw [ofParts.eq_def, if_pos rfl, isAbsolute, String.toList_append]
  rfl

theorem ne_empty_of_isAbsolute {path : String} (h : isAbsolute path = true) : path ≠ "" := by
  rintro rfl
  cases h

/-- Going up takes the last name off. -/
theorem parent_concat {names : List String} {last : String}
    (hnames : ∀ name ∈ names ++ [last], IsPlain name) :
    parent (ofParts true (names ++ [last])) = ofParts true names := by
  rw [List.forall_mem_append, List.forall_mem_singleton] at hnames
  obtain ⟨hnames, hlast⟩ := hnames
  by_cases hroot : names = []
  · have hwhole : ofParts true (names ++ [last]) = "" ++ "/" ++ last := by
      rw [hroot]
      simp [ofParts]
    rw [hwhole, parent_slash "" hlast.unbroken, hroot]
    decide
  · have hsome := ne_empty_of_isAbsolute (isAbsolute_rooted names)
    rw [ofParts_concat true hroot, parent_slash _ hlast.unbroken, clean, isAbsolute_append hsome,
      parts_slash_empty, isAbsolute_rooted, parts_rooted hnames, normal_of_isPlain hnames]

theorem parent_root : parent (ofParts true []) = ofParts true [] := by
  decide

theorem parent_concat_ne {names : List String} {last : String}
    (hnames : ∀ name ∈ names ++ [last], IsPlain name) :
    parent (ofParts true (names ++ [last])) ≠ ofParts true (names ++ [last]) := by
  intro hsame
  have hbefore := (List.forall_mem_append.mp hnames).1
  rw [parent_concat hnames] at hsame
  have hparts := congrArg parts hsame
  rw [parts_rooted hbefore, parts_rooted hnames] at hparts
  exact List.cons_ne_nil _ _ (List.self_eq_append_right.mp hparts)

/-- A name of so many letters. -/
def nameOf (length : Nat) : String :=
  String.ofList (List.replicate length 'n')

theorem length_nameOf (length : Nat) : (nameOf length).length = length := by
  rw [nameOf, String.length_ofList, List.length_replicate]

theorem utf8ByteSize_nameOf (length : Nat) : (nameOf length).utf8ByteSize = length := by
  induction length with
  | zero => rfl
  | succ length ih =>
      have hsplit : nameOf (length + 1) = "n" ++ nameOf length := by
        change String.ofList (['n'] ++ List.replicate length 'n') = _
        rw [String.ofList_append]
        rfl
      rw [hsplit, String.utf8ByteSize_append, ih, show "n".utf8ByteSize = 1 from rfl, Nat.add_comm]

theorem isPlain_nameOf {length : Nat} (h : 2 < length) : IsPlain (nameOf length) := by
  have hlong (other : String) (hother : other.length ≤ 2) : nameOf length ≠ other := by
    rintro rfl
    rw [length_nameOf] at hother
    omega
  refine ⟨⟨hlong "" (by decide), fun hslash => ?_⟩, hlong "." (by decide), hlong ".." (by decide)⟩
  rw [nameOf, String.toList_ofList] at hslash
  cases List.eq_of_mem_replicate hslash

/-- The room that equal names take in an absolute path. -/
theorem utf8ByteSize_replicate (name : String) (count : Nat) :
    (ofParts true (List.replicate (count + 1) name)).utf8ByteSize =
      (count + 1) * (name.utf8ByteSize + 1) := by
  induction count with
  | zero =>
      show ("/" ++ "/".intercalate [name]).utf8ByteSize = _
      rw [String.intercalate_singleton, String.utf8ByteSize_append, show "/".utf8ByteSize = 1 from rfl]
      omega
  | succ count ih =>
      rw [List.replicate_succ', ofParts_concat true (by simp), String.utf8ByteSize_append,
        String.utf8ByteSize_append, ih, show "/".utf8ByteSize = 1 from rfl, Nat.succ_mul (count + 1)]
      omega

end PlZero.Files.Path

namespace PlZero.Files.Disk

/-- An absolute path is made of plain names. -/
theorem exists_absolute (disk : Disk) (path : String) : ∃ names,
    (∀ name ∈ names, Path.IsPlain name) ∧ disk.absolute path = Path.ofParts true names := by
  have hclean : ∀ whole, Path.isAbsolute whole = true → ∃ names,
      (∀ name ∈ names, Path.IsPlain name) ∧ Path.clean whole = Path.ofParts true names := by
    intro whole hwhole
    refine ⟨_, Path.isPlain_normal whole, ?_⟩
    rw [Path.clean, hwhole]
  rw [absolute, Path.absolute]
  split
  · next habsolute => exact hclean path habsolute
  · have hhome : Path.isAbsolute disk.homePath = true := Path.isAbsolute_rooted disk.home
    have hsome := Path.ne_empty_of_isAbsolute hhome
    by_cases hpath : path = ""
    · subst hpath
      have hjoin : Path.join [disk.homePath, ""] = Path.clean disk.homePath := by
        simp [Path.join, hsome]
      exact hjoin ▸ hclean _ hhome
    · rw [Path.join_pair hsome hpath]
      exact hclean _ ((Path.isAbsolute_pair hsome path).trans hhome)

theorem absolute_rooted (disk : Disk) {names : List String}
    (hnames : ∀ name ∈ names, Path.IsPlain name) :
    disk.absolute (Path.ofParts true names) = Path.ofParts true names := by
  rw [absolute, Path.absolute, if_pos (Path.isAbsolute_rooted names), Path.clean_rooted hnames]

theorem destination_rooted (disk : Disk) {names : List String}
    (hnames : ∀ name ∈ names, Path.IsPlain name) :
    disk.destination (Path.ofParts true names) = names := by
  rw [destination, Path.parts_rooted hnames, Path.isAbsolute_rooted,
    foldl_names fun name hname => ⟨(hnames name hname).ne_dot, (hnames name hname).ne_dots⟩]
  rfl

/-- Plain names lead to what is there, if their path can be looked up. -/
theorem IsTree.place_rooted {disk : Disk} (h : disk.IsTree) {names : List String}
    (hnames : ∀ name ∈ names, Path.IsPlain name) (hnode : disk.node? names ≠ none)
    (hfits : Fits (Path.ofParts true names)) : disk.place (Path.ofParts true names) = .ok names := by
  refine place_eq_ok_iff_leads.mpr ⟨hfits, ?_, (disk.destination_rooted hnames).symm⟩
  rw [Path.parts_rooted hnames, Path.isAbsolute_rooted]
  intro before part hbefore
  have hplain (name : String) (hname : name ∈ before) :=
    hnames name (hbefore.subset (List.mem_append_left _ hname))
  show disk.node? (before.foldl stepFrom []) = some .directory
  rw [foldl_names fun name hname => ⟨(hplain name hname).ne_dot, (hplain name hname).ne_dots⟩,
    List.nil_append]
  apply h.above_of_ne_none ((List.prefix_append _ _).trans hbefore) ?_ hnode
  rintro rfl
  have hlength := hbefore.length_le
  rw [List.length_append, List.length_singleton] at hlength
  omega

end PlZero.Files.Disk

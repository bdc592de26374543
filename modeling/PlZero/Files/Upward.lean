import PlZero.Files.Path

/-! Going up from a path to its directory, and on from there. The directory of a path is shorter than the
path, unless it is the path itself: cleaning takes no room. So the way up comes to an end. -/

namespace PlZero.Files.Path

theorem split_ne_nil (signs : List Char) : split signs ≠ [] := by
  cases signs with
  | nil => exact List.cons_ne_nil _ _
  | cons sign rest =>
      rw [split]
      split
      · exact List.cons_ne_nil _ _
      · split <;> exact List.cons_ne_nil _ _

theorem split_cons_of_ne {sign : Char} (h : sign ≠ '/') {rest piece : List Char}
    {pieces : List (List Char)} (hrest : split rest = piece :: pieces) :
    split (sign :: rest) = (sign :: piece) :: pieces := by
  rw [split, if_neg h, hrest]

theorem split_append_slash (before after : List Char) :
    split (before ++ '/' :: after) = split before ++ split after := by
  induction before with
  | nil =>
      rw [List.nil_append]
      conv => lhs; rw [split, if_pos rfl]
      rfl
  | cons sign rest ih =>
      by_cases hsign : sign = '/'
      · rw [List.cons_append, split, if_pos hsign, split, if_pos hsign, ih, List.cons_append]
      · obtain ⟨piece, pieces, hrest⟩ := List.exists_cons_of_ne_nil (split_ne_nil rest)
        rw [hrest, List.cons_append] at ih
        rw [List.cons_append, split_cons_of_ne hsign ih, split_cons_of_ne hsign hrest,
          List.cons_append]

theorem parts_slash (before after : String) :
    parts (before ++ "/" ++ after) = parts before ++ parts after := by
  have hsigns : (before ++ "/" ++ after).toList = before.toList ++ '/' :: after.toList := by
    simp
  rw [parts, hsigns, split_append_slash, List.filter_append, List.map_append, parts, parts]

theorem parts_slash_empty (path : String) : parts (path ++ "/") = parts path := by
  have hslash := parts_slash path ""
  rwa [String.append_empty, show parts "" = [] from rfl, List.append_nil] at hslash

theorem isAbsolute_append {before : String} (h : before ≠ "") (after : String) :
    isAbsolute (before ++ after) = isAbsolute before := by
  obtain ⟨sign, rest, hsigns⟩ := List.exists_cons_of_ne_nil (mt String.toList_eq_nil_iff.mp h)
  rw [isAbsolute, isAbsolute, String.toList_append, hsigns]
  rfl

theorem exists_last (signs : List Char) :
    '/' ∉ signs ∨ ∃ up last, signs = up ++ '/' :: last ∧ '/' ∉ last := by
  induction signs with
  | nil => exact .inl List.not_mem_nil
  | cons sign rest ih =>
      obtain hrest | ⟨up, last, rfl, hlast⟩ := ih
      · by_cases hsign : '/' = sign
        · exact .inr ⟨[], rest, by rw [hsign, List.nil_append], hrest⟩
        · exact .inl (List.not_mem_cons_of_ne_of_not_mem hsign hrest)
      · exact .inr ⟨sign :: up, last, rfl, hlast⟩

theorem all_ne_slash {signs : List Char} (h : '/' ∉ signs) :
    ∀ sign ∈ signs.reverse, (sign != '/') = true := by
  intro sign hsign
  rw [bne_iff_ne]
  rintro rfl
  exact h (List.mem_reverse.mp hsign)

/-- The directory of a path is what stands before its last slash. -/
theorem parent_slash (up : String) {last : String} (h : '/' ∉ last.toList) :
    parent (up ++ "/" ++ last) = clean (up ++ "/") := by
  have hsigns : (up ++ "/" ++ last).toList.reverse =
      last.toList.reverse ++ '/' :: up.toList.reverse := by
    simp
  rw [parent, hsigns, List.dropWhile_append_of_pos (all_ne_slash h),
    List.dropWhile_cons_of_neg (by decide), List.reverse_cons, List.reverse_reverse,
    String.ofList_append, String.ofList_toList]

theorem parent_unbroken {path : String} (h : '/' ∉ path.toList) : parent path = "." := by
  have hnone : path.toList.reverse.dropWhile (· != '/') = [] := by
    rw [← List.append_nil path.toList.reverse, List.dropWhile_append_of_pos (all_ne_slash h),
      List.dropWhile_nil]
  rw [parent, hnone]
  decide

/-- A path is one name, or it is a directory and what stands behind its last slash. -/
theorem parent_cases (path : String) :
    '/' ∉ path.toList ∧ parent path = "." ∨
      ∃ up last, path = up ++ "/" ++ last ∧ '/' ∉ last.toList ∧ parent path = clean (up ++ "/") := by
  obtain hunbroken | ⟨up, last, hpath, hlast⟩ := exists_last path.toList
  · exact .inl ⟨hunbroken, parent_unbroken hunbroken⟩
  · rw [← String.toList_ofList (l := last)] at hlast
    have hwhole : path = String.ofList up ++ "/" ++ String.ofList last := by
      rw [← String.toList_inj, hpath]
      simp
    refine .inr ⟨_, _, hwhole, hlast, ?_⟩
    rw [hwhole, parent_slash _ hlast]

/-- The room that parts take in a path, each with a slash. -/
def room : List String → Nat
  | [] => 0
  | part :: rest => part.length + 1 + room rest

theorem room_append (parts rest : List String) : room (parts ++ rest) = room parts + room rest := by
  induction parts with
  | nil => exact (Nat.zero_add _).symm
  | cons part parts ih =>
      rw [List.cons_append, room, ih, room]
      omega

theorem room_reverse (parts : List String) : room parts.reverse = room parts := by
  induction parts with
  | nil => rfl
  | cons part rest ih =>
      rw [List.reverse_cons, room_append, ih, room, room, room]
      omega

theorem length_intercalate (parts : List String) :
    ("/".intercalate parts).length = room parts - 1 := by
  induction parts with
  | nil => rfl
  | cons part rest ih =>
      cases rest with
      | nil => simp [room]
      | cons next others =>
          rw [String.intercalate_cons_cons, String.length_append, String.length_append, ih]
          simp only [room, show "/".length = 1 from rfl]
          omega

theorem length_ofParts_le (rooted : Bool) (parts : List String) :
    (ofParts rooted parts).length ≤ max 1 (room parts - if rooted then 0 else 1) := by
  cases rooted with
  | true =>
      rw [ofParts.eq_def, if_pos rfl, String.length_append, length_intercalate, if_pos rfl,
        show "/".length = 1 from rfl]
      omega
  | false =>
      cases parts with
      | nil => decide
      | cons part rest =>
          have hjoined : ofParts false (part :: rest) = "/".intercalate (part :: rest) := rfl
          rw [hjoined, length_intercalate]
          exact Nat.le_max_right 1 _

theorem room_push_le (rooted : Bool) (found : List String) (part : String) :
    room (push rooted found part) ≤ room found + (part.length + 1) := by
  rw [push.eq_def]
  by_cases hdot : part = "."
  · rw [if_pos hdot]
    omega
  rw [if_neg hdot]
  by_cases hdots : part = ".."
  · rw [if_pos hdots, hdots]
    cases found with
    | nil => cases rooted <;> decide
    | cons latest rest =>
        dsimp only
        by_cases hlatest : latest = ".."
        · rw [if_pos hlatest, room]
          omega
        · rw [if_neg hlatest, room]
          omega
  · rw [if_neg hdots, room]
    omega

theorem room_foldl_push_le (rooted : Bool) (found rest : List String) :
    room (rest.foldl (push rooted) found) ≤ room found + room rest := by
  induction rest generalizing found with
  | nil => exact Nat.le_refl _
  | cons part rest ih =>
      have hstep := room_push_le rooted found part
      have hrest := ih (push rooted found part)
      rw [List.foldl_cons, room]
      omega

/-- Working `.` and `..` out takes no room. -/
theorem room_normal_le (rooted : Bool) (parts : List String) :
    room (normal rooted parts) ≤ room parts := by
  have hfold := room_foldl_push_le rooted [] parts
  rw [normal, room_reverse]
  rwa [show room [] = 0 from rfl, Nat.zero_add] at hfold

theorem room_split (signs : List Char) :
    room ((split signs).map String.ofList) = signs.length + 1 := by
  induction signs with
  | nil => rfl
  | cons sign rest ih =>
      by_cases hsign : sign = '/'
      · rw [split, if_pos hsign, List.map_cons, room, ih, String.length_ofList, List.length_nil,
          List.length_cons]
        omega
      · obtain ⟨piece, pieces, hrest⟩ := List.exists_cons_of_ne_nil (split_ne_nil rest)
        rw [hrest, List.map_cons, room, String.length_ofList] at ih
        rw [split_cons_of_ne hsign hrest, List.map_cons, room, String.length_ofList,
          List.length_cons, List.length_cons]
        omega

theorem room_kept_le (pieces : List (List Char)) :
    room ((pieces.filter fun piece => !piece.isEmpty).map String.ofList) ≤
      room (pieces.map String.ofList) := by
  induction pieces with
  | nil => exact Nat.le_refl _
  | cons piece pieces ih =>
      rw [List.map_cons, room, List.filter_cons]
      split
      · rw [List.map_cons, room]
        exact Nat.add_le_add_left ih _
      · omega

/-- The parts of a path have room in it; the first slash of an absolute path is to spare. -/
theorem room_parts_le (path : String) :
    room (parts path) ≤ path.length + 1 - if isAbsolute path then 1 else 0 := by
  rw [parts, isAbsolute, ← String.length_toList]
  cases path.toList with
  | nil => decide
  | cons sign rest =>
      by_cases hsign : sign = '/'
      · have hkept := room_kept_le (split rest)
        rw [room_split] at hkept
        rw [split, if_pos hsign, List.filter_cons_of_neg (by simp), hsign, if_pos (by simp),
          List.length_cons]
        omega
      · have hkept := room_kept_le (split (sign :: rest))
        rw [room_split] at hkept
        rw [if_neg (by simpa using hsign)]
        exact hkept

theorem length_clean_slash_le (up : String) : (clean (up ++ "/")).length ≤ max 1 up.length := by
  by_cases hup : up = ""
  · rw [hup]
    decide
  · have hlength := length_ofParts_le (isAbsolute up) (normal (isAbsolute up) (parts up))
    have hnormal := room_normal_le (isAbsolute up) (parts up)
    have hroom := room_parts_le up
    rw [clean, isAbsolute_append hup, parts_slash_empty]
    cases hrooted : isAbsolute up <;> rw [hrooted] at hlength hnormal hroom <;>
      simp only [if_true, Bool.false_eq_true, if_false] at hlength hroom <;> omega

/-! ### The way up -/

/-- How far up from a path it goes at most. -/
def height (path : String) : Nat :=
  if path = "." then 0 else path.length + 1

theorem height_parent_lt {path : String} (h : parent path ≠ path) :
    height (parent path) < height path := by
  have hdot : path ≠ "." := by
    rintro rfl
    exact h (by decide)
  rw [height.eq_def path, if_neg hdot]
  obtain ⟨-, hparent⟩ | ⟨up, last, rfl, -, hparent⟩ := parent_cases path
  · rw [hparent]
    exact Nat.succ_pos _
  · have hlength := length_clean_slash_le up
    have hlong : up ≠ "" ∨ last ≠ "" := by
      refine Decidable.not_and_iff_or_not.mp ?_
      rintro ⟨rfl, rfl⟩
      exact h (by decide)
    have hsome : 0 < up.length ∨ 0 < last.length := by
      simpa only [Nat.pos_iff_ne_zero, Ne, String.length_eq_zero_iff] using hlong
    rw [← hparent] at hlength
    rw [height, String.length_append, String.length_append, show "/".length = 1 from rfl]
    split <;> omega

end PlZero.Files.Path

import PlZero.Proofs.DiskChanges

/-! Cleaned paths. The text of a path is made of its parts and gives them back; cleaning works `.` and
`..` out on the text, and on a disk that comes to the same place by directories that the path goes
through anyway. Main statements: a cleaned path leads to the same place, it can be walked where the path
can, and what lies above it on the way are the places above its own, or the ones above the directory in
which a command works. -/

namespace PlZero.Files.Path

/-- What stands between the slashes of a path. -/
structure IsPart (part : String) : Prop where
  ne_empty : part ≠ ""
  unbroken : '/' ∉ part.toList

theorem unbroken_of_mem_split {signs piece : List Char} (h : piece ∈ split signs) : '/' ∉ piece := by
  induction signs generalizing piece with
  | nil =>
      rw [split, List.mem_singleton] at h
      rw [h]
      exact List.not_mem_nil
  | cons sign rest ih =>
      by_cases hsign : sign = '/'
      · rw [split, if_pos hsign] at h
        rcases List.mem_cons.mp h with rfl | hrest
        · exact List.not_mem_nil
        · exact ih hrest
      · obtain ⟨first, others, hrest⟩ := List.exists_cons_of_ne_nil (split_ne_nil rest)
        rw [split_cons_of_ne hsign hrest] at h
        rw [hrest] at ih
        rcases List.mem_cons.mp h with rfl | hother
        · rw [List.mem_cons, not_or]
          exact ⟨Ne.symm hsign, ih List.mem_cons_self⟩
        · exact ih (List.mem_cons_of_mem _ hother)

theorem isPart_of_mem_parts {path part : String} (h : part ∈ parts path) : IsPart part := by
  obtain ⟨piece, hpiece, rfl⟩ := List.mem_map.mp h
  obtain ⟨hsplit, hfull⟩ := List.mem_filter.mp hpiece
  refine ⟨?_, ?_⟩
  · rw [Ne, String.ofList_eq_empty_iff]
    rintro rfl
    cases hfull
  · rw [String.toList_ofList]
    exact unbroken_of_mem_split hsplit

theorem parts_of_isPart {part : String} (h : IsPart part) : parts part = [part] := by
  have hfull : part.toList ≠ [] := fun hnil => h.ne_empty (String.toList_eq_nil_iff.mp hnil)
  rw [parts, split_unbroken h.unbroken, List.filter_cons_of_pos (by simpa using hfull),
    List.filter_nil, List.map_singleton, String.ofList_toList]

theorem parts_intercalate {found : List String} (h : ∀ part ∈ found, IsPart part) :
    parts ("/".intercalate found) = found := by
  induction found with
  | nil => rfl
  | cons part rest ih =>
      obtain ⟨hpart, hrest⟩ := List.forall_mem_cons.mp h
      cases rest with
      | nil => rw [String.intercalate_singleton, parts_of_isPart hpart]
      | cons next others =>
          rw [String.intercalate_cons_cons, parts_slash, parts_of_isPart hpart, ih hrest,
            List.singleton_append]

theorem isAbsolute_of_isPart {part : String} (h : IsPart part) (after : String) :
    isAbsolute (part ++ after) = false := by
  obtain ⟨sign, rest, hsigns⟩ := List.exists_cons_of_ne_nil
    (mt String.toList_eq_nil_iff.mp h.ne_empty)
  have hsign : sign ≠ '/' := by
    rintro rfl
    exact h.unbroken (hsigns ▸ List.mem_cons_self)
  rw [isAbsolute, String.toList_append, hsigns, List.cons_append, List.head?_cons]
  simpa using hsign

theorem isAbsolute_ofParts {found : List String} (h : ∀ part ∈ found, IsPart part) (rooted : Bool) :
    isAbsolute (ofParts rooted found) = rooted := by
  cases rooted with
  | true =>
      rw [ofParts.eq_def, if_pos rfl, isAbsolute, String.toList_append]
      rfl
  | false =>
      cases found with
      | nil => rfl
      | cons part rest =>
          have hpart := h part List.mem_cons_self
          cases rest with
          | nil =>
              have habsolute := isAbsolute_of_isPart hpart ""
              rwa [String.append_empty] at habsolute
          | cons next others =>
              have habsolute := isAbsolute_of_isPart hpart ("/" ++ "/".intercalate (next :: others))
              rwa [← String.append_assoc, ← String.intercalate_cons_cons] at habsolute

/-- A path has the parts that it is made of; where there are none, it names the directory itself. -/
theorem parts_ofParts {found : List String} (h : ∀ part ∈ found, IsPart part) (rooted : Bool) :
    parts (ofParts rooted found) = if rooted || !found.isEmpty then found else ["."] := by
  cases rooted with
  | true =>
      have hslash := parts_slash "" ("/".intercalate found)
      rw [String.empty_append, parts_intercalate h] at hslash
      rw [ofParts.eq_def, if_pos rfl, hslash]
      rfl
  | false =>
      cases found with
      | nil => rfl
      | cons part rest =>
          have hjoined : ofParts false (part :: rest) = "/".intercalate (part :: rest) := rfl
          rw [hjoined, parts_intercalate h]
          rfl

theorem ofParts_concat (rooted : Bool) {found : List String} (hfound : found ≠ []) (part : String) :
    ofParts rooted (found ++ [part]) = ofParts rooted found ++ "/" ++ part := by
  have hjoined : "/".intercalate (found ++ [part]) = "/".intercalate found ++ "/" ++ part := by
    rw [String.intercalate_append_of_ne_nil hfound (List.cons_ne_nil _ _),
      String.intercalate_singleton]
  obtain ⟨first, others, rfl⟩ := List.exists_cons_of_ne_nil hfound
  cases rooted with
  | true =>
      show "/" ++ "/".intercalate (first :: others ++ [part]) = _
      rw [hjoined, ← String.append_assoc, ← String.append_assoc]
      rfl
  | false => exact hjoined

theorem parts_ne_nil {path : String} (hpath : path ≠ "") (hrelative : isAbsolute path = false) :
    parts path ≠ [] := by
  obtain ⟨sign, rest, hsigns⟩ := List.exists_cons_of_ne_nil (mt String.toList_eq_nil_iff.mp hpath)
  have hsign : sign ≠ '/' := by
    rintro rfl
    rw [isAbsolute, hsigns] at hrelative
    cases hrelative
  obtain ⟨piece, pieces, hrest⟩ := List.exists_cons_of_ne_nil (split_ne_nil rest)
  rw [parts, hsigns, split_cons_of_ne hsign hrest, List.filter_cons_of_pos rfl, List.map_cons]
  exact List.cons_ne_nil _ _

/-- What going one part further can do: nothing, stay at the root, take back the part before, or add the
part. A `..` is added only where nothing is to be taken back. -/
theorem push_cases (rooted : Bool) (found : List String) (part : String) :
    part = "." ∧ push rooted found part = found ∨
      part = ".." ∧ rooted = true ∧ found = [] ∧ push rooted found part = [] ∨
      (∃ latest rest, part = ".." ∧ latest ≠ ".." ∧ found = latest :: rest ∧
        push rooted found part = rest) ∨
      part ≠ "." ∧ (part = ".." → rooted = false ∧ found = [] ∨ ∃ rest, found = ".." :: rest) ∧
        push rooted found part = part :: found := by
  rw [push.eq_def]
  by_cases hdot : part = "."
  · exact .inl ⟨hdot, if_pos hdot⟩
  rw [if_neg hdot]
  by_cases hdots : part = ".."
  · rw [if_pos hdots, hdots]
    cases found with
    | nil =>
        cases rooted with
        | true => exact .inr (.inl ⟨rfl, rfl, rfl, rfl⟩)
        | false => exact .inr (.inr (.inr ⟨by decide, fun _ => .inl ⟨rfl, rfl⟩, rfl⟩))
    | cons latest rest =>
        dsimp only
        by_cases hlatest : latest = ".."
        · rw [if_pos hlatest, hlatest]
          exact .inr (.inr (.inr ⟨by decide, fun _ => .inr ⟨rest, rfl⟩, rfl⟩))
        · rw [if_neg hlatest]
          exact .inr (.inr (.inl ⟨latest, rest, rfl, hlatest, rfl, rfl⟩))
  · rw [if_neg hdots]
    exact .inr (.inr (.inr ⟨hdot, fun hsame => absurd hsame hdots, rfl⟩))

/-- Parts, the latest first, without `.` and with `..` only at the start, and not behind the root. -/
inductive IsNormal (rooted : Bool) : List String → Prop
  | climb (ups : Nat) (h : rooted = true → ups = 0) : IsNormal rooted (List.replicate ups "..")
  | enter {found : List String} {part : String} (h : IsNormal rooted found) (hdot : part ≠ ".")
      (hdots : part ≠ "..") : IsNormal rooted (part :: found)

theorem isNormal_nil (rooted : Bool) : IsNormal rooted [] :=
  .climb 0 fun _ => rfl

/-- What is taken back was entered. -/
theorem IsNormal.of_enter {rooted : Bool} {latest : String} {rest : List String}
    (h : IsNormal rooted (latest :: rest)) (hlatest : latest ≠ "..") :
    IsNormal rooted rest ∧ latest ≠ "." := by
  generalize hfound : latest :: rest = found at h
  cases h with
  | climb ups =>
      have hmem : latest ∈ List.replicate ups ".." := hfound ▸ List.mem_cons_self
      exact absurd (List.eq_of_mem_replicate hmem) hlatest
  | enter h hdot =>
      obtain ⟨rfl, rfl⟩ := List.cons.inj hfound
      exact ⟨h, hdot⟩

theorem IsNormal.climb_again {rooted : Bool} {rest : List String} (h : IsNormal rooted (".." :: rest)) :
    IsNormal rooted (".." :: ".." :: rest) := by
  generalize hfound : ".." :: rest = found at h
  cases h with
  | climb ups hups =>
      cases ups with
      | zero => cases hfound
      | succ ups => exact .climb (ups + 2) fun hrooted => absurd (hups hrooted) (Nat.succ_ne_zero ups)
  | enter _ _ hdots => exact absurd (List.cons.inj hfound).1.symm hdots

theorem IsNormal.push {rooted : Bool} {found : List String} (h : IsNormal rooted found)
    (part : String) : IsNormal rooted (push rooted found part) := by
  obtain ⟨-, hpush⟩ | ⟨-, -, -, hpush⟩ | ⟨latest, rest, -, hlatest, rfl, hpush⟩ | ⟨hdot, hdots, hpush⟩ :=
    push_cases rooted found part
  · rwa [hpush]
  · rw [hpush]
    exact isNormal_nil rooted
  · rw [hpush]
    exact (h.of_enter hlatest).1
  · rw [hpush]
    by_cases hsame : part = ".."
    · obtain ⟨rfl, rfl⟩ | ⟨rest, rfl⟩ := hdots hsame
      · rw [hsame]
        exact .climb 1 (by rintro ⟨⟩)
      · rw [hsame]
        exact h.climb_again
    · exact h.enter hdot hsame

theorem isNormal_foldl {rooted : Bool} {found : List String} (h : IsNormal rooted found)
    (rest : List String) : IsNormal rooted (rest.foldl (push rooted) found) := by
  induction rest generalizing found with
  | nil => exact h
  | cons part rest ih => exact ih (h.push part)

theorem IsNormal.reverse {rooted : Bool} {found : List String} (h : IsNormal rooted found) :
    ∃ ups names, found.reverse = List.replicate ups ".." ++ names ∧ (rooted = true → ups = 0) ∧
      ∀ name ∈ names, name ≠ "." ∧ name ≠ ".." := by
  induction h with
  | climb ups h => exact ⟨ups, [], by simp, h, by simp⟩
  | @enter found part _ hdot hdots ih =>
      obtain ⟨ups, names, hfound, hups, hnames⟩ := ih
      refine ⟨ups, names ++ [part], ?_, hups, ?_⟩
      · rw [List.reverse_cons, hfound, List.append_assoc]
      · rw [List.forall_mem_append, List.forall_mem_singleton]
        exact ⟨hnames, hdot, hdots⟩

theorem mem_push {rooted : Bool} {found : List String} {part other : String}
    (h : other ∈ push rooted found part) : other ∈ found ∨ other = part := by
  obtain ⟨-, hpush⟩ | ⟨-, -, -, hpush⟩ | ⟨latest, rest, -, -, rfl, hpush⟩ | ⟨-, -, hpush⟩ :=
    push_cases rooted found part
  · exact .inl (hpush ▸ h)
  · rw [hpush] at h
    cases h
  · exact .inl (List.mem_cons_of_mem latest (hpush ▸ h))
  · rw [hpush] at h
    exact (List.mem_cons.mp h).symm

theorem isPart_normal {path part : String} {rooted : Bool} (h : part ∈ normal rooted (parts path)) :
    IsPart part := by
  have hfold : ∀ (rest found : List String), (∀ part ∈ found, IsPart part) →
      (∀ part ∈ rest, IsPart part) → ∀ part ∈ rest.foldl (push rooted) found, IsPart part := by
    intro rest
    induction rest with
    | nil => exact fun _ hfound _ => hfound
    | cons next rest ih =>
        intro found hfound hrest
        obtain ⟨hnext, hrest⟩ := List.forall_mem_cons.mp hrest
        refine ih _ (fun part hpart => ?_) hrest
        rcases mem_push hpart with hold | rfl
        · exact hfound part hold
        · exact hnext
  exact hfold _ [] (by simp) (fun _ => isPart_of_mem_parts) part (List.mem_reverse.mp h)

theorem isAbsolute_clean (path : String) : isAbsolute (clean path) = isAbsolute path :=
  isAbsolute_ofParts (fun _ => isPart_normal) _

theorem parts_clean (path : String) : parts (clean path) =
    if isAbsolute path || !(normal (isAbsolute path) (parts path)).isEmpty then
      normal (isAbsolute path) (parts path)
    else ["."] :=
  parts_ofParts (fun _ => isPart_normal) _

end PlZero.Files.Path

namespace PlZero.Files.Disk

open PlZero.Attempt

variable {disk : Disk} {start location : Location} {parts rest found : List String} {rooted : Bool}

/-! ### Ways that can be walked -/

/-- Each part of a way leaves a directory, and none is too long for a name. -/
def Passable (disk : Disk) (start : Location) (parts : List String) : Prop :=
  ∀ before part, before ++ [part] <+: parts →
    disk.node? (before.foldl stepFrom start) = some .directory ∧ part.utf8ByteSize ≤ maxName

theorem Passable.shorter (h : disk.Passable start parts) (hshorter : rest <+: parts) :
    disk.Passable start rest :=
  fun before part hbefore => h before part (hbefore.trans hshorter)

theorem passable_nil : disk.Passable start [] := by
  intro before part hbefore
  cases before <;> cases List.prefix_nil.mp hbefore

theorem passable_cons {part : String} : disk.Passable start (part :: rest) ↔
    disk.node? start = some .directory ∧ part.utf8ByteSize ≤ maxName ∧
      disk.Passable (stepFrom start part) rest := by
  constructor
  · intro h
    obtain ⟨hstart, hshort⟩ := h [] part (List.prefix_append [part] rest)
    refine ⟨hstart, hshort, fun before next hbefore => ?_⟩
    exact h (part :: before) next (List.cons_prefix_cons.mpr ⟨rfl, hbefore⟩)
  · rintro ⟨hstart, hshort, hrest⟩ before next hbefore
    cases before with
    | nil =>
        obtain ⟨rfl, -⟩ := List.cons_prefix_cons.mp hbefore
        exact ⟨hstart, hshort⟩
    | cons first others =>
        obtain ⟨rfl, hothers⟩ := List.cons_prefix_cons.mp hbefore
        exact hrest others next hothers

theorem passable_concat {part : String} : disk.Passable start (parts ++ [part]) ↔
    disk.Passable start parts ∧ disk.node? (parts.foldl stepFrom start) = some .directory ∧
      part.utf8ByteSize ≤ maxName := by
  constructor
  · intro h
    exact ⟨h.shorter (List.prefix_append _ _), h parts part (List.prefix_refl _)⟩
  · rintro ⟨hparts, hend⟩ before next hbefore
    rcases List.prefix_concat_iff.mp hbefore with hwhole | hbefore
    · obtain ⟨rfl, hnext⟩ := List.append_inj' hwhole rfl
      obtain rfl := List.singleton_inj.mp hnext
      exact hend
    · exact hparts before next hbefore

theorem walk_eq_ok_iff : disk.walk start parts = .ok location ↔
    disk.Passable start parts ∧ location = parts.foldl stepFrom start := by
  induction parts generalizing start with
  | nil =>
      rw [walk, Except.ok.injEq, List.foldl_nil]
      exact ⟨fun h => ⟨passable_nil, h.symm⟩, fun h => h.2.symm⟩
  | cons part rest ih =>
      rw [walk, passable_cons, List.foldl_cons]
      rcases hnode : disk.node? start with _ | _ | _ | _
      case some.directory =>
        by_cases hshort : maxName < part.utf8ByteSize
        · simp [hshort]
        · simp [hshort, ih, Nat.le_of_not_lt hshort]
      all_goals simp

theorem place_eq_ok_iff {path : String} : disk.place path = .ok location ↔
    (path.toList.contains (Char.ofNat 0) = false ∧ path ≠ "" ∧ path.utf8ByteSize ≤ maxPath) ∧
      disk.Passable (if Path.isAbsolute path then [] else disk.home) (Path.parts path) ∧
        location = disk.destination path := by
  rw [place, destination, ← walk_eq_ok_iff]
  split_ifs with hzero hempty hlong <;> simp_all

theorem find_eq_ok {path : String} {node : Node} (h : disk.find path = .ok (location, node)) :
    disk.place path = .ok location ∧ disk.node? location = some node := by
  rw [find] at h
  obtain ⟨place, hplace, hnode⟩ := bind_eq_ok_iff.mp h
  split at hnode
  · cases hnode
  · next hfound =>
      cases hnode
      exact ⟨hplace, hfound⟩
  · next found _ hfound =>
      split at hnode
      · cases hnode
      · cases hnode
        exact ⟨hplace, hfound⟩

/-- A text that the operating system looks up as a path, wherever it leads. -/
structure Fits (path : String) : Prop where
  noNul : path.toList.contains (Char.ofNat 0) = false
  ne_empty : path ≠ ""
  le_maxPath : path.utf8ByteSize ≤ maxPath
  le_maxName : ∀ part ∈ Path.parts path, part.utf8ByteSize ≤ maxName

instance (path : String) : Decidable (Fits path) :=
  decidable_of_iff (path.toList.contains (Char.ofNat 0) = false ∧ path ≠ "" ∧
      path.utf8ByteSize ≤ maxPath ∧ ∀ part ∈ Path.parts path, part.utf8ByteSize ≤ maxName)
    ⟨fun ⟨hzero, hempty, hlong, hnames⟩ => ⟨hzero, hempty, hlong, hnames⟩,
      fun h => ⟨h.noNul, h.ne_empty, h.le_maxPath, h.le_maxName⟩⟩

/-- Each part of a way leaves a directory. -/
def Leads (disk : Disk) (start : Location) (parts : List String) : Prop :=
  ∀ before part, before ++ [part] <+: parts → disk.node? (before.foldl stepFrom start) = some .directory

theorem passable_iff : disk.Passable start parts ↔
    disk.Leads start parts ∧ ∀ part ∈ parts, part.utf8ByteSize ≤ maxName := by
  constructor
  · intro h
    refine ⟨fun before part hbefore => (h before part hbefore).1, fun part hpart => ?_⟩
    obtain ⟨before, after, rfl⟩ := List.append_of_mem hpart
    exact (h before part ⟨after, List.append_cons _ _ _ |>.symm⟩).2
  · intro h before part hbefore
    exact ⟨h.1 before part hbefore, h.2 part (hbefore.subset List.mem_concat_self)⟩

/-- Where a path leads is a matter of its text and of the directories on the way. -/
theorem place_eq_ok_iff_leads {path : String} : disk.place path = .ok location ↔
    Fits path ∧ disk.Leads (if Path.isAbsolute path then [] else disk.home) (Path.parts path) ∧
      location = disk.destination path := by
  rw [place_eq_ok_iff, passable_iff]
  constructor
  · rintro ⟨⟨hzero, hempty, hlong⟩, ⟨hleads, hshort⟩, hlocation⟩
    exact ⟨⟨hzero, hempty, hlong, hshort⟩, hleads, hlocation⟩
  · rintro ⟨hfits, hleads, hlocation⟩
    exact ⟨⟨hfits.noNul, hfits.ne_empty, hfits.le_maxPath⟩, ⟨hleads, hfits.le_maxName⟩, hlocation⟩

theorem passable_push {part : String}
    (hfound : disk.Passable start found.reverse)
    (hend : disk.node? (found.reverse.foldl stepFrom start) = some .directory)
    (hshort : part.utf8ByteSize ≤ maxName) :
    disk.Passable start (Path.push rooted found part).reverse := by
  obtain ⟨-, hpush⟩ | ⟨-, -, -, hpush⟩ | ⟨latest, rest, -, -, rfl, hpush⟩ | ⟨-, -, hpush⟩ :=
    Path.push_cases rooted found part
  · rwa [hpush]
  · rw [hpush]
    exact passable_nil
  · rw [List.reverse_cons] at hfound
    rw [hpush]
    exact hfound.shorter (List.prefix_append _ _)
  · rw [hpush, List.reverse_cons]
    exact passable_concat.mpr ⟨hfound, hend, hshort⟩

section Normal

variable (hstart : rooted = true → start = [])

include hstart

theorem foldl_push (h : Path.IsNormal rooted found) (part : String) :
    (Path.push rooted found part).reverse.foldl stepFrom start =
      stepFrom (found.reverse.foldl stepFrom start) part := by
  obtain ⟨rfl, hpush⟩ | ⟨rfl, hrooted, rfl, hpush⟩ | ⟨latest, rest, rfl, hlatest, rfl, hpush⟩ |
    ⟨-, -, hpush⟩ := Path.push_cases rooted found part
  · rw [hpush, stepFrom, if_pos rfl]
  · rw [hpush, hstart hrooted]
    rfl
  · -- The step to the part before is taken back.
    rw [hpush, List.reverse_cons, List.foldl_append, List.foldl_cons, List.foldl_nil,
      stepFrom.eq_def _ latest, if_neg (h.of_enter hlatest).2, if_neg hlatest]
    exact List.dropLast_concat.symm
  · rw [hpush, List.reverse_cons, List.foldl_append]
    rfl

theorem foldl_foldl_push (h : Path.IsNormal rooted found) (rest : List String) :
    (rest.foldl (Path.push rooted) found).reverse.foldl stepFrom start =
      rest.foldl stepFrom (found.reverse.foldl stepFrom start) := by
  induction rest generalizing found with
  | nil => rfl
  | cons part rest ih => rw [List.foldl_cons, ih (h.push part), foldl_push hstart h, List.foldl_cons]

/-- Working `.` and `..` out keeps the place that parts lead to. -/
theorem foldl_normal (parts : List String) :
    (Path.normal rooted parts).foldl stepFrom start = parts.foldl stepFrom start :=
  foldl_foldl_push hstart (Path.isNormal_nil rooted) parts

/-- A way that can be walked can be walked after `.` and `..` are worked out: it leaves fewer of the
same directories. -/
theorem Passable.normal (h : disk.Passable start parts) :
    disk.Passable start (Path.normal rooted parts) := by
  suffices hpush : ∀ rest found, Path.IsNormal rooted found → disk.Passable start found.reverse →
      disk.Passable (found.reverse.foldl stepFrom start) rest →
        disk.Passable start (rest.foldl (Path.push rooted) found).reverse from
    hpush parts [] (Path.isNormal_nil rooted) passable_nil h
  intro rest
  induction rest with
  | nil => exact fun _ _ hfound _ => hfound
  | cons part rest ih =>
      intro found hnormal hfound hrest
      obtain ⟨hend, hshort, hrest⟩ := passable_cons.mp hrest
      refine ih _ (hnormal.push part) (passable_push hfound hend hshort) ?_
      rwa [foldl_push hstart hnormal]

end Normal

theorem start_of_rooted (disk : Disk) (rooted : Bool) :
    rooted = true → (if rooted then [] else disk.home) = [] := by
  rintro rfl
  rfl

/-- A cleaned path leads to the same place. -/
theorem destination_clean (disk : Disk) (path : String) :
    disk.destination (Path.clean path) = disk.destination path := by
  have hnormal := foldl_normal (start_of_rooted disk (Path.isAbsolute path)) (Path.parts path)
  rw [destination, destination, Path.isAbsolute_clean, Path.parts_clean, ← hnormal]
  by_cases hfull : (Path.isAbsolute path ||
      !(Path.normal (Path.isAbsolute path) (Path.parts path)).isEmpty) = true
  · rw [if_pos hfull]
  · rw [if_neg hfull]
    rw [Bool.not_eq_true, Bool.or_eq_false_iff, Bool.not_eq_false', List.isEmpty_iff] at hfull
    rw [hfull.2]
    rfl

/-- A cleaned path can be walked where the path can. -/
theorem Passable.clean {path : String} (hpath : path ≠ "")
    (h : disk.Passable (if Path.isAbsolute path then [] else disk.home) (Path.parts path)) :
    disk.Passable (if Path.isAbsolute (Path.clean path) then [] else disk.home)
      (Path.parts (Path.clean path)) := by
  rw [Path.isAbsolute_clean, Path.parts_clean]
  by_cases hfull : (Path.isAbsolute path ||
      !(Path.normal (Path.isAbsolute path) (Path.parts path)).isEmpty) = true
  · rw [if_pos hfull]
    exact h.normal (start_of_rooted disk _)
  · -- The path names the directory from which it starts.
    rw [if_neg hfull]
    rw [Bool.not_eq_true, Bool.or_eq_false_iff] at hfull
    obtain ⟨part, rest, hparts⟩ := List.exists_cons_of_ne_nil (Path.parts_ne_nil hpath hfull.1)
    rw [hparts] at h
    exact passable_cons.mpr ⟨(passable_cons.mp h).1, by decide, passable_nil⟩

end PlZero.Files.Disk

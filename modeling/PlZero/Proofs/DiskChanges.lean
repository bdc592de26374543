import PlZero.Proofs.Placement

/-! What an operation leaves alone on a disk. Where a path leads is a matter of its text, as long as the
directories on the way are there; and making directories or writing a file as a whole takes no directory
away and touches no file but the one that is written. Main statements: all that was read before such a
change is read behind it, and nothing else than what was written or was there before is read. -/

namespace PlZero.Files

open PlZero.Text PlZero.Attempt

namespace Node

/-- What is read from a file. -/
def content? : Node → Option Bytes
  | directory => none
  | file content => some content
  | archive _ => some Disk.archiveHead

end Node

namespace Disk

/-- The place that a path leads to when all directories on the way are there. -/
def destination (disk : Disk) (path : String) : Location :=
  (Path.parts path).foldl stepFrom (if Path.isAbsolute path then [] else disk.home)

/-- What stands at the place that a path leads to. -/
def contentAt? (disk : Disk) (path : String) : Option Bytes :=
  (disk.node? (disk.destination path)).bind Node.content?

variable {disk next last : Disk} {path : String} {location : Location} {content : Bytes}

theorem walk_eq_foldl {start : Location} {parts : List String}
    (h : disk.walk start parts = .ok location) : location = parts.foldl stepFrom start := by
  induction parts generalizing start with
  | nil => exact (Except.ok.inj h).symm
  | cons part rest ih =>
      rw [walk] at h
      split at h
      · cases h
      · split at h
        · cases h
        · exact ih h
      · cases h

theorem place_eq_destination (h : disk.place path = .ok location) :
    location = disk.destination path := by
  rw [place] at h
  split at h
  · cases h
  · split at h
    · cases h
    · split at h
      · cases h
      · exact walk_eq_foldl h

/-- What is read stands at the place that the path leads to. -/
theorem read_eq_ok_iff : disk.read path = .ok content ↔
    disk.place path = .ok (disk.destination path) ∧ endsWithSlash path = false ∧
      disk.contentAt? path = some content := by
  rw [read, find]
  cases hplace : disk.place path with
  | error reason => simp
  | ok location =>
      obtain rfl := place_eq_destination hplace
      rw [ok_bind, contentAt?]
      cases hslash : endsWithSlash path <;>
        rcases disk.node? (disk.destination path) with _ | _ | _ | _ <;>
        simp [Node.content?]

/-- Every directory stays one, and every other file stays as it is unless it may be changed; what is new
and may not be changed is a directory. -/
structure ChangesOnly (changed : Location → Prop) (disk next : Disk) : Prop where
  home : next.home = disk.home
  keeps : ∀ location node, disk.node? location = some node →
    node = .directory ∨ ¬changed location → next.node? location = some node
  fresh : ∀ location node, next.node? location = some node →
    node = .directory ∨ changed location ∨ disk.node? location = some node

namespace ChangesOnly

variable {changed : Location → Prop}

theorem refl (changed : Location → Prop) (disk : Disk) : ChangesOnly changed disk disk :=
  ⟨rfl, fun _ _ hnode _ => hnode, fun _ _ hnode => .inr (.inr hnode)⟩

theorem trans (hfirst : ChangesOnly changed disk next) (hsecond : ChangesOnly changed next last) :
    ChangesOnly changed disk last where
  home := hsecond.home.trans hfirst.home
  keeps location node hnode hkept :=
    hsecond.keeps location node (hfirst.keeps location node hnode hkept) hkept
  fresh location node hnode := by
    rcases hsecond.fresh location node hnode with hdirectory | hchanged | hnode
    · exact .inl hdirectory
    · exact .inr (.inl hchanged)
    · exact hfirst.fresh location node hnode

theorem put (changed : Location → Prop) {node : Node} (hvacant : disk.node? location ≠ some .directory)
    (hkept : disk.node? location = none ∨ changed location)
    (hnode : node = .directory ∨ changed location) :
    ChangesOnly changed disk (disk.put location node) where
  home := rfl
  keeps other found hfound hallowed := by
    have hne : other ≠ location := by
      rintro rfl
      rcases hkept with hnone | hchanged
      · rw [hnone] at hfound
        cases hfound
      · rcases hallowed with rfl | hunchanged
        · exact hvacant hfound
        · exact hunchanged hchanged
    rw [node?_put_of_ne hne, hfound]
  fresh other found hfound := by
    by_cases hother : other = location
    · subst hother
      rw [node?_put_self hvacant, Option.some.injEq] at hfound
      subst hfound
      rcases hnode with hdirectory | hchanged
      · exact .inl hdirectory
      · exact .inr (.inl hchanged)
    · rw [node?_put_of_ne hother] at hfound
      exact .inr (.inr hfound)

theorem provideDirectory (changed : Location → Prop) (disk : Disk) (path : String) :
    ChangesOnly changed disk (disk.provideDirectory path).1 := by
  rw [Disk.provideDirectory]
  cases hmade : disk.makeDirectory path with
  | ok made =>
      obtain ⟨location, -, hnone, rfl⟩ := makeDirectory_eq_ok hmade
      exact put changed (ne_directory_of_vacant hnone) (.inl hnone) (.inl rfl)
  | error reason =>
      dsimp only
      split <;> exact refl changed disk

theorem ensureFirst (changed : Location → Prop) (disk : Disk) (paths : List String) :
    ChangesOnly changed disk (disk.ensureFirst paths).1 := by
  induction paths with
  | nil => exact refl changed disk
  | cons path above ih =>
      rw [Disk.ensureFirst]
      split
      · exact refl changed disk
      · exact refl changed disk
      · split
        · next founded _ hfounded =>
            rw [hfounded] at ih
            exact ih.trans (provideDirectory changed founded path)
        · next founded _ hfounded =>
            rw [hfounded] at ih
            exact ih

theorem of_ensureFirst (changed : Location → Prop) {founded : Disk} {paths : List String}
    {ensured : Except FileError Unit} (h : disk.ensureFirst paths = (founded, ensured)) :
    ChangesOnly changed disk founded := by
  have hchange := ensureFirst changed disk paths
  rwa [h] at hchange

/-! ### Reading behind a change -/

section Reading

variable (h : ChangesOnly changed disk next)

include h

theorem destination_eq (path : String) : next.destination path = disk.destination path := by
  rw [destination, destination, h.home]

theorem walk {start : Location} {parts : List String} (hwalk : disk.walk start parts = .ok location) :
    next.walk start parts = .ok location := by
  induction parts generalizing start with
  | nil => exact hwalk
  | cons part rest ih =>
      rw [Disk.walk] at hwalk ⊢
      cases hnode : disk.node? start with
      | none =>
          rw [hnode] at hwalk
          cases hwalk
      | some found =>
          rw [hnode] at hwalk
          cases found with
          | file content => cases hwalk
          | archive table => cases hwalk
          | directory =>
              rw [h.keeps start .directory hnode (.inl rfl)]
              dsimp only at hwalk ⊢
              split at hwalk
              · cases hwalk
              · next hshort =>
                  rw [if_neg hshort]
                  exact ih hwalk

theorem place (hplace : disk.place path = .ok location) : next.place path = .ok location := by
  rw [Disk.place] at hplace ⊢
  rw [h.home]
  split_ifs at hplace ⊢ <;> exact h.walk hplace

theorem contentAt?_of_some (hunchanged : ¬changed (disk.destination path))
    (hcontent : disk.contentAt? path = some content) : next.contentAt? path = some content := by
  obtain ⟨node, hnode, hread⟩ := Option.bind_eq_some_iff.mp hcontent
  rw [contentAt?, h.destination_eq, h.keeps _ node hnode (.inr hunchanged)]
  exact hread

/-- What stands in a place that may not be changed stood there before. -/
theorem some_of_contentAt? (hunchanged : ¬changed (disk.destination path))
    (hcontent : next.contentAt? path = some content) : disk.contentAt? path = some content := by
  rw [contentAt?, h.destination_eq] at hcontent
  obtain ⟨node, hnode, hread⟩ := Option.bind_eq_some_iff.mp hcontent
  rcases h.fresh _ node hnode with rfl | hchanged | hnode
  · cases hread
  · exact absurd hchanged hunchanged
  · rw [contentAt?, hnode]
    exact hread

/-- What is read from a file that may not be changed is read as before. -/
theorem read (hunchanged : ¬changed (disk.destination path))
    (hread : disk.read path = .ok content) : next.read path = .ok content := by
  obtain ⟨hplace, hslash, hcontent⟩ := read_eq_ok_iff.mp hread
  rw [read_eq_ok_iff, h.destination_eq]
  exact ⟨h.place hplace, hslash, h.contentAt?_of_some hunchanged hcontent⟩

/-- Two paths to one place are read alike once both can be read. -/
theorem read_of_destination {other : String} {stale : Bytes} (hstale : disk.read path = .ok stale)
    (hread : next.read other = .ok content)
    (hsame : disk.destination path = disk.destination other) : next.read path = .ok content := by
  obtain ⟨hplace, hslash, -⟩ := read_eq_ok_iff.mp hstale
  obtain ⟨-, -, hcontent⟩ := read_eq_ok_iff.mp hread
  rw [read_eq_ok_iff, h.destination_eq]
  refine ⟨h.place hplace, hslash, ?_⟩
  rw [contentAt?, h.destination_eq] at hcontent ⊢
  rw [hsame]
  exact hcontent

end Reading

end ChangesOnly

end Disk

end PlZero.Files

import PlZero.Proofs.CleanPaths

/-! Making directories. A disk is a tree; making the directories of a cleaned path adds directories above one
place only. Main statements: what was there before stays, what is new is a directory on the way, and the
path then leads to a directory. -/

namespace PlZero.Files.Disk

open PlZero.Text PlZero.Attempt

variable {disk next last : Disk} {location target : Location} {path : String}

/-- Every file lies in a directory. -/
def IsTree (disk : Disk) : Prop :=
  ∀ location part, disk.node? (location ++ [part]) ≠ none → disk.node? location = some .directory

theorem IsTree.above (h : disk.IsTree) {above : Location} (habove : above <+: location)
    (hnode : disk.node? location = some .directory) : disk.node? above = some .directory := by
  obtain ⟨rest, rfl⟩ := habove
  induction rest using List.reverseRecOn with
  | nil => rwa [List.append_nil] at hnode
  | append_singleton others part ih =>
      refine ih (h _ part ?_)
      rw [List.append_assoc, hnode]
      rintro ⟨⟩

/-- What lies above a file of any kind is a directory. -/
theorem IsTree.above_of_ne_none (h : disk.IsTree) {above : Location} (habove : above <+: location)
    (hne : above ≠ location) (hnode : disk.node? location ≠ none) :
    disk.node? above = some .directory := by
  rcases List.eq_nil_or_concat location with rfl | ⟨before, part, rfl⟩
  · exact absurd (List.prefix_nil.mp habove) hne
  · rw [List.concat_eq_append] at habove hne hnode
    exact h.above ((List.prefix_concat_iff.mp habove).resolve_left hne) (h before part hnode)

theorem isTree_of_entries
    (h : ∀ entry ∈ disk.entries, disk.node? entry.1.dropLast = some .directory) : disk.IsTree := by
  intro location part hnode
  obtain ⟨node, hnode⟩ := Option.ne_none_iff_exists'.mp hnode
  rw [node?.eq_2 _ _ (List.append_ne_nil_of_right_ne_nil _ (List.cons_ne_nil _ _))] at hnode
  obtain ⟨before, after, hsplit, -⟩ := List.lookup_eq_some_iff.mp hnode
  have hentry := h (location ++ [part], node) (hsplit ▸ List.mem_append_right _ List.mem_cons_self)
  rwa [List.dropLast_concat] at hentry

theorem IsTree.put (h : disk.IsTree) (hvacant : disk.node? location ≠ some .directory)
    (habove : disk.node? location.dropLast = some .directory) (node : Node) :
    (disk.put location node).IsTree := by
  intro other part hnode
  have hne (place : Location) (hplace : disk.node? place = some .directory) : place ≠ location := by
    rintro rfl
    exact hvacant hplace
  by_cases hsame : other ++ [part] = location
  · rw [← hsame, List.dropLast_concat] at habove
    rwa [node?_put_of_ne (hne other habove)]
  · rw [node?_put_of_ne hsame] at hnode
    have hother := h other part hnode
    rwa [node?_put_of_ne (hne other hother)]

/-- What is at a place is as before, or it is a new directory on the way to another place. -/
def Kept (target : Location) (disk next : Disk) (place : Location) : Prop :=
  next.node? place = disk.node? place ∨
    disk.node? place = none ∧ next.node? place = some .directory ∧ place <+: target

theorem Kept.mono {wider place : Location} (h : Kept target disk next place)
    (hwider : target <+: wider) : Kept wider disk next place :=
  h.imp id fun ⟨hnone, hmade, hway⟩ => ⟨hnone, hmade, hway.trans hwider⟩

/-- Nothing changes but that there are more directories on the way to a place. -/
structure Founds (target : Location) (disk next : Disk) : Prop where
  home : next.home = disk.home
  kept : ∀ place, Kept target disk next place

namespace Founds

theorem refl (target : Location) (disk : Disk) : Founds target disk disk :=
  ⟨rfl, fun _ => .inl rfl⟩

theorem trans (hfirst : Founds target disk next) (hsecond : Founds target next last) :
    Founds target disk last := by
  refine ⟨hsecond.home.trans hfirst.home, fun place => ?_⟩
  rcases hsecond.kept place with hsame | ⟨hnone, hmade⟩
  · rw [Kept, hsame]
    exact hfirst.kept place
  · rcases hfirst.kept place with hsame | ⟨-, hdirectory, -⟩
    · exact .inr ⟨hsame ▸ hnone, hmade⟩
    · rw [hdirectory] at hnone
      cases hnone

theorem destination_eq (h : Founds target disk next) (path : String) :
    next.destination path = disk.destination path := by
  rw [destination, destination, h.home]

theorem put (hnone : disk.node? location = none) (hway : location <+: target) :
    Founds target disk (disk.put location .directory) := by
  refine ⟨rfl, fun place => ?_⟩
  by_cases hplace : place = location
  · subst hplace
    exact .inr ⟨hnone, node?_put_self (ne_directory_of_vacant hnone) _, hway⟩
  · exact .inl (node?_put_of_ne hplace _)

end Founds

theorem foldl_names {names : List String} (h : ∀ name ∈ names, name ≠ "." ∧ name ≠ "..")
    (start : Location) : names.foldl stepFrom start = start ++ names := by
  induction names generalizing start with
  | nil => exact (List.append_nil start).symm
  | cons name rest ih =>
      obtain ⟨hname, hrest⟩ := List.forall_mem_cons.mp h
      rw [List.foldl_cons, ih hrest, stepFrom, if_neg hname.1, if_neg hname.2, List.append_assoc,
        List.singleton_append]

/-- Whether there is a file of any kind where a path leads. -/
theorem has_iff (hslash : endsWithSlash path = false) : disk.has path = true ↔
    disk.place path = .ok (disk.destination path) ∧ disk.node? (disk.destination path) ≠ none := by
  rw [has, find]
  cases hplace : disk.place path with
  | error reason => simp [Except.toOption]
  | ok location =>
      obtain rfl := place_eq_destination hplace
      rw [ok_bind]
      rcases disk.node? (disk.destination path) with _ | _ | _ | _ <;>
        simp [hslash, Except.toOption]

end PlZero.Files.Disk

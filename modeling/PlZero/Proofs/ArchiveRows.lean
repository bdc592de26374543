import Mathlib
import PlZero.Archive.Store
import PlZero.Proofs.Attempt
import PlZero.Proofs.Entries

/-! What holds of every row on disk. Opening an archive makes directories and archives without rows, and
an operation on an open archive touches the rows of that archive only, so a property of rows holds
everywhere as long as it holds of each row that is written. -/

namespace PlZero.Files.Disk

open PlZero.Archive PlZero.Attempt

variable {good : Row → Prop} {disk : Disk}

/-- Every row of every archive on the disk is good. -/
def RowsAre (good : Row → Prop) (disk : Disk) : Prop :=
  ∀ location rows, disk.node? location = some (.archive rows) → ∀ row ∈ rows, good row

/-- No archive on the disk has a row. -/
def HasNoRows (disk : Disk) : Prop :=
  ∀ location rows, disk.node? location = some (.archive rows) → rows = []

theorem HasNoRows.rowsAre (h : disk.HasNoRows) (good : Row → Prop) : disk.RowsAre good := by
  intro location rows hnode
  rw [h location rows hnode]
  exact List.forall_mem_nil _

theorem node?_put (disk : Disk) (location other : Location) (node : Node) :
    (disk.put location node).node? other =
      if other = [] then some .directory
      else if other = location then some node else disk.node? other := by
  cases other with
  | nil => rfl
  | cons part parts =>
      rw [if_neg (List.cons_ne_nil _ _)]
      exact Entries.lookup_replace disk.entries location (part :: parts) node

theorem RowsAre.put (h : disk.RowsAre good) {location : Location} {node : Node}
    (hnode : ∀ rows, node = .archive rows → ∀ row ∈ rows, good row) :
    (disk.put location node).RowsAre good := by
  intro other rows hother
  rw [node?_put] at hother
  split at hother
  · cases hother
  · split at hother
    · exact hnode rows (Option.some.inj hother)
    · exact h other rows hother

theorem RowsAre.provideDirectory (h : disk.RowsAre good) (path : String) :
    (disk.provideDirectory path).1.RowsAre good := by
  rw [Disk.provideDirectory]
  cases hmade : disk.makeDirectory path with
  | ok made =>
      obtain ⟨location, -, hmade⟩ := bind_eq_ok_iff.mp hmade
      cases hnode : disk.node? location with
      | some node =>
          rw [hnode] at hmade
          cases hmade
      | none =>
          rw [hnode] at hmade
          cases hmade
          exact h.put nofun
  | error reason =>
      dsimp only
      split <;> exact h

theorem RowsAre.ensureFirst (h : disk.RowsAre good) (paths : List String) :
    (disk.ensureFirst paths).1.RowsAre good := by
  induction paths with
  | nil => exact h
  | cons path above ih =>
      rw [Disk.ensureFirst]
      split
      · exact h
      · exact h
      · split
        · rename_i founded _ hfounded
          rw [hfounded] at ih
          exact ih.provideDirectory path
        · rename_i founded _ hfounded
          rw [hfounded] at ih
          exact ih

end PlZero.Files.Disk

namespace PlZero.Archive

open PlZero.Files PlZero.Text PlZero.Machine

variable {good : Row → Prop} {disk : Disk}

theorem rowsAre_reach? (h : disk.RowsAre good) {location : Location} {access : Access}
    {reached : Disk} (hreach : reach? disk location access = some reached) :
    reached.RowsAre good := by
  rw [reach?] at hreach
  split at hreach
  · cases hreach
  · cases hreach
    exact h
  · split at hreach
    · cases hreach
      exact h.put nofun
    · cases hreach

theorem rowsAre_found? (h : disk.RowsAre good) {location : Location} {access : Access}
    {opened : Disk} (hfound : found? disk location access = some opened) :
    opened.RowsAre good := by
  rw [found?] at hfound
  split at hfound
  · cases hfound
    exact h
  · split at hfound
    · cases hfound
      refine h.put ?_
      rintro _ ⟨⟩
      exact List.forall_mem_nil _
    · cases hfound
  · cases hfound

/-- Every row on the disk and every row of the archive itself is good. -/
structure Shelf.RowsAre (good : Row → Prop) (shelf : Shelf) : Prop where
  disk : shelf.disk.RowsAre good
  memory : ∀ row ∈ shelf.store.memory, good row

/-- Whether an archive could be opened or not, all rows are good behind it. -/
def OpensWith (good : Row → Prop) (opening : Disk × Except StoreError Store) : Prop :=
  opening.1.RowsAre good ∧ ∀ store, opening.2 = .ok store → ∀ row ∈ store.memory, good row

theorem opensWith_file (h : disk.RowsAre good) (path file : String) (address : Address) :
    OpensWith good (openFile disk path file address) := by
  rw [openFile]
  split
  · exact ⟨h, nofun⟩
  · rename_i location reached hreached
    obtain ⟨place, -, hreach⟩ := Option.bind_eq_some_iff.mp hreached
    obtain ⟨_, hreach, heq⟩ := Option.map_eq_some_iff.mp hreach
    cases heq
    have hrows := rowsAre_reach? h hreach
    split
    · split
      · exact ⟨hrows, nofun⟩
      · rename_i opened hfound
        refine ⟨rowsAre_found? hrows hfound, ?_⟩
        rintro _ ⟨⟩
        exact List.forall_mem_nil _
    · exact ⟨hrows, nofun⟩

theorem opensWith_memory (h : disk.RowsAre good) (path : String) (address : Address) :
    OpensWith good (disk, openMemory path address) := by
  refine ⟨h, ?_⟩
  intro store hstore
  simp only [openMemory] at hstore
  split at hstore
  · cases hstore
  · split at hstore
    · cases hstore
    · cases hstore
      exact List.forall_mem_nil _

/-- Opening an archive writes no row. -/
theorem opensWith_openAt (h : disk.RowsAre good) (path : String) :
    OpensWith good (openAt disk path) := by
  have hfounded : (if path = Address.memoryName then (disk, .ok ())
      else disk.ensureDirectories (Path.parent path)).1.RowsAre good := by
    split
    · exact h
    · exact h.ensureFirst _
  rw [openAt]
  generalize (if path = Address.memoryName then (disk, .ok ())
    else disk.ensureDirectories (Path.parent path)) = founding at hfounded ⊢
  obtain ⟨founded, made⟩ := founding
  dsimp only
  split
  · exact ⟨hfounded, nofun⟩
  · exact ⟨hfounded, nofun⟩
  · split
    · exact opensWith_memory hfounded path _
    · exact opensWith_file hfounded path _ _

namespace Shelf.RowsAre

variable {shelf : Shelf}

theorem table (h : shelf.RowsAre good) : ∀ row ∈ shelf.table, good row := by
  rw [Shelf.table]
  split
  · exact h.memory
  · split
    · exact h.disk _ _ ‹_›
    · exact List.forall_mem_nil _

theorem withTable (h : shelf.RowsAre good) {rows : Table} (hrows : ∀ row ∈ rows, good row) :
    (shelf.withTable rows).RowsAre good := by
  rw [Shelf.withTable]
  split
  · exact ⟨h.disk, hrows⟩
  · refine ⟨h.disk.put ?_, h.memory⟩
    rintro _ ⟨⟩
    exact hrows

end Shelf.RowsAre

theorem rows_update {table : Table} {hash : String} {change : Row → Row}
    (h : ∀ row ∈ table, good row) (hchange : ∀ row ∈ table, row.hash = hash → good (change row)) :
    ∀ row ∈ table.update hash change, good row := by
  intro row hrow
  obtain ⟨old, hold, rfl⟩ := List.mem_map.mp hrow
  split
  · exact hchange old hold ‹_›
  · exact h old hold

theorem rows_put {table : Table} {source : Bytes} {code : Code} {now : Int}
    (h : ∀ row ∈ table, good row)
    (hnew : good ⟨key source, formatVersion, code.length, Artifact.binary code, now, 0⟩) :
    ∀ row ∈ table.put source code now, good row := by
  intro row hrow
  rcases List.mem_append.mp hrow with hold | hrow
  · exact h row (List.mem_of_mem_filter hold)
  · rw [List.mem_singleton.mp hrow]
    exact hnew

end PlZero.Archive

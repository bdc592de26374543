import PlZero.Command.Execute
import PlZero.Proofs.ArchiveRows
import PlZero.Proofs.BinaryForm

/-! Compiling through a cache is compiling. A row that is current and can be read holds the code of the
one source in use with its key, and every operation on archives keeps it so. Main statement: whatever
happens to archives that were empty at first, compiling a source through any of them gives what
compiling it gives, and no row stands for a source that does not compile. -/

namespace PlZero.Archive

open PlZero.Text PlZero.Files PlZero.Machine PlZero.Source

/-- The row stands for one of the sources, which compiles, and holds nothing but its code if it is
current and can be read. -/
def Genuine (sources : List Bytes) (row : Row) : Prop :=
  ∃ source ∈ sources, row.hash = key source ∧ ∃ code, compile source = .ok code ∧
    (row.version = formatVersion →
      ∀ stored, Artifact.readBinary row.program = .ok stored → stored = code)

variable {sources : List Bytes} {source : Bytes}

theorem genuine_stored (hsource : source ∈ sources) {code : Code} (hcompile : compile source = .ok code)
    (now : Int) :
    Genuine sources ⟨key source, formatVersion, code.length, Artifact.binary code, now, 0⟩ := by
  refine ⟨source, hsource, rfl, code, hcompile, fun _ stored hread => ?_⟩
  rw [Artifact.readBinary_binary] at hread
  split at hread
  · exact (Except.ok.inj hread).symm
  · cases hread

theorem Genuine.count {row : Row} (h : Genuine sources row) (hits : Nat) :
    Genuine sources { row with hits := hits } :=
  h

section Keys

variable (hkeys : Set.InjOn key {source | source ∈ sources}) (hsource : source ∈ sources)

include hkeys hsource

/-- What is found under the key of a source is its code. -/
theorem get_genuine {table rows : Table} (h : ∀ row ∈ table, Genuine sources row) {code : Code}
    (hget : table.get source = (rows, .hit code)) :
    compile source = .ok code ∧ ∀ row ∈ rows, Genuine sources row := by
  simp only [Table.get] at hget
  split at hget
  · cases hget
  · rename_i row hrow
    split at hget
    · rename_i hversion
      split at hget
      · rename_i stored hread
        cases hget
        have hmem := List.mem_of_find?_eq_some hrow
        have hhash : row.hash = key source := by simpa using List.find?_some hrow
        obtain ⟨other, hother, hkey, compiled, hcompile, hstored⟩ := h row hmem
        obtain rfl := hkeys hsource hother (hhash.symm.trans hkey)
        refine ⟨?_, rows_update h fun row hrow _ => (h row hrow).count _⟩
        rw [hcompile, hstored hversion code hread]
      · cases hget
    · cases hget

theorem Shelf.get_genuine {shelf : Shelf} (h : shelf.RowsAre (Genuine sources)) (cancelled : Bool) :
    (shelf.get source cancelled).1.RowsAre (Genuine sources) ∧
      ∀ code, (shelf.get source cancelled).2 = .ok (some code) → Source.compile source = .ok code := by
  rw [Shelf.get]
  split
  · exact ⟨h, nofun⟩
  · split
    · exact ⟨h, nofun⟩
    · exact ⟨h, nofun⟩
    · rename_i rows code hget
      obtain ⟨hcompile, hrows⟩ := Archive.get_genuine hkeys hsource h.table hget
      split
      · exact ⟨h, nofun⟩
      · refine ⟨h.withTable hrows, ?_⟩
        rintro _ ⟨⟩
        exact hcompile

/-- An archive of genuine rows gives what compiling gives, and its rows stay genuine. -/
theorem Shelf.compile_genuine {shelf : Shelf} (h : shelf.RowsAre (Genuine sources)) (now : Int)
    (cancelled : Bool) :
    (shelf.compile source now cancelled).1.RowsAre (Genuine sources) ∧
      (shelf.compile source now cancelled).2 = Source.compile source := by
  obtain ⟨hrows, hcode⟩ := Shelf.get_genuine hkeys hsource h cancelled
  rw [Shelf.compile]
  split
  · rename_i counted code hget
    rw [hget] at hrows hcode
    exact ⟨hrows, (hcode code rfl).symm⟩
  · rename_i looked _ _ hget
    rw [hget] at hrows
    cases hcompile : Source.compile source with
    | error fault => exact ⟨hrows, rfl⟩
    | ok code =>
        refine ⟨?_, rfl⟩
        change (looked.put source code now cancelled).1.RowsAre _
        rw [Shelf.put]
        split
        · exact hrows
        · exact hrows.withTable (rows_put hrows.table (genuine_stored hsource hcompile now))

end Keys

section Operations

variable {shelf : Shelf} (h : shelf.RowsAre (Genuine sources))

include h

theorem Shelf.clear_genuine (cancelled : Bool) :
    (shelf.clear cancelled).1.RowsAre (Genuine sources) := by
  rw [Shelf.clear]
  split
  · exact h
  · exact h.withTable (List.forall_mem_nil _)

/-- A row that is made out of date or unreadable stands for the same source as before. -/
theorem Shelf.change_genuine {other : Bytes} {change : Row → Row}
    (hchange : ∀ row, Genuine sources row → Genuine sources (change row)) :
    ((shelf.change? other change).getD shelf).RowsAre (Genuine sources) := by
  rw [Shelf.change?]
  cases (shelf.permitChange false .put).toOption with
  | none => exact h
  | some _ => exact h.withTable (rows_update h.table fun row hrow _ => hchange row (h.table row hrow))

end Operations

theorem Genuine.outdate {row : Row} (h : Genuine sources row) {version : Int}
    (hversion : version ≠ formatVersion) : Genuine sources { row with version := version } := by
  obtain ⟨source, hsource, hhash, code, hcompile, -⟩ := h
  exact ⟨source, hsource, hhash, code, hcompile, fun hcurrent => absurd hcurrent hversion⟩

theorem Genuine.spoil {row : Row} (h : Genuine sources row) {program : Bytes}
    (hprogram : ∀ code, Artifact.readBinary program ≠ .ok code) :
    Genuine sources { row with program := program } := by
  obtain ⟨source, hsource, hhash, code, hcompile, -⟩ := h
  exact ⟨source, hsource, hhash, code, hcompile, fun _ stored hread => absurd hread (hprogram stored)⟩

end PlZero.Archive

namespace PlZero.Command

open PlZero.Text PlZero.Files PlZero.Machine PlZero.Source PlZero.Project PlZero.Archive

/-! ### Histories -/

/-- What may happen to the archives on a disk: a source is compiled with any settings, an archive is
cleared or listed, or a row of it becomes out of date or unreadable. -/
inductive Event where
  | compile (manifest : Manifest) (source : Bytes) (now : Int) (cancelled : Bool)
  | clear (path : String) (cancelled : Bool)
  | list (path : String)
  | outdate (path : String) (source : Bytes) (version : Int) (hversion : version ≠ formatVersion)
  | spoil (path : String) (source program : Bytes)
      (hprogram : ∀ code, Artifact.readBinary program ≠ .ok code)

/-- The disk after an archive was opened and used. -/
def withArchive (disk : Disk) (path : String) (use : Shelf → Shelf) : Disk :=
  match openAt disk path with
  | (opened, .error _) => opened
  | (opened, .ok store) => (use ⟨opened, store⟩).disk

namespace Event

/-- The source that is compiled, if one is. -/
def source? : Event → Option Bytes
  | compile _ source _ _ => some source
  | _ => none

/-- The disk after an event, and the answer if a source is compiled. An archive that is listed is opened
and only read. -/
def apply (disk : Disk) : Event → Disk × Option (Except Fault Code)
  | compile manifest source now cancelled =>
    let (after, answer) := compileCached disk manifest source now cancelled
    (after, some answer)
  | clear path cancelled => (withArchive disk path fun shelf => (shelf.clear cancelled).1, none)
  | list path => (withArchive disk path id, none)
  | outdate path source version _ =>
    (withArchive disk path fun shelf =>
      (shelf.change? source fun row => { row with version := version }).getD shelf, none)
  | spoil path source program _ =>
    (withArchive disk path fun shelf =>
      (shelf.change? source fun row => { row with program := program }).getD shelf, none)

end Event

/-- The disk after a history, and the answers of its compilations in order. -/
def replay (disk : Disk) : List Event → Disk × List (Except Fault Code)
  | [] => (disk, [])
  | event :: rest =>
    let (next, answer) := event.apply disk
    let (last, answers) := replay next rest
    (last, answer.toList ++ answers)

/-- The sources that a history compiles, in order. -/
def compiled (events : List Event) : List Bytes :=
  events.filterMap Event.source?

theorem compiled_cons (event : Event) (rest : List Event) :
    compiled (event :: rest) = event.source?.toList ++ compiled rest := by
  rw [compiled, List.filterMap_cons]
  cases event.source? <;> rfl

section Transparency

variable {sources : List Bytes} {disk : Disk}

theorem rowsAre_withArchive (h : disk.RowsAre (Genuine sources)) (path : String) {use : Shelf → Shelf}
    (huse : ∀ shelf, shelf.RowsAre (Genuine sources) → (use shelf).RowsAre (Genuine sources)) :
    (withArchive disk path use).RowsAre (Genuine sources) := by
  have hopens := opensWith_openAt h path
  rw [withArchive]
  split
  · rename_i opened _ hopened
    rw [hopened] at hopens
    exact hopens.1
  · rename_i opened store hopened
    rw [hopened] at hopens
    exact (huse ⟨opened, store⟩ ⟨hopens.1, hopens.2 store rfl⟩).disk

theorem compileCached_genuine (h : disk.RowsAre (Genuine sources))
    (hkeys : Set.InjOn key {source | source ∈ sources}) (manifest : Manifest) {source : Bytes}
    (hsource : source ∈ sources) (now : Int) (cancelled : Bool) :
    (compileCached disk manifest source now cancelled).1.RowsAre (Genuine sources) ∧
      (compileCached disk manifest source now cancelled).2 = compile source := by
  have hopens := opensWith_openAt h manifest.fullCachePath
  rw [compileCached]
  split
  · split
    · rename_i opened _ hopened
      rw [hopened] at hopens
      exact ⟨hopens.1, rfl⟩
    · rename_i opened store hopened
      rw [hopened] at hopens
      have hshelf : (Archive.Shelf.mk opened store).RowsAre (Genuine sources) :=
        ⟨hopens.1, hopens.2 store rfl⟩
      obtain ⟨hrows, hresult⟩ := Shelf.compile_genuine hkeys hsource hshelf now cancelled
      exact ⟨hrows.disk, hresult⟩
  · exact ⟨h, rfl⟩

/-- An event keeps the rows genuine, and a source that it compiles is answered as by compiling. -/
theorem Event.apply_genuine (event : Event) (h : disk.RowsAre (Genuine sources))
    (hkeys : Set.InjOn key {source | source ∈ sources})
    (hsource : ∀ source, event.source? = some source → source ∈ sources) :
    (event.apply disk).1.RowsAre (Genuine sources) ∧
      (event.apply disk).2 = event.source?.map Source.compile := by
  cases event with
  | compile manifest source now cancelled =>
      obtain ⟨hrows, hresult⟩ :=
        compileCached_genuine h hkeys manifest (hsource source rfl) now cancelled
      exact ⟨hrows, congrArg some hresult⟩
  | clear path cancelled =>
      exact ⟨rowsAre_withArchive h path fun _ hshelf => Shelf.clear_genuine hshelf cancelled, rfl⟩
  | list path => exact ⟨rowsAre_withArchive h path fun _ hshelf => hshelf, rfl⟩
  | outdate path source version hversion =>
      exact ⟨rowsAre_withArchive h path fun _ hshelf =>
        Shelf.change_genuine hshelf fun _ hrow => hrow.outdate hversion, rfl⟩
  | spoil path source program hprogram =>
      exact ⟨rowsAre_withArchive h path fun _ hshelf =>
        Shelf.change_genuine hshelf fun _ hrow => hrow.spoil hprogram, rfl⟩

theorem replay_genuine (events : List Event) (h : disk.RowsAre (Genuine sources))
    (hkeys : Set.InjOn key {source | source ∈ sources}) (hsources : compiled events ⊆ sources) :
    (replay disk events).1.RowsAre (Genuine sources) ∧
      (replay disk events).2 = (compiled events).map compile := by
  induction events generalizing disk with
  | nil => exact ⟨h, rfl⟩
  | cons event rest ih =>
      rw [compiled_cons, List.append_subset] at hsources
      obtain ⟨hrows, hanswer⟩ := event.apply_genuine h hkeys fun source hsource =>
        hsources.1 (Option.mem_toList.mpr hsource)
      obtain ⟨hlast, hanswers⟩ := ih hrows hsources.2
      refine ⟨hlast, ?_⟩
      change (event.apply disk).2.toList ++ (replay (event.apply disk).1 rest).2 = _
      rw [hanswer, hanswers, compiled_cons, List.map_append]
      cases event.source? <;> rfl

end Transparency

/-- From a disk without rows on, every source is answered as by compiling it, whatever its cache went
through, and every row stands for a source that compiles. -/
theorem replay_transparent (disk : Disk) (events : List Event) (hempty : disk.HasNoRows)
    (hkeys : Set.InjOn key {source | source ∈ compiled events}) :
    (replay disk events).2 = (compiled events).map compile ∧
      (replay disk events).1.RowsAre fun row =>
        ∃ source ∈ compiled events, row.hash = key source ∧ ∃ code, compile source = .ok code := by
  obtain ⟨hrows, hanswers⟩ :=
    replay_genuine events (hempty.rowsAre _) hkeys (List.Subset.refl _)
  refine ⟨hanswers, fun location rows hnode row hrow => ?_⟩
  obtain ⟨source, hsource, hhash, code, hcompile, -⟩ := hrows location rows hnode row hrow
  exact ⟨source, hsource, hhash, code, hcompile⟩

/-- A project whose cache is on. -/
def cachingManifest : Manifest :=
  { cacheEnabled := true, cachePath := "/cache.db" }

def cachedSource : Bytes :=
  "begin var a=2; print(a*a); end".toUTF8.toList

/-- A source with a name that is not declared. -/
def faultySource : Bytes :=
  "begin print(a); end".toUTF8.toList

/-- A history that stores a row, uses it, loses it in each way, and asks once without the cache. -/
def eventfulHistory : List Event :=
  [.compile cachingManifest cachedSource 1 false, .compile cachingManifest cachedSource 2 false,
    .outdate "/cache.db" cachedSource 0 (by decide), .compile cachingManifest faultySource 3 false,
    .compile cachingManifest cachedSource 4 false, .spoil "/cache.db" cachedSource [] nofun,
    .compile cachingManifest cachedSource 5 true, .compile {} faultySource 6 false,
    .list "/cache.db", .clear "/cache.db" false, .compile cachingManifest cachedSource 7 false]

theorem replay_transparent_eventful : Disk.HasNoRows {} ∧
    Set.InjOn key {source | source ∈ compiled eventfulHistory} ∧
    (replay {} eventfulHistory).2 = (compiled eventfulHistory).map compile ∧
      (replay {} eventfulHistory).1.RowsAre fun row => ∃ source ∈ compiled eventfulHistory,
        row.hash = key source ∧ ∃ code, compile source = .ok code := by
  have hempty : Disk.HasNoRows {} := by
    intro location rows hnode
    cases location <;> cases hnode
  have hkeys : Set.InjOn key {source | source ∈ compiled eventfulHistory} := by
    have hdiffer : key cachedSource ≠ key faultySource := by decide +kernel
    have hlist : compiled eventfulHistory = [cachedSource, cachedSource, faultySource, cachedSource,
        cachedSource, faultySource, cachedSource] := rfl
    have htwo : ∀ source ∈ compiled eventfulHistory,
        source = cachedSource ∨ source = faultySource := by
      intro source hsource
      rw [hlist] at hsource
      simp only [List.mem_cons, List.not_mem_nil, or_false] at hsource
      tauto
    intro source hsource other hother hkey
    rcases htwo source hsource with rfl | rfl <;> rcases htwo other hother with rfl | rfl
    · rfl
    · exact absurd hkey hdiffer
    · exact absurd hkey.symm hdiffer
    · rfl
  exact ⟨hempty, hkeys, replay_transparent {} eventfulHistory hempty hkeys⟩

end PlZero.Command

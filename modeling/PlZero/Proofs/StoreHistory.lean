import PlZero.Proofs.ArchiveRows
import PlZero.Proofs.BinaryForm

/-! What an archive answers follows from what was done with it. The history of an archive in use is the
programs stored in it, the hits on them and the times it was emptied. Main statement: after any calls a
source is found exactly if something was stored under its key since the archive was emptied last, and
then the program that was stored last; and the archive lists one row for each such key. -/

namespace PlZero.Archive

open PlZero.Text PlZero.Files PlZero.Machine

/-- What a call did to an archive. -/
inductive Deed where
  | stored (hash : String) (code : Code)
  | hit (hash : String)
  | emptied
  deriving DecidableEq, Repr

/-- Of deeds, the latest first, the code is what was stored under the hash last, the archive was not
emptied any more, and `since` is what was done behind it. -/
inductive LastStored (hash : String) (code : Code) : List Deed → List Deed → Prop where
  | now (earlier : List Deed) : LastStored hash code (.stored hash code :: earlier) []
  | earlier {deeds since : List Deed} (deed : Deed) (hkept : deed ≠ .emptied)
      (hother : ∀ other, deed ≠ .stored hash other) (h : LastStored hash code deeds since) :
      LastStored hash code (deed :: deeds) (deed :: since)

theorem LastStored.unique {hash : String} {code found : Code} {deeds since after : List Deed}
    (h : LastStored hash code deeds since) (hfound : LastStored hash found deeds after) :
    code = found ∧ since = after := by
  induction h generalizing after with
  | now earlier =>
      cases hfound with
      | now => exact ⟨rfl, rfl⟩
      | earlier _ _ hother => exact absurd rfl (hother code)
  | earlier deed _ hother _ ih =>
      cases hfound with
      | now => exact absurd rfl (hother found)
      | earlier _ _ _ hfound =>
          obtain ⟨hcode, hsince⟩ := ih hfound
          exact ⟨hcode, congrArg (deed :: ·) hsince⟩

/-- How often the program under a hash was hit. -/
def hitsOn (hash : String) (since : List Deed) : Nat :=
  since.count (.hit hash)

theorem hitsOn_hit (hash : String) (since : List Deed) :
    hitsOn hash (.hit hash :: since) = hitsOn hash since + 1 :=
  List.count_cons_self

theorem hitsOn_cons_of_ne {deed : Deed} {hash : String} {since : List Deed} (h : deed ≠ .hit hash) :
    hitsOn hash (deed :: since) = hitsOn hash since :=
  List.count_cons_of_ne h

/-- The row holds the code, and tells of it and of the hits since it was stored. -/
structure Row.Records (row : Row) (code : Code) (since : List Deed) : Prop where
  version : row.version = 1
  instructions : row.instructions = code.length
  program : row.program = Artifact.binary code
  hits : row.hits = hitsOn row.hash since

/-- The rows are those of the programs that were stored last, one for each hash. -/
structure Recorded (deeds : List Deed) (table : Table) : Prop where
  nodup : (table.map Row.hash).Nodup
  rows : ∀ row ∈ table, ∃ code since, LastStored row.hash code deeds since ∧ row.Records code since
  covers : ∀ hash code since, LastStored hash code deeds since → ∃ row ∈ table, row.hash = hash

namespace Recorded

variable {deeds : List Deed} {table : Table} {hash : String} {code : Code} {since : List Deed}

theorem nil : Recorded [] [] where
  nodup := List.nodup_nil
  rows := List.forall_mem_nil _
  covers _ _ _ hlast := by cases hlast

theorem row?_of_stored (h : Recorded deeds table) (hlast : LastStored hash code deeds since) :
    ∃ row, table.row? hash = some row ∧ row.Records code since := by
  obtain ⟨row, hrow, hhash⟩ := h.covers hash code since hlast
  have hfound : (table.row? hash).isSome = true :=
    List.find?_isSome.mpr ⟨row, hrow, beq_iff_eq.mpr hhash⟩
  obtain ⟨found, hfound⟩ := Option.isSome_iff_exists.mp hfound
  refine ⟨found, hfound, ?_⟩
  obtain rfl : found.hash = hash := by simpa using List.find?_some hfound
  obtain ⟨other, after, hother, hrecords⟩ := h.rows found (List.mem_of_find?_eq_some hfound)
  obtain ⟨rfl, rfl⟩ := hlast.unique hother
  exact hrecords

theorem row?_of_absent (h : Recorded deeds table)
    (habsent : ∀ code since, ¬LastStored hash code deeds since) : table.row? hash = none := by
  rw [Table.row?, List.find?_eq_none]
  intro row hrow hhash
  obtain ⟨code, since, hlast, -⟩ := h.rows row hrow
  rw [beq_iff_eq.mp hhash] at hlast
  exact habsent code since hlast

theorem get_of_stored (h : Recorded deeds table) {source : Bytes}
    (hlast : LastStored (key source) code deeds since) : table.get source =
      if code.length ≤ 131072 then
        (table.update (key source) fun row => { row with hits := row.hits + 1 }, .hit code)
      else (table, .corrupt (key source) .malformed) := by
  obtain ⟨row, hrow, hrecords⟩ := h.row?_of_stored hlast
  have hread := Artifact.readBinary_binary code
  rw [← hrecords.program] at hread
  have hversion : row.version = formatVersion := hrecords.version
  simp only [Table.get, hrow, if_pos hversion, hread]
  unfold Cbor.sizeLimit
  split_ifs <;> rfl

theorem get_of_absent (h : Recorded deeds table) {source : Bytes}
    (habsent : ∀ code since, ¬LastStored (key source) code deeds since) :
    table.get source = (table, .miss) := by
  simp only [Table.get, h.row?_of_absent habsent]

theorem put (h : Recorded deeds table) (source : Bytes) (code : Code) (now : Int) :
    Recorded (.stored (key source) code :: deeds) (table.put source code now) := by
  have hne {row : Row} (hrow : row ∈ table.filter fun row => row.hash != key source) :
      row ∈ table ∧ row.hash ≠ key source := by
    simpa using hrow
  refine ⟨?_, ?_, ?_⟩
  · rw [Table.put, List.map_append, List.map_singleton, List.nodup_append]
    refine ⟨h.nodup.sublist (List.filter_sublist.map _), List.nodup_singleton _, ?_⟩
    intro hash hhash other hother
    obtain ⟨row, hrow, rfl⟩ := List.mem_map.mp hhash
    rw [List.mem_singleton.mp hother]
    exact (hne hrow).2
  · intro row hrow
    rcases List.mem_append.mp hrow with hold | hnew
    · obtain ⟨hmem, hother⟩ := hne hold
      obtain ⟨found, since, hlast, hrecords⟩ := h.rows row hmem
      refine ⟨found, _, .earlier _ nofun ?_ hlast, { hrecords with hits := ?_ }⟩
      · intro other hsame
        exact hother (Deed.stored.inj hsame).1.symm
      · have hnew : Deed.stored (key source) code ≠ .hit row.hash := nofun
        rw [hrecords.hits, hitsOn_cons_of_ne hnew]
    · obtain rfl := List.mem_singleton.mp hnew
      exact ⟨code, [], .now deeds, ⟨rfl, rfl, rfl, rfl⟩⟩
  · intro hash found since hlast
    cases hlast with
    | now => exact ⟨_, List.mem_append_right _ List.mem_cons_self, rfl⟩
    | earlier _ _ hother hlast =>
        obtain ⟨row, hrow, rfl⟩ := h.covers hash found _ hlast
        refine ⟨row, List.mem_append_left _ (List.mem_filter.mpr ⟨hrow, ?_⟩), rfl⟩
        rw [bne_iff_ne]
        intro hsame
        exact hother code (by rw [hsame])

theorem hit (h : Recorded deeds table) (hash : String) : Recorded (.hit hash :: deeds)
    (table.update hash fun row => { row with hits := row.hits + 1 }) := by
  have hhash (row : Row) :
      (if row.hash = hash then { row with hits := row.hits + 1 } else row).hash = row.hash := by
    split_ifs <;> rfl
  refine ⟨?_, ?_, ?_⟩
  · have hhashes : (table.update hash fun row => { row with hits := row.hits + 1 }).map Row.hash =
        table.map Row.hash := by
      rw [Table.update, List.map_map]
      exact List.map_congr_left fun row _ => hhash row
    rw [hhashes]
    exact h.nodup
  · intro row hrow
    obtain ⟨old, hold, rfl⟩ := List.mem_map.mp hrow
    obtain ⟨code, since, hlast, hrecords⟩ := h.rows old hold
    rw [hhash old]
    refine ⟨code, _, .earlier _ nofun nofun hlast, ?_⟩
    split_ifs with hsame
    · refine { hrecords with hits := ?_ }
      change old.hits + 1 = hitsOn old.hash (.hit hash :: since)
      rw [hrecords.hits, hsame, hitsOn_hit]
    · refine { hrecords with hits := ?_ }
      have hother : Deed.hit hash ≠ .hit old.hash := fun heq => hsame (Deed.hit.inj heq).symm
      rw [hrecords.hits, hitsOn_cons_of_ne hother]
  · intro other code since hlast
    cases hlast with
    | earlier _ _ _ hlast =>
        obtain ⟨row, hrow, rfl⟩ := h.covers other code _ hlast
        exact ⟨_, List.mem_map_of_mem hrow, hhash row⟩

theorem emptied (deeds : List Deed) : Recorded (.emptied :: deeds) [] where
  nodup := List.nodup_nil
  rows := List.forall_mem_nil _
  covers hash code since hlast := by
    cases hlast with
    | earlier _ hkept => exact absurd rfl hkept

end Recorded

/-! ### Calls -/

/-- A call of an archive in use. -/
inductive Call where
  | put (source : Bytes) (code : Code) (now : Int) (cancelled : Bool)
  | get (source : Bytes) (cancelled : Bool)
  | list (cancelled : Bool)
  | clear (cancelled : Bool)
  deriving DecidableEq, Repr

/-- What a call comes to: the archive behind it, and what the call did if it was carried out. -/
def Call.apply (shelf : Shelf) : Call → Shelf × Option Deed
  | .put source code now cancelled =>
    let (next, reply) := shelf.put source code now cancelled
    (next, reply.toOption.map fun _ => .stored (key source) code)
  | .get source cancelled =>
    let (next, reply) := shelf.get source cancelled
    (next, reply.toOption.join.map fun _ => .hit (key source))
  | .list _ => (shelf, none)
  | .clear cancelled =>
    let (next, reply) := shelf.clear cancelled
    (next, reply.toOption.map fun _ => .emptied)

/-- An archive with what was done to it, the latest first. -/
structure Chronicle where
  shelf : Shelf
  deeds : List Deed := []

/-- Makes a call. -/
def Chronicle.step (chronicle : Chronicle) (call : Call) : Chronicle :=
  let (next, deed?) := call.apply chronicle.shelf
  ⟨next, deed?.toList ++ chronicle.deeds⟩

/-- Makes calls one after the other. -/
def Chronicle.run (chronicle : Chronicle) (calls : List Call) : Chronicle :=
  calls.foldl step chronicle

namespace Shelf

/-- An open archive that is where it should be, with the rows that tell what was done. -/
structure Reflects (shelf : Shelf) (deeds : List Deed) : Prop where
  isOpen : shelf.store.isClosed = false
  placed : ∀ location, shelf.store.location = some location →
    ∃ rows, shelf.disk.node? location = some (.archive rows)
  writable : shelf.store.isReadOnly = true → shelf.table = []
  recorded : Recorded deeds shelf.table

variable {shelf : Shelf} {deeds : List Deed}

theorem permit_eq (hopen : shelf.store.isClosed = false) (cancelled : Bool) (action : Action) :
    shelf.permit cancelled action =
      if cancelled then .error (.interrupted action .cancelled) else .ok () := by
  rw [permit, hopen, if_neg Bool.false_ne_true]

theorem permitChange_eq (hopen : shelf.store.isClosed = false) (cancelled : Bool) (action : Action) :
    shelf.permitChange cancelled action =
      if cancelled then .error (.interrupted action .cancelled)
      else if shelf.store.isReadOnly then .error (.interrupted action .readOnly) else .ok () := by
  rw [permitChange, permit_eq hopen]
  cases cancelled <;> rfl

theorem store_withTable (shelf : Shelf) (rows : Table) :
    (shelf.withTable rows).store.isClosed = shelf.store.isClosed ∧
      (shelf.withTable rows).store.isReadOnly = shelf.store.isReadOnly ∧
      (shelf.withTable rows).store.location = shelf.store.location := by
  rw [withTable]
  split <;> exact ⟨rfl, rfl, rfl⟩

theorem node?_withTable {location : Location} {held : Table} (rows : Table)
    (hlocation : shelf.store.location = some location)
    (hnode : shelf.disk.node? location = some (.archive held)) :
    (shelf.withTable rows).disk.node? location = some (.archive rows) := by
  have hplace : location ≠ [] := by
    rintro rfl
    cases hnode
  simp only [withTable, hlocation, Disk.node?_put, if_neg hplace, if_true]

namespace Reflects

/-- The rows of an archive are those that it was given last. -/
theorem table_withTable (h : shelf.Reflects deeds) (rows : Table) :
    (shelf.withTable rows).table = rows := by
  rw [table]
  cases hlocation : shelf.store.location with
  | none => simp only [withTable, hlocation]
  | some location =>
      obtain ⟨held, hnode⟩ := h.placed location hlocation
      rw [(store_withTable shelf rows).2.2, hlocation]
      simp only [node?_withTable rows hlocation hnode]

theorem withTable (h : shelf.Reflects deeds) (hwritable : shelf.store.isReadOnly = false)
    {after : List Deed} {rows : Table} (hrows : Recorded after rows) :
    (shelf.withTable rows).Reflects after := by
  obtain ⟨hclosed, hreadOnly, hlocation⟩ := store_withTable shelf rows
  refine ⟨hclosed.trans h.isOpen, ?_, ?_, ?_⟩
  · intro location hplace
    rw [hlocation] at hplace
    obtain ⟨held, hnode⟩ := h.placed location hplace
    exact ⟨rows, node?_withTable rows hplace hnode⟩
  · intro hrejects
    rw [hreadOnly, hwritable] at hrejects
    cases hrejects
  · rw [h.table_withTable]
    exact hrows

/-- An archive that holds something can be changed. -/
theorem isWritable_of_stored (h : shelf.Reflects deeds) {hash : String} {code : Code}
    {since : List Deed} (hlast : LastStored hash code deeds since) :
    shelf.store.isReadOnly = false := by
  rw [Bool.eq_false_iff]
  intro hreadOnly
  obtain ⟨row, hrow, -⟩ := h.recorded.covers hash code since hlast
  rw [h.writable hreadOnly] at hrow
  cases hrow

theorem get_of_stored (h : shelf.Reflects deeds) {source : Bytes} {code : Code} {since : List Deed}
    (hlast : LastStored (key source) code deeds since) : shelf.get source false =
      if code.length ≤ 131072 then
        (shelf.withTable (shelf.table.update (key source) fun row =>
          { row with hits := row.hits + 1 }), .ok (some code))
      else (shelf, .error (.corrupt (key source) .malformed)) := by
  rw [get, permit_eq h.isOpen, if_neg Bool.false_ne_true]
  dsimp only
  rw [h.recorded.get_of_stored hlast, permitChange_eq h.isOpen, if_neg Bool.false_ne_true,
    h.isWritable_of_stored hlast, if_neg Bool.false_ne_true]
  split_ifs <;> rfl

theorem get_of_absent (h : shelf.Reflects deeds) {source : Bytes}
    (habsent : ∀ code since, ¬LastStored (key source) code deeds since) :
    shelf.get source false = (shelf, .ok none) := by
  rw [get, permit_eq h.isOpen, if_neg Bool.false_ne_true]
  dsimp only
  rw [h.recorded.get_of_absent habsent]

theorem get_cancelled (h : shelf.Reflects deeds) (source : Bytes) :
    shelf.get source true = (shelf, .error (.interrupted .get .cancelled)) := by
  rw [get, permit_eq h.isOpen, if_pos rfl]

theorem put_eq (h : shelf.Reflects deeds) (source : Bytes) (code : Code) (now : Int) :
    shelf.put source code now false =
      if shelf.store.isReadOnly then (shelf, .error (.interrupted .put .readOnly))
      else (shelf.withTable (shelf.table.put source code now), .ok ()) := by
  rw [put, permitChange_eq h.isOpen, if_neg Bool.false_ne_true]
  split_ifs <;> rfl

theorem put_cancelled (h : shelf.Reflects deeds) (source : Bytes) (code : Code) (now : Int) :
    shelf.put source code now true = (shelf, .error (.interrupted .put .cancelled)) := by
  rw [put, permitChange_eq h.isOpen, if_pos rfl]

theorem clear_eq (h : shelf.Reflects deeds) : shelf.clear false =
    if shelf.store.isReadOnly then (shelf, .error (.interrupted .clear .readOnly))
    else (shelf.withTable [], .ok shelf.table.length) := by
  rw [clear, permitChange_eq h.isOpen, if_neg Bool.false_ne_true]
  split_ifs <;> rfl

theorem clear_cancelled (h : shelf.Reflects deeds) :
    shelf.clear true = (shelf, .error (.interrupted .clear .cancelled)) := by
  rw [clear, permitChange_eq h.isOpen, if_pos rfl]

/-- One call: the rows go on telling what was done. -/
theorem step (h : shelf.Reflects deeds) (call : Call) :
    (Chronicle.step ⟨shelf, deeds⟩ call).shelf.Reflects (Chronicle.step ⟨shelf, deeds⟩ call).deeds := by
  cases call with
  | put source code now cancelled =>
      cases cancelled with
      | true =>
          simp only [Chronicle.step, Call.apply, h.put_cancelled]
          exact h
      | false =>
          simp only [Chronicle.step, Call.apply, h.put_eq]
          by_cases hreadOnly : shelf.store.isReadOnly = true
          · rw [if_pos hreadOnly]
            exact h
          · rw [if_neg hreadOnly]
            exact h.withTable (Bool.eq_false_iff.mpr hreadOnly) (h.recorded.put source code now)
  | get source cancelled =>
      cases cancelled with
      | true =>
          simp only [Chronicle.step, Call.apply, h.get_cancelled]
          exact h
      | false =>
          by_cases hstored : ∃ code since, LastStored (key source) code deeds since
          · obtain ⟨code, since, hlast⟩ := hstored
            simp only [Chronicle.step, Call.apply, h.get_of_stored hlast]
            split_ifs
            · exact h.withTable (h.isWritable_of_stored hlast) (h.recorded.hit (key source))
            · exact h
          · have habsent : ∀ code since, ¬LastStored (key source) code deeds since :=
              fun code since hlast => hstored ⟨code, since, hlast⟩
            simp only [Chronicle.step, Call.apply, h.get_of_absent habsent]
            exact h
  | list cancelled => exact h
  | clear cancelled =>
      cases cancelled with
      | true =>
          simp only [Chronicle.step, Call.apply, h.clear_cancelled]
          exact h
      | false =>
          simp only [Chronicle.step, Call.apply, h.clear_eq]
          by_cases hreadOnly : shelf.store.isReadOnly = true
          · rw [if_pos hreadOnly]
            exact h
          · rw [if_neg hreadOnly]
            exact h.withTable (Bool.eq_false_iff.mpr hreadOnly) (.emptied deeds)

theorem run (h : shelf.Reflects deeds) (calls : List Call) :
    (Chronicle.run ⟨shelf, deeds⟩ calls).shelf.Reflects
      (Chronicle.run ⟨shelf, deeds⟩ calls).deeds := by
  induction calls generalizing shelf deeds with
  | nil => exact h
  | cons call rest ih => exact ih (h.step call)

end Reflects

end Shelf

theorem node?_found? {disk opened : Disk} {location : Location} {access : Access}
    (h : found? disk location access = some opened) :
    ∃ rows, opened.node? location = some (.archive rows) := by
  rw [found?] at h
  split at h
  · next rows hnode =>
      obtain rfl := Option.some.inj h
      exact ⟨rows, hnode⟩
  · next content hnode =>
      split_ifs at h
      obtain rfl := Option.some.inj h
      have hplace : location ≠ [] := by
        rintro rfl
        cases hnode
      exact ⟨[], by rw [Disk.node?_put, if_neg hplace, if_pos rfl]⟩
  · cases h

/-- An archive that was opened is open, and if it has a place on disk it is there. -/
structure Store.InPlace (store : Store) (disk : Disk) : Prop where
  isOpen : store.isClosed = false
  placed : ∀ location, store.location = some location →
    ∃ rows, disk.node? location = some (.archive rows)

theorem inPlace_file {disk opened : Disk} {path file : String} {address : Address} {store : Store}
    (h : openFile disk path file address = (opened, .ok store)) : store.InPlace opened := by
  rw [openFile] at h
  split at h
  · cases h
  · split at h
    · split at h
      · cases h
      · next found hfound =>
          obtain ⟨rfl, hstore⟩ := Prod.mk.inj h
          obtain rfl := Except.ok.inj hstore
          refine ⟨rfl, ?_⟩
          rintro _ ⟨⟩
          exact node?_found? hfound
    · cases h

theorem inPlace_memory {path : String} {address : Address} {store : Store} (disk : Disk)
    (h : openMemory path address = .ok store) : store.InPlace disk := by
  rw [openMemory] at h
  split_ifs at h
  obtain rfl := Except.ok.inj h
  refine ⟨rfl, ?_⟩
  rintro _ ⟨⟩

theorem inPlace_openAt {disk opened : Disk} {path : String} {store : Store}
    (h : openAt disk path = (opened, .ok store)) : store.InPlace opened := by
  rw [openAt] at h
  generalize (if path = Address.memoryName then (disk, .ok ())
    else disk.ensureDirectories (Path.parent path)) = founding at h
  obtain ⟨founded, made⟩ := founding
  dsimp only at h
  split at h
  · cases h
  · cases h
  · split at h
    · obtain ⟨rfl, hstore⟩ := Prod.mk.inj h
      exact inPlace_memory founded hstore
    · exact inPlace_file h

/-- An archive without rows is one that nothing was done with. -/
theorem Store.InPlace.reflects {store : Store} {disk : Disk} (h : store.InPlace disk)
    (hempty : (Shelf.mk disk store).table = []) : (Shelf.mk disk store).Reflects [] := by
  refine ⟨h.isOpen, h.placed, fun _ => hempty, ?_⟩
  rw [hempty]
  exact .nil

/-- No call changes whether an archive can only be read. -/
theorem isReadOnly_step (chronicle : Chronicle) (call : Call) :
    (chronicle.step call).shelf.store.isReadOnly = chronicle.shelf.store.isReadOnly := by
  have hsame (rows : Table) := (Shelf.store_withTable chronicle.shelf rows).2.1
  cases call with
  | put source code now cancelled =>
      simp only [Chronicle.step, Call.apply, Shelf.put]
      split
      · rfl
      · exact hsame _
  | get source cancelled =>
      simp only [Chronicle.step, Call.apply, Shelf.get]
      split
      · rfl
      · split
        · rfl
        · rfl
        · split
          · rfl
          · exact hsame _
  | list cancelled => rfl
  | clear cancelled =>
      simp only [Chronicle.step, Call.apply, Shelf.clear]
      split
      · rfl
      · exact hsame _

theorem isReadOnly_run (chronicle : Chronicle) (calls : List Call) :
    (chronicle.run calls).shelf.store.isReadOnly = chronicle.shelf.store.isReadOnly := by
  induction calls generalizing chronicle with
  | nil => rfl
  | cons call rest ih => exact (ih _).trans (isReadOnly_step chronicle call)

/-- The archive answers as what was done with it says. -/
structure Chronicle.Answers (chronicle : Chronicle) : Prop where
  misses : ∀ source, (chronicle.shelf.get source false).2 = .ok none ↔
    ∀ code since, ¬LastStored (key source) code chronicle.deeds since
  finds : ∀ source code since, LastStored (key source) code chronicle.deeds since →
    (chronicle.shelf.get source false).2 =
      if code.length ≤ 131072 then .ok (some code) else .error (.corrupt (key source) .malformed)
  keeps : ∀ source cancelled, (∀ code, (chronicle.shelf.get source cancelled).2 ≠ .ok (some code)) →
    (chronicle.shelf.get source cancelled).1 = chronicle.shelf
  lists : ∃ rows, chronicle.shelf.entries false = .ok rows ∧ (rows.map Row.hash).Nodup ∧
    (∀ hash, hash ∈ rows.map Row.hash ↔ ∃ code since, LastStored hash code chronicle.deeds since) ∧
    ∀ row ∈ rows, ∀ code since, LastStored row.hash code chronicle.deeds since →
      row.version = 1 ∧ row.instructions = code.length ∧ row.hits = hitsOn row.hash since
  clears : ∀ cancelled count, (chronicle.shelf.clear cancelled).2 = .ok count →
    (∃ rows, chronicle.shelf.entries false = .ok rows ∧ rows.length = count) ∧
      (chronicle.shelf.clear cancelled).1.entries false = .ok []
  changes : chronicle.shelf.store.isReadOnly = false →
    (∀ source code now, (chronicle.shelf.put source code now false).2 = .ok ()) ∧
      ∃ count, (chronicle.shelf.clear false).2 = .ok count

namespace Shelf.Reflects

variable {shelf : Shelf} {deeds : List Deed} (h : shelf.Reflects deeds)

include h

theorem entries_eq : shelf.entries false = .ok shelf.table.entries := by
  rw [entries, permit_eq h.isOpen, if_neg Bool.false_ne_true]
  rfl

theorem answers : Chronicle.Answers ⟨shelf, deeds⟩ where
  misses source := by
    constructor
    · intro hmiss code since hlast
      rw [h.get_of_stored hlast] at hmiss
      split_ifs at hmiss
      · cases hmiss
    · intro habsent
      rw [h.get_of_absent habsent]
  finds source code since hlast := by
    dsimp only
    rw [h.get_of_stored hlast]
    split_ifs <;> rfl
  keeps source cancelled hmiss := by
    dsimp only at hmiss ⊢
    cases cancelled with
    | true => rw [h.get_cancelled]
    | false =>
        by_cases hstored : ∃ code since, LastStored (key source) code deeds since
        · obtain ⟨code, since, hlast⟩ := hstored
          rw [h.get_of_stored hlast] at hmiss ⊢
          split_ifs at hmiss ⊢
          · exact absurd rfl (hmiss code)
          · rfl
        · rw [h.get_of_absent fun code since hlast => hstored ⟨code, since, hlast⟩]
  lists := by
    have hperm : shelf.table.entries.Perm shelf.table := List.mergeSort_perm _ _
    refine ⟨_, h.entries_eq, ?_, fun hash => ?_, fun row hrow code since hlast => ?_⟩
    · exact (hperm.map Row.hash).nodup_iff.mpr h.recorded.nodup
    · rw [(hperm.map Row.hash).mem_iff, List.mem_map]
      constructor
      · rintro ⟨row, hrow, rfl⟩
        obtain ⟨code, since, hlast, -⟩ := h.recorded.rows row hrow
        exact ⟨code, since, hlast⟩
      · rintro ⟨code, since, hlast⟩
        exact h.recorded.covers hash code since hlast
    · obtain ⟨found, after, hfound, hrecords⟩ := h.recorded.rows row (hperm.mem_iff.mp hrow)
      obtain ⟨rfl, rfl⟩ := hlast.unique hfound
      exact ⟨hrecords.version, hrecords.instructions, hrecords.hits⟩
  clears cancelled count hcount := by
    dsimp only at hcount ⊢
    cases cancelled with
    | true =>
        rw [h.clear_cancelled] at hcount
        cases hcount
    | false =>
        rw [h.clear_eq] at hcount ⊢
        by_cases hreadOnly : shelf.store.isReadOnly = true
        · rw [if_pos hreadOnly] at hcount
          cases hcount
        · rw [if_neg hreadOnly] at hcount ⊢
          obtain rfl := Except.ok.inj hcount
          have hemptied := h.withTable (Bool.eq_false_iff.mpr hreadOnly) (.emptied deeds)
          refine ⟨⟨_, h.entries_eq, List.length_mergeSort _⟩, ?_⟩
          rw [hemptied.entries_eq, h.table_withTable, Table.entries, List.mergeSort_nil]
  changes hwritable := by
    dsimp only at hwritable ⊢
    rw [h.clear_eq, hwritable, if_neg Bool.false_ne_true]
    refine ⟨fun source code now => ?_, _, rfl⟩
    rw [h.put_eq, hwritable, if_neg Bool.false_ne_true]

end Shelf.Reflects

/-- An archive that is opened without rows answers after any calls as these and its replies say, and it
can be changed for as long as it is in use if it was opened so. -/
theorem archive_history (disk opened : Disk) (path : String) (store : Store)
    (hopen : openAt disk path = (opened, .ok store)) (hempty : (Shelf.mk opened store).table = [])
    (calls : List Call) :
    (Chronicle.run ⟨⟨opened, store⟩, []⟩ calls).Answers ∧
      (Chronicle.run ⟨⟨opened, store⟩, []⟩ calls).shelf.store.isReadOnly = store.isReadOnly :=
  ⟨(((inPlace_openAt hopen).reflects hempty).run calls).answers, isReadOnly_run _ calls⟩

/-- A new archive in memory. -/
def memoryStore : Store where
  path := ":memory:"
  location := none

/-- A program is stored and found, another one is stored in its place and found, and then a call is
cancelled. -/
def eventfulCalls : List Call :=
  [.put [] [.of .write] 7 false, .get [] false, .put [] [.of .literal 5] 8 false, .get [] false,
    .clear true]

theorem archive_history_eventful : openAt {} ":memory:" = ({}, .ok memoryStore) ∧
    (Shelf.mk {} memoryStore).table = [] ∧
    LastStored (key []) [.of .literal 5] (Chronicle.run ⟨⟨{}, memoryStore⟩, []⟩ eventfulCalls).deeds
      [.hit (key [])] ∧
    ((Chronicle.run ⟨⟨{}, memoryStore⟩, []⟩ eventfulCalls).shelf.get [] false).2 =
      .ok (some [.of .literal 5]) := by
  have haddress : Address.read? ":memory:" = some { path := none } := by decide +kernel
  have hopen : openAt {} ":memory:" = ({}, .ok memoryStore) := by
    rw [openAt, haddress]
    rfl
  have hempty : (Shelf.mk {} memoryStore).table = [] := rfl
  have hdeeds : (Chronicle.run ⟨⟨{}, memoryStore⟩, []⟩ eventfulCalls).deeds =
      [.hit (key []), .stored (key []) [.of .literal 5], .hit (key []),
        .stored (key []) [.of .write]] := by decide +kernel
  have hlast : LastStored (key []) [.of .literal 5]
      (Chronicle.run ⟨⟨{}, memoryStore⟩, []⟩ eventfulCalls).deeds [.hit (key [])] := by
    rw [hdeeds]
    exact .earlier _ nofun nofun (.now _)
  have hanswers := (archive_history {} {} ":memory:" memoryStore hopen hempty eventfulCalls).1
  refine ⟨hopen, hempty, hlast, ?_⟩
  rw [hanswers.finds [] _ _ hlast]
  rfl

end PlZero.Archive

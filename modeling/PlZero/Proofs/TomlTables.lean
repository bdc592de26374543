import PlZero.Proofs.TomlText

/-! Documents of sections with settings. Main statement: a document that is written section by section,
with different names for the sections and for the settings of each, is read as the table of its sections
with the values of their settings, in their order. -/

namespace PlZero.Toml

open PlZero.Text

namespace Table

/-- No entry of a table has a name. -/
def IsFree (table : Table) (name : String) : Prop :=
  ∀ entry ∈ table, entry.1 ≠ name

variable {table rest : Table} {name : String}

theorem isFree_of_nodup {names : List String} (h : (table.map Prod.fst ++ name :: names).Nodup) :
    IsFree table name := by
  intro entry hentry hsame
  refine List.disjoint_of_nodup_append h (List.mem_map_of_mem hentry) ?_
  rw [hsame]
  exact List.mem_cons_self

theorem lookup_of_isFree (h : IsFree table name) : table.lookup name = none := by
  rw [List.lookup_eq_none_iff]
  intro entry hentry
  exact bne_iff_ne.mpr (Ne.symm (h entry hentry))

theorem lookup_append_of_isFree (h : IsFree table name) (value : Value) :
    List.lookup name (table ++ [(name, value)]) = some value := by
  rw [List.lookup_append, lookup_of_isFree h, Option.none_or, List.lookup_cons_self]

theorem set_append_of_isFree (h : IsFree table name) (rest : Table) (value : Value) :
    Table.set (table ++ rest) name value = table ++ Table.set rest name value := by
  induction table with
  | nil => rfl
  | cons entry others ih =>
      obtain ⟨hentry, hothers⟩ := List.forall_mem_cons.mp h
      rw [List.cons_append, Table.set, if_neg hentry, ih hothers, List.cons_append]

theorem set_of_isFree (h : IsFree table name) (value : Value) :
    Table.set table name value = table ++ [(name, value)] := by
  have happend := set_append_of_isFree h [] value
  rwa [List.append_nil] at happend

theorem set_last (h : IsFree table name) (old value : Value) :
    Table.set (table ++ [(name, old)]) name value = table ++ [(name, value)] := by
  rw [set_append_of_isFree h, Table.set, if_pos rfl]

end Table

/-! ### Statements of sections -/

/-- The value that a literal is read as. -/
def Literal.value : Literal → Value
  | text value => .string value
  | boolean value => .boolean value
  | number value => .integer value

theorem evaluate?_term (name : String) (literal : Literal) (builder : Builder) :
    evaluate? name false literal.term builder = some (literal.value, builder) := by
  cases literal <;> rfl

theorem isArray_term (literal : Literal) : literal.term.isArray = false := by
  cases literal <;> rfl

/-- A section of a document: its name, and its settings in their order. -/
structure Section where
  name : String
  settings : List (String × Literal)

namespace Section

def statements (part : Section) : List Statement :=
  .table [part.name] :: part.settings.map fun setting => .entry [setting.1] setting.2.term

def entries (settings : List (String × Literal)) : Table :=
  settings.map fun setting => (setting.1, setting.2.value)

/-- The entry that a section is in the table of a document. -/
def entry (part : Section) : String × Value :=
  (part.name, .table (entries part.settings))

end Section

namespace Builder

variable {builder : Builder} {name : String}

/-- A header starts a table of its own behind those that are there. -/
theorem perform?_header (hfree : Table.IsFree builder.root name) (harrays : builder.arrays = []) :
    builder.perform? (.table [name]) =
      some { builder with root := builder.root ++ [(name, .table [])], context := [name] } := by
  obtain ⟨root, context, implied, arrays⟩ := builder
  cases harrays
  have hopen : open? ⟨root, context, implied, []⟩ [name] false =
      some ⟨root ++ [(name, .table [])], [name], implied, []⟩ := by
    simp [open?, assign?, Table.ensure, Table.at?, Table.within, Table.lookup_of_isFree hfree,
      Table.set_of_isFree hfree]
  rw [perform?, hopen]
  rfl

/-- A setting is put behind those of its section. -/
theorem perform?_setting {done inner : Table} {part : String} (hpart : Table.IsFree done part)
    (hfree : Table.IsFree inner name) {implied : List Key} (literal : Literal) :
    perform? ⟨done ++ [(part, .table inner)], [part], implied, []⟩ (.entry [name] literal.term) =
      some ⟨done ++ [(part, .table (inner ++ [(name, literal.value)]))], [part], implied, []⟩ := by
  have hassign : assign? ⟨done ++ [(part, .table inner)], [part], implied, []⟩ name literal.value =
      some ⟨done ++ [(part, .table (inner ++ [(name, literal.value)]))], [part], implied, []⟩ := by
    simp [assign?, Table.at?, Table.within, Table.lookup_append_of_isFree hpart,
      Table.lookup_of_isFree hfree, Table.set_of_isFree hfree, Table.set_last hpart]
  simp [perform?, enter?, evaluate?_term, hassign, note, isArray_term]

theorem foldlM_settings {done : Table} {part : String} (hpart : Table.IsFree done part)
    (implied : List Key) (settings : List (String × Literal)) (inner : Table)
    (hdistinct : (inner.map Prod.fst ++ settings.map Prod.fst).Nodup) :
    (settings.map fun setting => Statement.entry [setting.1] setting.2.term).foldlM perform?
        ⟨done ++ [(part, .table inner)], [part], implied, []⟩ =
      some ⟨done ++ [(part, .table (inner ++ Section.entries settings))], [part], implied, []⟩ := by
  induction settings generalizing inner with
  | nil => simp [Section.entries]
  | cons setting settings ih =>
      have hfree : Table.IsFree inner setting.1 := Table.isFree_of_nodup hdistinct
      have hrest := ih (inner ++ [(setting.1, setting.2.value)]) (by simpa using hdistinct)
      rw [List.map_cons, List.foldlM_cons, perform?_setting hpart hfree, Option.bind_eq_bind,
        Option.bind_some, hrest, List.append_assoc]
      rfl

theorem foldlM_sections (parts : List Section) (done : Table) (context : Key) (implied : List Key)
    (hdistinct : (done.map Prod.fst ++ parts.map Section.name).Nodup)
    (hsettings : ∀ part ∈ parts, (part.settings.map Prod.fst).Nodup) :
    ((parts.flatMap Section.statements).foldlM perform? ⟨done, context, implied, []⟩).map root =
      some (done ++ parts.map Section.entry) := by
  induction parts generalizing done context with
  | nil => simp
  | cons part parts ih =>
      obtain ⟨hpart, hparts⟩ := List.forall_mem_cons.mp hsettings
      have hfree : Table.IsFree done part.name := Table.isFree_of_nodup hdistinct
      have hfilled := foldlM_settings hfree implied part.settings [] (by simpa using hpart)
      have hrest := ih (done ++ [part.entry]) [part.name] (by simpa [Section.entry] using hdistinct) hparts
      rw [List.flatMap_cons, List.foldlM_append, Section.statements, List.foldlM_cons,
        perform?_header hfree rfl, Option.bind_eq_bind, Option.bind_some, hfilled, Option.bind_some]
      rw [List.append_assoc, List.singleton_append] at hrest
      rw [List.nil_append, List.map_cons]
      exact hrest

end Builder

/-- A document that is written section by section is read as the table of its sections. -/
theorem read?_sections {lines : List Line} {parts : List Section} {text : List Char}
    (hvalid : ∀ line ∈ lines, line.IsValid) (htext : text = lines.flatMap Line.spelling)
    (hmark : dropMark (encodeChars text) = encodeChars text)
    (hstatements : lines.filterMap Line.statement? = parts.flatMap Section.statements)
    (hdistinct : (parts.map Section.name).Nodup)
    (hsettings : ∀ part ∈ parts, (part.settings.map Prod.fst).Nodup) :
    read? (encodeChars text) = some (parts.map Section.entry) := by
  have hbuilt := Builder.foldlM_sections parts [] [] [] (by simpa using hdistinct) hsettings
  rw [← hstatements, List.nil_append] at hbuilt
  rw [read?, hmark, chars?_encodeChars, htext, Option.bind_eq_bind, Option.bind_some, parse?_lines hvalid]
  simpa [Option.map_eq_bind] using hbuilt

end PlZero.Toml

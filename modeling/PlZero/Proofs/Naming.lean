import PlZero.Proofs.Admission
import PlZero.Proofs.Grammar

/-! Names while a block is read from left to right: what the names declared so far allow an item to use,
and the names declared behind it. Main statement: all items of a block are allowed where they stand
exactly when the block keeps the rules on names, which speak of the block as a whole. -/

namespace PlZero.Source

namespace SymbolTable

/-- The name may be used in an expression: it is declared and has a value. -/
def Usable (table : SymbolTable) (name : String) : Prop :=
  ∃ cls, table.class? name = some cls ∧ cls ≠ .uninitialized

/-- The name may be assigned to: it is declared and no constant. -/
def Assignable (table : SymbolTable) (name : String) : Prop :=
  ∃ cls, table.class? name = some cls ∧ cls ≠ .constant

/-- Every name of the expression may be used. -/
def Covers (table : SymbolTable) (tree : Expression) : Prop :=
  ∀ used ∈ tree.names, table.Usable used

/-- The table with one more name behind the others. -/
def add (table : SymbolTable) (name : String) (cls : SymbolClass) : SymbolTable :=
  ⟨table.entries ++ [(name, cls)]⟩

/-- The class that the declaration of a variable gives it. -/
def classOf (declared : Variable) : SymbolClass :=
  if declared.initial.isSome then .initialized else .uninitialized

theorem classOf_ne_uninitialized_iff {declared : Variable} :
    classOf declared ≠ .uninitialized ↔ declared.initial.isSome := by
  unfold classOf
  split <;> simp_all

theorem classOf_ne_constant (declared : Variable) : classOf declared ≠ .constant := by
  unfold classOf
  split <;> decide

def AllowsConstant (table : SymbolTable) (constant : Constant) : Prop :=
  table.class? constant.name = none

def afterConstant (table : SymbolTable) (constant : Constant) : SymbolTable :=
  table.add constant.name .constant

def AllowsVariable (table : SymbolTable) (declared : Variable) : Prop :=
  table.class? declared.name = none ∧ ∀ value, declared.initial = some value → table.Covers value

def afterVariable (table : SymbolTable) (declared : Variable) : SymbolTable :=
  table.add declared.name (classOf declared)

def AllowsStatement (table : SymbolTable) : Statement → Prop
  | .assign target value => table.Assignable target ∧ table.Covers value
  | .print value => table.Covers value
  | .empty => True

def afterStatement (table : SymbolTable) : Statement → SymbolTable
  | .assign target _ => table.markInitialized target
  | _ => table

end SymbolTable

namespace SymbolTable

theorem class?_eq_none_iff {table : SymbolTable} {name : String} :
    table.class? name = none ↔ name ∉ table.names := by
  simp only [class?, names, List.lookup_eq_none_iff, bne_iff_ne, List.mem_map, not_exists, not_and]
  constructor
  · intro h entry hentry heq
    exact h entry hentry heq.symm
  · intro h entry hentry heq
    exact h entry hentry heq.symm

theorem class?_eq_some_iff {table : SymbolTable} (hnodup : table.names.Nodup) {name : String}
    {cls : SymbolClass} : table.class? name = some cls ↔ (name, cls) ∈ table.entries := by
  rw [class?, List.lookup_eq_some_iff]
  constructor
  · rintro ⟨before, rest, hsplit, -⟩
    rw [hsplit]
    simp
  · intro hmem
    obtain ⟨before, rest, hsplit⟩ := List.append_of_mem hmem
    refine ⟨before, rest, hsplit, ?_⟩
    intro entry hentry
    have hne : entry.1 ≠ name := by
      rw [names, hsplit, List.map_append, List.map_cons, List.nodup_append] at hnodup
      exact hnodup.2.2 _ (List.mem_map_of_mem hentry) _ List.mem_cons_self
    simpa using hne.symm

theorem names_add (table : SymbolTable) (name : String) (cls : SymbolClass) :
    (table.add name cls).names = table.names ++ [name] := by
  simp [names, add]

theorem entries_foldl_add {α : Type} (name : α → String) (cls : α → SymbolClass) (items : List α)
    (table : SymbolTable) :
    (items.foldl (fun table item => table.add (name item) (cls item)) table).entries =
      table.entries ++ items.map fun item => (name item, cls item) := by
  induction items generalizing table with
  | nil => simp
  | cons item rest ih =>
      rw [List.foldl_cons, ih]
      simp [add]

/-- Names are declared one after the other without a clash exactly when they are distinct. -/
theorem admits_new_iff_nodup {α : Type} (name : α → String) (cls : α → SymbolClass)
    (items : List α) {table : SymbolTable} (hnodup : table.names.Nodup) :
    Admits (fun table item => table.class? (name item) = none)
        (fun table item => table.add (name item) (cls item)) table items ↔
      (table.names ++ items.map name).Nodup := by
  induction items generalizing table with
  | nil => simpa [Admits] using hnodup
  | cons item rest ih =>
      rw [Admits, class?_eq_none_iff]
      by_cases hnew : name item ∈ table.names
      · simp only [hnew, not_true_eq_false, false_and, List.map_cons, false_iff]
        intro h
        exact (List.nodup_append.mp h).2.2 _ hnew _ List.mem_cons_self rfl
      · have hadded : (table.add (name item) (cls item)).names.Nodup := by
          rw [names_add, ← List.concat_eq_append]
          exact hnodup.concat hnew
        rw [ih hadded, names_add]
        simp [hnew]

theorem class?_markInitialized (table : SymbolTable) (target name : String) :
    (table.markInitialized target).class? name = (table.class? name).map fun cls =>
      if name = target ∧ cls = .uninitialized then .initialized else cls := by
  obtain ⟨entries⟩ := table
  simp only [markInitialized, class?]
  induction entries with
  | nil => rfl
  | cons entry rest ih =>
      obtain ⟨first, cls⟩ := entry
      by_cases hname : name = first
      · subst hname
        by_cases htarget : name = target <;> cases cls <;> simp [htarget]
      · have hfirst : (name == first) = false := by simpa using hname
        rw [List.map_cons]
        by_cases hmarked : (first == target && cls == .uninitialized) = true
        · rw [if_pos hmarked, List.lookup_cons, List.lookup_cons, hfirst]
          exact ih
        · rw [if_neg hmarked, List.lookup_cons, List.lookup_cons, hfirst]
          exact ih

theorem assignable_afterStatement {table : SymbolTable} {statement : Statement} {name : String} :
    (table.afterStatement statement).Assignable name ↔ table.Assignable name := by
  cases statement with
  | assign target value =>
      rw [Assignable, Assignable, afterStatement, class?_markInitialized]
      rcases table.class? name with _ | _ | _ | _ <;> by_cases h : name = target <;> simp [h]
  | print value => rfl
  | empty => rfl

/-- A statement makes a name usable by assigning to it. -/
theorem usable_afterStatement {table : SymbolTable} {statement : Statement} {name : String} :
    (table.afterStatement statement).Usable name ↔ table.Usable name ∨
      table.class? name = some .uninitialized ∧ ∃ value, statement = .assign name value := by
  cases statement with
  | assign target value =>
      rw [Usable, Usable, afterStatement, class?_markInitialized]
      rcases table.class? name with _ | _ | _ | _ <;> by_cases h : name = target <;>
        simp [h, eq_comm]
  | print value => simp [afterStatement]
  | empty => simp [afterStatement]

theorem uninitialized_afterStatement {table : SymbolTable} {statement : Statement} {name : String} :
    (table.afterStatement statement).class? name = some .uninitialized ↔
      table.class? name = some .uninitialized ∧ ¬∃ value, statement = .assign name value := by
  cases statement with
  | assign target value =>
      rw [afterStatement, class?_markInitialized]
      rcases table.class? name with _ | _ | _ | _ <;> by_cases h : name = target <;>
        simp [h, eq_comm]
  | print value => simp [afterStatement]
  | empty => simp [afterStatement]

theorem assignable_foldl_afterStatement (statements : List Statement) (table : SymbolTable)
    (name : String) :
    (statements.foldl afterStatement table).Assignable name ↔ table.Assignable name := by
  induction statements generalizing table with
  | nil => rfl
  | cons statement rest ih => rw [List.foldl_cons, ih, assignable_afterStatement]

theorem usable_foldl_afterStatement (statements : List Statement) (table : SymbolTable)
    (name : String) : (statements.foldl afterStatement table).Usable name ↔ table.Usable name ∨
      table.class? name = some .uninitialized ∧ ∃ value, .assign name value ∈ statements := by
  induction statements generalizing table with
  | nil => simp
  | cons statement rest ih =>
      rw [List.foldl_cons, ih, usable_afterStatement, uninitialized_afterStatement]
      by_cases hhead : ∃ value, statement = .assign name value
      · obtain ⟨value, rfl⟩ := hhead
        simp
      · have hmem : (∃ value, Statement.assign name value ∈ statement :: rest) ↔
            ∃ value, Statement.assign name value ∈ rest := by
          constructor
          · rintro ⟨value, hvalue⟩
            rcases List.mem_cons.mp hvalue with rfl | hrest
            · exact absurd ⟨value, rfl⟩ hhead
            · exact ⟨value, hrest⟩
          · rintro ⟨value, hvalue⟩
            exact ⟨value, List.mem_cons_of_mem _ hvalue⟩
        rw [hmem]
        simp [hhead]

/-- The names behind the declarations of a block, in order. -/
def declared (constants : List Constant) (vars : List Variable) : SymbolTable :=
  vars.foldl afterVariable (constants.foldl afterConstant .empty)

theorem entries_declared (constants : List Constant) (vars : List Variable) :
    (declared constants vars).entries =
      constants.map (fun constant => (constant.name, .constant)) ++
        vars.map fun declared => (declared.name, classOf declared) := by
  have hvars := entries_foldl_add Variable.name classOf vars (constants.foldl afterConstant .empty)
  have hconstants := entries_foldl_add Constant.name (fun _ => .constant) constants .empty
  exact hvars.trans (congrArg (· ++ _) hconstants)

theorem names_declared (constants : List Constant) (vars : List Variable) :
    (declared constants vars).names = constants.map Constant.name ++ vars.map Variable.name := by
  rw [names, entries_declared, List.map_append, List.map_map, List.map_map]
  rfl

section Declared

variable {constants : List Constant} {vars : List Variable}
  (hnodup : (constants.map Constant.name ++ vars.map Variable.name).Nodup)
include hnodup

theorem class?_declared_eq_some_iff {name : String} {cls : SymbolClass} :
    (declared constants vars).class? name = some cls ↔
      cls = .constant ∧ (∃ constant ∈ constants, constant.name = name) ∨
        ∃ declared ∈ vars, declared.name = name ∧ classOf declared = cls := by
  rw [← names_declared] at hnodup
  rw [class?_eq_some_iff hnodup, entries_declared, List.mem_append, List.mem_map, List.mem_map]
  simp only [Prod.mk.injEq]
  constructor
  · rintro (⟨constant, hmem, rfl, rfl⟩ | ⟨declared, hmem, rfl, rfl⟩)
    · exact Or.inl ⟨rfl, constant, hmem, rfl⟩
    · exact Or.inr ⟨declared, hmem, rfl, rfl⟩
  · rintro (⟨rfl, constant, hmem, rfl⟩ | ⟨declared, hmem, rfl, rfl⟩)
    · exact Or.inl ⟨constant, hmem, rfl, rfl⟩
    · exact Or.inr ⟨declared, hmem, rfl, rfl⟩

theorem usable_declared {name : String} : (declared constants vars).Usable name ↔
    (∃ constant ∈ constants, constant.name = name) ∨
      ∃ declared ∈ vars, declared.name = name ∧ declared.initial.isSome := by
  simp only [Usable, class?_declared_eq_some_iff hnodup]
  constructor
  · rintro ⟨cls, ⟨-, hconstant⟩ | ⟨declared, hmem, hname, rfl⟩, hcls⟩
    · exact Or.inl hconstant
    · exact Or.inr ⟨declared, hmem, hname, classOf_ne_uninitialized_iff.mp hcls⟩
  · rintro (hconstant | ⟨declared, hmem, hname, hinitial⟩)
    · exact ⟨.constant, Or.inl ⟨rfl, hconstant⟩, by decide⟩
    · exact ⟨classOf declared, Or.inr ⟨declared, hmem, hname, rfl⟩,
        classOf_ne_uninitialized_iff.mpr hinitial⟩

theorem uninitialized_declared {name : String} :
    (declared constants vars).class? name = some .uninitialized ↔
      ∃ declared ∈ vars, declared.name = name ∧ ¬declared.initial.isSome := by
  rw [class?_declared_eq_some_iff hnodup]
  constructor
  · rintro (⟨hcls, -⟩ | ⟨declared, hmem, hname, hcls⟩)
    · cases hcls
    · refine ⟨declared, hmem, hname, fun hinitial => ?_⟩
      exact classOf_ne_uninitialized_iff.mpr hinitial hcls
  · rintro ⟨declared, hmem, hname, hinitial⟩
    exact Or.inr ⟨declared, hmem, hname, if_neg hinitial⟩

theorem assignable_declared {name : String} : (declared constants vars).Assignable name ↔
    ∃ declared ∈ vars, declared.name = name := by
  simp only [Assignable, class?_declared_eq_some_iff hnodup]
  constructor
  · rintro ⟨cls, ⟨rfl, -⟩ | ⟨declared, hmem, hname, -⟩, hcls⟩
    · exact absurd rfl hcls
    · exact ⟨declared, hmem, hname⟩
  · rintro ⟨declared, hmem, hname⟩
    exact ⟨classOf declared, Or.inr ⟨declared, hmem, hname, rfl⟩, classOf_ne_constant declared⟩

end Declared

end SymbolTable

/-! ### Blocks -/

namespace Block

open SymbolTable

/-- Every item of the block is allowed where it stands. -/
def Allowed (block : Block) : Prop :=
  Admits AllowsConstant afterConstant .empty block.constants ∧
  Admits AllowsVariable afterVariable (declared block.constants []) block.vars ∧
  Admits AllowsStatement afterStatement (declared block.constants block.vars) block.statements

theorem nodup_names_iff_admits (block : Block) : block.names.Nodup ↔
    Admits AllowsConstant afterConstant .empty block.constants ∧
      Admits (fun table declared => table.class? declared.name = none) afterVariable
        (declared block.constants []) block.vars := by
  have hconstants : Admits AllowsConstant afterConstant .empty block.constants ↔
      (block.constants.map Constant.name).Nodup :=
    admits_new_iff_nodup Constant.name (fun _ => .constant) block.constants List.nodup_nil
  have hnames := names_declared block.constants []
  rw [List.map_nil, List.append_nil] at hnames
  rw [hconstants]
  by_cases hnodup : (block.constants.map Constant.name).Nodup
  · have hvars := admits_new_iff_nodup Variable.name classOf block.vars (hnames ▸ hnodup)
    rw [hnames] at hvars
    simp only [hnodup, true_and]
    exact hvars.symm
  · simp only [hnodup, false_and, iff_false]
    intro h
    exact hnodup (List.nodup_append.mp h).1

section WellNamed

variable {block : Block} (hnodup : block.names.Nodup)
include hnodup

theorem admits_covers_iff :
    Admits (fun table declared => ∀ value, declared.initial = some value → table.Covers value)
        afterVariable (declared block.constants []) block.vars ↔
      ∀ (before : List Variable) (declared : Variable) (after : List Variable) (value : Expression),
        block.vars = before ++ declared :: after → declared.initial = some value →
        ∀ used ∈ value.names, block.HasConstant used ∨
          ∃ earlier ∈ before, earlier.name = used ∧ earlier.initial.isSome := by
  have husable : ∀ before declared after, block.vars = before ++ declared :: after → ∀ used,
      (before.foldl afterVariable (SymbolTable.declared block.constants [])).Usable used ↔
        block.HasConstant used ∨
          ∃ earlier ∈ before, earlier.name = used ∧ earlier.initial.isSome := by
    intro before declared after hsplit used
    refine usable_declared (List.Nodup.sublist ?_ hnodup)
    rw [names, hsplit, List.map_append]
    exact (List.Sublist.refl _).append (List.sublist_append_left _ _)
  rw [admits_iff_split]
  constructor
  · intro h before declared after value hsplit hvalue used hused
    exact (husable before declared after hsplit used).mp
      (h before declared after hsplit value hvalue used hused)
  · intro h before declared after hsplit value hvalue used hused
    exact (husable before declared after hsplit used).mpr
      (h before declared after value hsplit hvalue used hused)

/-- What a statement may use behind the statements before it. -/
theorem usable_before (before : List Statement) (used : String) :
    (before.foldl afterStatement (declared block.constants block.vars)).Usable used ↔
      block.HasConstant used ∨ ∃ declared ∈ block.vars, declared.name = used ∧
        (declared.initial.isSome ∨ ∃ value, .assign used value ∈ before) := by
  rw [usable_foldl_afterStatement, usable_declared hnodup, uninitialized_declared hnodup]
  constructor
  · rintro ((hconstant | ⟨declared, hmem, hname, hinitial⟩) | ⟨⟨declared, hmem, hname, -⟩, hassigned⟩)
    · exact Or.inl hconstant
    · exact Or.inr ⟨declared, hmem, hname, Or.inl hinitial⟩
    · exact Or.inr ⟨declared, hmem, hname, Or.inr hassigned⟩
  · rintro (hconstant | ⟨declared, hmem, hname, hvalue⟩)
    · exact Or.inl (Or.inl hconstant)
    · by_cases hinitial : declared.initial.isSome
      · exact Or.inl (Or.inr ⟨declared, hmem, hname, hinitial⟩)
      · exact Or.inr ⟨⟨declared, hmem, hname, hinitial⟩, hvalue.resolve_left hinitial⟩

theorem not_hasConstant {name : String} (hvar : ∃ declared ∈ block.vars, declared.name = name) :
    ¬block.HasConstant name := by
  rintro ⟨constant, hconstant, hname⟩
  obtain ⟨declared, hdeclared, rfl⟩ := hvar
  exact (List.nodup_append.mp hnodup).2.2 _ (List.mem_map_of_mem hconstant) _
    (List.mem_map_of_mem hdeclared) hname

theorem allowsStatement_iff (before : List Statement) (statement : Statement) :
    (before.foldl afterStatement (declared block.constants block.vars)).AllowsStatement statement ↔
      (∀ target value, statement = .assign target value →
        (∃ declared ∈ block.vars, declared.name = target) ∧ ¬block.HasConstant target) ∧
      ∀ used ∈ statement.names, block.HasConstant used ∨
        ∃ declared ∈ block.vars, declared.name = used ∧
          (declared.initial.isSome ∨ ∃ value, .assign used value ∈ before) := by
  have hcovers : ∀ tree : Expression,
      (before.foldl afterStatement (declared block.constants block.vars)).Covers tree ↔
        ∀ used ∈ tree.names, block.HasConstant used ∨
          ∃ declared ∈ block.vars, declared.name = used ∧
            (declared.initial.isSome ∨ ∃ value, .assign used value ∈ before) := by
    intro tree
    simp only [Covers, usable_before hnodup]
  cases statement with
  | assign target value =>
      rw [AllowsStatement, hcovers, assignable_foldl_afterStatement, assignable_declared hnodup]
      constructor
      · rintro ⟨hvar, hused⟩
        refine ⟨?_, hused⟩
        rintro _ _ ⟨⟩
        exact ⟨hvar, not_hasConstant hnodup hvar⟩
      · rintro ⟨htarget, hused⟩
        exact ⟨(htarget target value rfl).1, hused⟩
  | print value =>
      rw [AllowsStatement, hcovers]
      exact ⟨fun hused => ⟨nofun, hused⟩, fun h => h.2⟩
  | empty => exact ⟨fun _ => ⟨nofun, nofun⟩, fun _ => trivial⟩

end WellNamed

/-- The items of a block are allowed where they stand exactly when the block keeps the rules on
names. -/
theorem allowed_iff_wellNamed {block : Block} : block.Allowed ↔ block.WellNamed := by
  have hvars : Admits AllowsVariable afterVariable (declared block.constants []) block.vars ↔
      Admits (fun table declared => table.class? declared.name = none) afterVariable
          (declared block.constants []) block.vars ∧
        Admits (fun table declared => ∀ value, declared.initial = some value → table.Covers value)
          afterVariable (declared block.constants []) block.vars := admits_and
  have hnodup : block.Allowed → block.names.Nodup := fun h =>
    (nodup_names_iff_admits block).mpr ⟨h.1, (hvars.mp h.2.1).1⟩
  constructor
  · intro h
    have hdistinct := hnodup h
    have hstatements := admits_iff_split.mp h.2.2
    refine ⟨hdistinct, (admits_covers_iff hdistinct).mp (hvars.mp h.2.1).2, ?_, ?_⟩
    · intro target value hmem
      obtain ⟨before, after, hsplit⟩ := List.append_of_mem hmem
      exact ((allowsStatement_iff hdistinct before _).mp (hstatements before _ after hsplit)).1
        target value rfl
    · intro before statement after hsplit
      exact ((allowsStatement_iff hdistinct before _).mp (hstatements before _ after hsplit)).2
  · intro h
    obtain ⟨hconstants, hnew⟩ := (nodup_names_iff_admits block).mp h.distinct
    refine ⟨hconstants, hvars.mpr ⟨hnew, (admits_covers_iff h.distinct).mpr h.initializers⟩, ?_⟩
    rw [admits_iff_split]
    intro before statement after hsplit
    refine (allowsStatement_iff h.distinct before statement).mpr
      ⟨?_, h.uses before statement after hsplit⟩
    rintro target value rfl
    exact h.targets target value (by rw [hsplit]; simp)

variable {block : Block}

/-- A name has the same slot among all names as among those declared before some point. -/
theorem slot_eq {names more : List String} (hnames : block.names = names ++ more) (used : String)
    (hused : used ∈ names) : block.slot used = Int32.ofNat (names.idxOf used) := by
  rw [slot, hnames, List.idxOf_append_of_mem hused]

/-- A declared name is none of those declared before. -/
theorem notMem_of_nodup {names more : List String} {name : String}
    (hnames : block.names = names ++ name :: more) (hdistinct : block.names.Nodup) :
    name ∉ names := by
  rw [hnames, List.nodup_middle, List.nodup_cons] at hdistinct
  exact fun hname => hdistinct.1 (List.mem_append_left _ hname)

theorem names_eq_of_constants {before after : List Constant} {constant : Constant}
    (h : block.constants = before ++ constant :: after) :
    block.names = before.map Constant.name ++
      constant.name :: (after.map Constant.name ++ block.vars.map Variable.name) := by
  rw [names, h, List.map_append, List.map_cons, List.append_assoc, List.cons_append]

theorem names_eq_of_vars {before after : List Variable} {declared : Variable}
    (h : block.vars = before ++ declared :: after) :
    block.names = (block.constants.map Constant.name ++ before.map Variable.name) ++
      declared.name :: after.map Variable.name := by
  rw [names, h, List.map_append, List.map_cons, List.append_assoc]

/-- What an initial value uses is declared before. -/
theorem WellNamed.mem_of_initializer (h : block.WellNamed) {before after : List Variable}
    {declared : Variable} {tree : Expression} (hvars : block.vars = before ++ declared :: after)
    (hinitial : declared.initial = some tree) : ∀ used ∈ tree.names,
      used ∈ block.constants.map Constant.name ++ before.map Variable.name := by
  intro used hused
  rw [List.mem_append, List.mem_map, List.mem_map]
  exact (h.initializers before declared after tree hvars hinitial used hused).imp_right
    fun ⟨earlier, hearlier, hname, _⟩ => ⟨earlier, hearlier, hname⟩

/-- What a statement uses is declared. -/
theorem WellNamed.mem_of_statement (h : block.WellNamed) {before after : List Statement}
    {statement : Statement} (hstatements : block.statements = before ++ statement :: after) :
    ∀ used ∈ statement.names, used ∈ block.names := by
  intro used hused
  rw [names, List.mem_append, List.mem_map, List.mem_map]
  exact (h.uses before statement after hstatements used hused).imp_right
    fun ⟨declared, hdeclared, hname, _⟩ => ⟨declared, hdeclared, hname⟩

/-- What a statement assigns to is declared. -/
theorem WellNamed.mem_of_target (h : block.WellNamed) {before after : List Statement}
    {target : String} {tree : Expression}
    (hstatements : block.statements = before ++ .assign target tree :: after) :
    target ∈ block.names := by
  have hmem : .assign target tree ∈ block.statements := by
    rw [hstatements]
    exact List.mem_append_right _ List.mem_cons_self
  rw [names, List.mem_append, List.mem_map, List.mem_map]
  exact .inr (h.targets target tree hmem).1

end Block

end PlZero.Source

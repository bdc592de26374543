import PlZero.Proofs.Naming

/-! The symbol table along a history of declarations, promotions and fresh starts, and beside it the
same table kept by class: for each class a map from names to slots, and one list of all names. Main
statement: both answer alike after every history. The maps share no name and hold the declared names,
each of which has its place as its slot; and until a fresh start a name keeps its slot, and its class
but for the promotion of a variable that had no value. -/

namespace PlZero.Source

/-- What may be done to a symbol table. -/
inductive TableChange where
  | declare (name : String) (isInitialized isConstant : Bool)
  | markInitialized (name : String)
  | reset
  deriving DecidableEq, Repr

namespace SymbolTable

/-- The table after a change; a declaration that is refused leaves it as it is. -/
def change (table : SymbolTable) : TableChange → SymbolTable
  | .declare name isInitialized isConstant =>
    ((table.declare? name (.ofDeclaration isInitialized isConstant)).map Prod.fst).getD table
  | .markInitialized name => table.markInitialized name
  | .reset => .empty

/-- The table after a history that starts with an empty one. -/
def afterChanges (changes : List TableChange) : SymbolTable :=
  changes.foldl change .empty

variable {table : SymbolTable} {name other : String} {cls : SymbolClass}

theorem afterChanges_append (before after : List TableChange) :
    afterChanges (before ++ after) = after.foldl change (afterChanges before) :=
  List.foldl_append

theorem size_eq_length_names (table : SymbolTable) : table.size = table.names.length :=
  (List.length_map _).symm

theorem declare?_eq (table : SymbolTable) (name : String) (cls : SymbolClass) :
    table.declare? name cls =
      if name ∈ table.names then none else some (table.add name cls, Int32.ofNat table.size) := by
  rw [declare?]
  cases hclass : table.class? name with
  | none => rw [if_neg (class?_eq_none_iff.mp hclass), add]
  | some found =>
      have hmem : name ∈ table.names := by
        by_contra hnew
        rw [class?_eq_none_iff.mpr hnew] at hclass
        cases hclass
      rw [if_pos hmem]

theorem change_declare (table : SymbolTable) (name : String) (isInitialized isConstant : Bool) :
    table.change (.declare name isInitialized isConstant) =
      if name ∈ table.names then table
      else table.add name (.ofDeclaration isInitialized isConstant) := by
  rw [change, declare?_eq]
  split <;> rfl

@[simp] theorem names_markInitialized (table : SymbolTable) (name : String) :
    (table.markInitialized name).names = table.names := by
  rw [names, markInitialized, List.map_map, names]
  refine List.map_congr_left fun entry _ => ?_
  rw [Function.comp_apply]
  split <;> rfl

theorem nodup_change (hnodup : table.names.Nodup) (change : TableChange) :
    (table.change change).names.Nodup := by
  cases change with
  | declare name isInitialized isConstant =>
      rw [change_declare]
      split
      · exact hnodup
      · next hnew =>
          rw [names_add, ← List.concat_eq_append]
          exact hnodup.concat hnew
  | markInitialized name =>
      rw [SymbolTable.change, names_markInitialized]
      exact hnodup
  | reset => exact List.nodup_nil

theorem nodup_afterChanges (changes : List TableChange) : (afterChanges changes).names.Nodup := by
  induction changes using List.reverseRecOn with
  | nil => exact List.nodup_nil
  | append_singleton before last ih =>
      rw [afterChanges_append]
      exact nodup_change ih last

theorem slot?_eq_none_iff : table.slot? name = none ↔ name ∉ table.names := by
  rw [slot?, Option.map_eq_none_iff, List.idxOf?_eq_none_iff]

theorem slot?_of_place (hnodup : table.names.Nodup) {index : Nat}
    (h : table.names[index]? = some name) : table.slot? name = some (Int32.ofNat index) := by
  obtain ⟨hindex, hname⟩ := List.getElem?_eq_some_iff.mp h
  have hplace : table.names.idxOf? name = some index := by
    refine List.idxOf?_eq_some_iff.mpr ⟨hindex, hname, fun earlier hearlier hsame => ?_⟩
    have := (hnodup.getElem_inj_iff).mp (hsame.trans hname.symm)
    omega
  rw [slot?, hplace, Option.map_some]

theorem slot?_of_names_append {table next : SymbolTable} {added : List String}
    (hnames : next.names = table.names ++ added) (hmem : name ∈ table.names) :
    next.slot? name = table.slot? name := by
  obtain ⟨place, hplace⟩ := Option.ne_none_iff_exists'.mp
    (mt List.idxOf?_eq_none_iff.mp (not_not_intro hmem))
  rw [slot?, slot?, hplace, hnames]
  obtain ⟨hindex, hname, hfirst⟩ := List.idxOf?_eq_some_iff.mp hplace
  have happended : (table.names ++ added).idxOf? name = some place := by
    refine List.idxOf?_eq_some_iff.mpr ⟨by rw [List.length_append]; omega, ?_, ?_⟩
    · rw [List.getElem_append_left hindex, hname]
    · intro earlier hearlier
      rw [List.getElem_append_left (hearlier.trans hindex)]
      exact hfirst earlier hearlier
  rw [happended]

theorem slot?_add_of_new (h : name ∉ table.names) (cls : SymbolClass) :
    (table.add name cls).slot? name = some (Int32.ofNat table.size) := by
  have hplace : (table.names ++ [name]).idxOf? name = some table.names.length := by
    refine List.idxOf?_eq_some_iff.mpr ⟨by simp, by simp, fun earlier hearlier hsame => h ?_⟩
    rw [List.getElem_append_left hearlier] at hsame
    exact hsame ▸ List.getElem_mem hearlier
  rw [slot?, names_add, hplace, size_eq_length_names, Option.map_some]

theorem lookup?_eq_some_iff {symbol : Symbol} : table.lookup? name = some symbol ↔
    symbol.name = name ∧ table.class? name = some symbol.cls ∧
      table.slot? name = some symbol.slot := by
  obtain ⟨found, cls, slot⟩ := symbol
  cases hclass : table.class? name <;> cases hslot : table.slot? name <;>
    simp [lookup?, hclass, hslot, eq_comm]

theorem lookup?_of_place (hnodup : table.names.Nodup) {index : Nat} {entry : String × SymbolClass}
    (h : table.entries[index]? = some entry) :
    table.lookup? entry.1 = some ⟨entry.1, entry.2, Int32.ofNat index⟩ := by
  have hname : table.names[index]? = some entry.1 := by
    rw [names, List.getElem?_map, h, Option.map_some]
  have hclass : table.class? entry.1 = some entry.2 :=
    (class?_eq_some_iff hnodup).mpr (List.mem_of_getElem? h)
  exact lookup?_eq_some_iff.mpr ⟨rfl, hclass, slot?_of_place hnodup hname⟩

theorem class?_add (table : SymbolTable) (name other : String) (cls : SymbolClass) :
    (table.add name cls).class? other =
      (table.class? other).or (if other = name then some cls else none) := by
  rw [class?, add, List.lookup_append, List.lookup_cons, List.lookup_nil, ← class?]
  by_cases h : other = name
  · rw [if_pos h, h, BEq.rfl]
  · rw [if_neg h, beq_false_of_ne h]

theorem mem_names_of_class? (h : table.class? name = some cls) : name ∈ table.names := by
  by_contra hnew
  rw [class?_eq_none_iff.mpr hnew] at h
  cases h

theorem exists_class? (h : name ∈ table.names) : ∃ cls, table.class? name = some cls :=
  Option.ne_none_iff_exists'.mp (mt class?_eq_none_iff.mp (not_not_intro h))

/-- The class of a name behind changes: only an uninitialized variable that is marked gets another. -/
def promoted (cls : SymbolClass) (name : String) (changes : List TableChange) : SymbolClass :=
  if cls = .uninitialized ∧ .markInitialized name ∈ changes then .initialized else cls

theorem promoted_cons (cls : SymbolClass) (name : String) (first : TableChange)
    (rest : List TableChange) :
    promoted cls name (first :: rest) = promoted (promoted cls name [first]) name rest := by
  by_cases hfirst : TableChange.markInitialized name = first
  · subst hfirst
    cases cls <;> simp [promoted]
  · cases cls <;> simp [promoted, hfirst]

theorem change_keeps {first : TableChange} (hkept : first ≠ .reset)
    (hclass : table.class? name = some cls) :
    (table.change first).slot? name = table.slot? name ∧
      (table.change first).class? name = some (promoted cls name [first]) := by
  have hmem := mem_names_of_class? hclass
  cases first with
  | declare declared isInitialized isConstant =>
      have hpromoted : promoted cls name [.declare declared isInitialized isConstant] = cls := by
        simp [promoted]
      rw [change_declare, hpromoted]
      split
      · exact ⟨rfl, hclass⟩
      · exact ⟨slot?_of_names_append (names_add _ _ _) hmem, by rw [class?_add, hclass, Option.some_or]⟩
  | markInitialized target =>
      refine ⟨?_, ?_⟩
      · rw [change, slot?, slot?, names_markInitialized]
      · rw [change, class?_markInitialized, hclass, Option.map_some, promoted]
        simp only [List.mem_singleton, TableChange.markInitialized.injEq, and_comm]
  | reset => exact absurd rfl hkept

theorem changes_keep {changes : List TableChange} (hkept : .reset ∉ changes)
    (hclass : table.class? name = some cls) :
    (changes.foldl change table).slot? name = table.slot? name ∧
      (changes.foldl change table).class? name = some (promoted cls name changes) := by
  induction changes generalizing table cls with
  | nil => exact ⟨rfl, by simpa [promoted] using hclass⟩
  | cons first rest ih =>
      obtain ⟨hfirst, hrest⟩ := List.ne_and_not_mem_of_not_mem_cons hkept
      obtain ⟨hslot, hstep⟩ := change_keeps (Ne.symm hfirst) hclass
      obtain ⟨hslots, hclasses⟩ := ih hrest hstep
      rw [List.foldl_cons, promoted_cons]
      exact ⟨hslots.trans hslot, hclasses⟩

end SymbolTable

/-! ### A map for each class -/

/-- A symbol table kept by class: the slots of the names of each class, and all names in order. -/
@[ext] structure ClassMaps where
  slots : SymbolClass → String → Option Int32
  order : List String

namespace ClassMaps

def empty : ClassMaps := ⟨fun _ _ => none, []⟩

/-- The names in the map of a class. -/
def keys (maps : ClassMaps) (cls : SymbolClass) : Set String :=
  {name | (maps.slots cls name).isSome}

/-- The maps with one entry of one of them replaced, or removed. -/
def assign (maps : ClassMaps) (cls : SymbolClass) (name : String) (slot : Option Int32) : ClassMaps :=
  { maps with slots := Function.update maps.slots cls (Function.update (maps.slots cls) name slot) }

theorem slots_assign (maps : ClassMaps) (cls found : SymbolClass) (name other : String)
    (slot : Option Int32) : (maps.assign cls name slot).slots found other =
      if found = cls ∧ other = name then slot else maps.slots found other := by
  by_cases hclass : found = cls
  · subst hclass
    by_cases hname : other = name
    · subst hname
      simp [assign]
    · simp [assign, hname]
  · simp [assign, hclass]

/-- The classes in the order in which their maps are searched. -/
def searched : List SymbolClass := [.constant, .initialized, .uninitialized]

/-- The slot of a name in any class. -/
def slot? (maps : ClassMaps) (name : String) : Option Int32 :=
  searched.findSome? fun cls => maps.slots cls name

def lookup? (maps : ClassMaps) (name : String) : Option Symbol :=
  searched.findSome? fun cls => (maps.slots cls name).map fun slot => ⟨name, cls, slot⟩

def isConstant (maps : ClassMaps) (name : String) : Bool :=
  (maps.slots .constant name).isSome

def isUninitialized (maps : ClassMaps) (name : String) : Bool :=
  (maps.slots .uninitialized name).isSome

/-- Every symbol, in order; each name is looked up. -/
def symbols (maps : ClassMaps) : List Symbol :=
  maps.order.map fun name => (maps.lookup? name).getD ⟨"", .uninitialized, 0⟩

def declare? (maps : ClassMaps) (name : String) (cls : SymbolClass) :
    Option (ClassMaps × Int32) :=
  match maps.slot? name with
  | some _ => none
  | none =>
    let slot := Int32.ofNat maps.order.length
    some ({ maps.assign cls name (some slot) with order := maps.order ++ [name] }, slot)

/-- Moves an uninitialized variable to the map of the initialized ones. -/
def markInitialized (maps : ClassMaps) (name : String) : ClassMaps :=
  match maps.slots .uninitialized name with
  | none => maps
  | some slot => (maps.assign .uninitialized name none).assign .initialized name (some slot)

/-- The maps after a change; a declaration that is refused leaves them as they are. -/
def change (maps : ClassMaps) : TableChange → ClassMaps
  | .declare name isInitialized isConstant =>
    ((maps.declare? name (.ofDeclaration isInitialized isConstant)).map Prod.fst).getD maps
  | .markInitialized name => maps.markInitialized name
  | .reset => .empty

/-- The maps after a history that starts with empty ones. -/
def afterChanges (changes : List TableChange) : ClassMaps :=
  changes.foldl change .empty

end ClassMaps

namespace SymbolTable

/-- The names of a table, sorted into maps by their classes. -/
def byClass (table : SymbolTable) : ClassMaps :=
  ⟨fun cls name => if table.class? name = some cls then table.slot? name else none, table.names⟩

variable {table : SymbolTable} {name : String} {cls : SymbolClass}

theorem slots_byClass (table : SymbolTable) (cls : SymbolClass) (name : String) :
    table.byClass.slots cls name = if table.class? name = some cls then table.slot? name else none :=
  rfl

theorem isSome_slots_byClass (table : SymbolTable) (cls : SymbolClass) (name : String) :
    (table.byClass.slots cls name).isSome = (table.class? name == some cls) := by
  rw [slots_byClass]
  by_cases hclass : table.class? name = some cls
  · have hslot : table.slot? name ≠ none :=
      mt slot?_eq_none_iff.mp (not_not_intro (mem_names_of_class? hclass))
    rw [if_pos hclass, hclass, BEq.rfl, Option.isSome_iff_ne_none.mpr hslot]
  · rw [if_neg hclass, beq_false_of_ne hclass, Option.isSome_none]

theorem mem_keys_byClass : name ∈ table.byClass.keys cls ↔ table.class? name = some cls := by
  change (table.byClass.slots cls name).isSome ↔ _
  rw [isSome_slots_byClass, beq_iff_eq]

theorem slot?_byClass (table : SymbolTable) (name : String) :
    table.byClass.slot? name = table.slot? name := by
  rw [ClassMaps.slot?, ClassMaps.searched]
  cases hclass : table.class? name with
  | none =>
      rw [slot?_eq_none_iff.mpr (class?_eq_none_iff.mp hclass)]
      simp [slots_byClass, hclass]
  | some cls =>
      cases hslot : table.slot? name <;> cases cls <;> simp [slots_byClass, hclass, hslot]

theorem lookup?_byClass (table : SymbolTable) (name : String) :
    table.byClass.lookup? name = table.lookup? name := by
  rw [ClassMaps.lookup?, ClassMaps.searched, lookup?]
  cases hclass : table.class? name with
  | none => simp [slots_byClass, hclass]
  | some cls =>
      cases hslot : table.slot? name <;> cases cls <;> simp [slots_byClass, hclass, hslot]

theorem symbols_byClass (hnodup : table.names.Nodup) : table.byClass.symbols = table.symbols := by
  apply List.ext_getElem?
  intro index
  rw [ClassMaps.symbols, symbols, List.getElem?_map, List.getElem?_mapIdx]
  change (table.entries.map Prod.fst)[index]?.map _ = _
  rw [List.getElem?_map]
  cases hentry : table.entries[index]? with
  | none => rfl
  | some entry =>
      rw [Option.map_some, Option.map_some, Option.map_some, lookup?_byClass,
        lookup?_of_place hnodup hentry, Option.getD_some]

theorem byClass_add (hnew : name ∉ table.names) (cls : SymbolClass) :
    (table.add name cls).byClass =
      { table.byClass.assign cls name (some (Int32.ofNat table.size)) with
        order := table.names ++ [name] } := by
  have hnone := class?_eq_none_iff.mpr hnew
  rw [byClass, names_add, ClassMaps.mk.injEq]
  refine ⟨?_, rfl⟩
  funext found other
  rw [class?_add, ClassMaps.slots_assign, slots_byClass]
  by_cases hother : other = name
  · subst hother
    rw [hnone, Option.none_or, if_pos rfl, slot?_add_of_new hnew]
    simp [eq_comm]
  · have hkept : ¬(found = cls ∧ other = name) := fun h => hother h.2
    rw [if_neg hother, Option.or_none, if_neg hkept]
    refine ite_congr rfl (fun hclass => ?_) fun _ => rfl
    exact slot?_of_names_append (names_add _ _ _) (mem_names_of_class? hclass)

theorem declare?_byClass (table : SymbolTable) (name : String) (cls : SymbolClass) :
    table.byClass.declare? name cls =
      (table.declare? name cls).map fun declared => (declared.1.byClass, declared.2) := by
  rw [ClassMaps.declare?, slot?_byClass, declare?_eq]
  by_cases hmem : name ∈ table.names
  · obtain ⟨slot, hslot⟩ := Option.ne_none_iff_exists'.mp
      (mt slot?_eq_none_iff.mp (not_not_intro hmem))
    rw [hslot, if_pos hmem, Option.map_none]
  · rw [slot?_eq_none_iff.mpr hmem, if_neg hmem, Option.map_some, byClass_add hmem,
      size_eq_length_names]
    rfl

theorem slots_markInitialized (table : SymbolTable) (target name : String) (cls : SymbolClass) :
    (table.markInitialized target).byClass.slots cls name =
      if ((table.class? name).map fun cls =>
        if name = target ∧ cls = .uninitialized then .initialized else cls) = some cls
      then table.slot? name else none := by
  rw [slots_byClass, class?_markInitialized, slot?, slot?, names_markInitialized]

theorem byClass_markInitialized (table : SymbolTable) (target : String) :
    (table.markInitialized target).byClass = table.byClass.markInitialized target := by
  have horder : (table.markInitialized target).byClass.order = table.byClass.order :=
    names_markInitialized table target
  rw [ClassMaps.markInitialized]
  by_cases hclass : table.class? target = some .uninitialized
  · obtain ⟨slot, hslot⟩ := Option.ne_none_iff_exists'.mp
      (mt slot?_eq_none_iff.mp (not_not_intro (mem_names_of_class? hclass)))
    rw [slots_byClass, if_pos hclass, hslot]
    refine ClassMaps.ext (funext fun cls => funext fun name => ?_) horder
    rw [slots_markInitialized, ClassMaps.slots_assign, ClassMaps.slots_assign, slots_byClass]
    by_cases hname : name = target
    · subst hname
      cases cls <;> simp [hclass, hslot]
    · simp [hname]
  · rw [slots_byClass, if_neg hclass]
    refine ClassMaps.ext (funext fun cls => funext fun name => ?_) horder
    have hkept : ((table.class? name).map fun cls =>
        if name = target ∧ cls = .uninitialized then .initialized else cls) = table.class? name := by
      by_cases hname : name = target
      · subst hname
        cases hfound : table.class? name with
        | none => rfl
        | some found =>
            have hne : found ≠ .uninitialized := by
              rintro rfl
              exact hclass hfound
            simp [hne]
      · simp [hname]
    rw [slots_markInitialized, hkept, slots_byClass]

theorem byClass_change (table : SymbolTable) (first : TableChange) :
    (table.change first).byClass = table.byClass.change first := by
  cases first with
  | declare name isInitialized isConstant =>
      rw [change, ClassMaps.change, declare?_byClass]
      cases table.declare? name (.ofDeclaration isInitialized isConstant) <;> rfl
  | markInitialized name => exact byClass_markInitialized table name
  | reset => rfl

theorem byClass_afterChanges (changes : List TableChange) :
    (afterChanges changes).byClass = ClassMaps.afterChanges changes := by
  induction changes using List.reverseRecOn with
  | nil => rfl
  | append_singleton before last ih =>
      rw [afterChanges_append, ClassMaps.afterChanges, List.foldl_append]
      change ((afterChanges before).change last).byClass = (ClassMaps.afterChanges before).change last
      rw [byClass_change, ih]

end SymbolTable

/-- A table and its maps say the same of every name: the maps split up the declared names, and each of
these has its place as its slot. -/
structure Coherent (table : SymbolTable) (maps : ClassMaps) : Prop where
  order : maps.order = table.names
  nodup : table.names.Nodup
  disjoint : Pairwise fun cls other => Disjoint (maps.keys cls) (maps.keys other)
  union : ⋃ cls, maps.keys cls = {name | name ∈ table.names}
  listed : table.symbols.length = table.names.length
  present : ∀ (index : Nat) name, table.names[index]? = some name → ∃ cls, ∃ slot : Int32,
    slot.toInt = index ∧ maps.slots cls name = some slot ∧
    table.symbols[index]? = some ⟨name, cls, slot⟩ ∧ table.lookup? name = some ⟨name, cls, slot⟩ ∧
    table.slot? name = some slot ∧ (table.isConstant name ↔ cls = .constant) ∧
    (table.isUninitialized name ↔ cls = .uninitialized)
  absent : ∀ name ∉ table.names, table.lookup? name = none ∧ table.slot? name = none ∧
    table.isConstant name = false ∧ table.isUninitialized name = false
  symbols : maps.symbols = table.symbols
  answers : ∀ name, maps.lookup? name = table.lookup? name ∧ maps.slot? name = table.slot? name ∧
    maps.isConstant name = table.isConstant name ∧
    maps.isUninitialized name = table.isUninitialized name

namespace SymbolTable

variable {table : SymbolTable}

theorem disjoint_keys (table : SymbolTable) :
    Pairwise fun cls other => Disjoint (table.byClass.keys cls) (table.byClass.keys other) := by
  intro cls other hne
  refine Set.disjoint_left.mpr fun name hcls hother => hne ?_
  exact Option.some.inj ((mem_keys_byClass.mp hcls).symm.trans (mem_keys_byClass.mp hother))

theorem mem_names_iff_keys {name : String} :
    name ∈ table.names ↔ ∃ cls, name ∈ table.byClass.keys cls := by
  constructor
  · intro hmem
    obtain ⟨cls, hclass⟩ := exists_class? hmem
    exact ⟨cls, mem_keys_byClass.mpr hclass⟩
  · rintro ⟨cls, hkey⟩
    exact mem_names_of_class? (mem_keys_byClass.mp hkey)

theorem coherent_byClass (hnodup : table.names.Nodup) (hsize : table.size ≤ 2 ^ 31) :
    Coherent table table.byClass where
  order := rfl
  nodup := hnodup
  disjoint := disjoint_keys table
  union := by
    ext name
    rw [Set.mem_iUnion]
    exact mem_names_iff_keys.symm
  listed := by rw [symbols, List.length_mapIdx, names, List.length_map]
  present := by
    intro index name hname
    have hmapped := hname
    rw [names, List.getElem?_map] at hmapped
    obtain ⟨⟨_, cls⟩, hentry, rfl⟩ := Option.map_eq_some_iff.mp hmapped
    have hindex : index < table.size := (List.getElem?_eq_some_iff.mp hentry).1
    have hclass := (class?_eq_some_iff hnodup).mpr (List.mem_of_getElem? hentry)
    have hslot := slot?_of_place hnodup hname
    refine ⟨cls, Int32.ofNat index, Int32.toInt_ofNat_of_lt (by omega), ?_, ?_,
      lookup?_of_place hnodup hentry, hslot, ?_, ?_⟩
    · rw [slots_byClass, if_pos hclass, hslot]
    · rw [symbols, List.getElem?_mapIdx, hentry, Option.map_some]
    · simp [isConstant, hclass]
    · simp [isUninitialized, hclass]
  absent := by
    intro name hnew
    have hnone := class?_eq_none_iff.mpr hnew
    exact ⟨by rw [lookup?, hnone], slot?_eq_none_iff.mpr hnew, by rw [isConstant, hnone]; rfl,
      by rw [isUninitialized, hnone]; rfl⟩
  symbols := symbols_byClass hnodup
  answers := fun name => ⟨lookup?_byClass table name, slot?_byClass table name,
    isSome_slots_byClass table .constant name, isSome_slots_byClass table .uninitialized name⟩

end SymbolTable

/-- After every history of a table with at most 2³¹ names, and of its maps by class, both are coherent.
A declaration is refused exactly if the name is in one of the maps, and then changes nothing. Until a
fresh start every symbol keeps its slot, and its class unless it is promoted. -/
theorem symbolTable_history (before after : List TableChange) (hkept : .reset ∉ after)
    (hsize : (SymbolTable.afterChanges (before ++ after)).size ≤ 2 ^ 31) :
    let table := SymbolTable.afterChanges (before ++ after)
    let maps := ClassMaps.afterChanges (before ++ after)
    Coherent table maps ∧
    (∀ name isInitialized isConstant,
      let cls := SymbolClass.ofDeclaration isInitialized isConstant
      (table.declare? name cls = none ↔ ∃ found, name ∈ maps.keys found) ∧
      (maps.declare? name cls).map Prod.snd = (table.declare? name cls).map Prod.snd ∧
      (table.declare? name cls = none →
        table.change (.declare name isInitialized isConstant) = table ∧
          maps.change (.declare name isInitialized isConstant) = maps)) ∧
    ∀ name symbol, (SymbolTable.afterChanges before).lookup? name = some symbol →
      table.lookup? name = some { symbol with cls := SymbolTable.promoted symbol.cls name after } := by
  intro table maps
  have hmaps : maps = table.byClass := (SymbolTable.byClass_afterChanges _).symm
  refine ⟨?_, ?_, ?_⟩
  · rw [hmaps]
    exact SymbolTable.coherent_byClass (SymbolTable.nodup_afterChanges _) hsize
  · intro name isInitialized isConstant cls
    have hrefused : table.declare? name cls = none ↔ name ∈ table.names := by
      rw [SymbolTable.declare?_eq]
      split <;> simp [*]
    have hdeclared := SymbolTable.declare?_byClass table name cls
    refine ⟨?_, ?_, fun hnone => ?_⟩
    · rw [hrefused, hmaps, SymbolTable.mem_names_iff_keys]
    · rw [hmaps, hdeclared, Option.map_map]
      rfl
    · rw [hmaps, ClassMaps.change, hdeclared, SymbolTable.change, hnone]
      exact ⟨rfl, rfl⟩
  · intro name symbol hsymbol
    have happend : table = after.foldl SymbolTable.change (SymbolTable.afterChanges before) :=
      SymbolTable.afterChanges_append before after
    obtain ⟨hname, hclass, hslot⟩ := SymbolTable.lookup?_eq_some_iff.mp hsymbol
    obtain ⟨hslots, hclasses⟩ := SymbolTable.changes_keep hkept hclass
    rw [happend]
    exact SymbolTable.lookup?_eq_some_iff.mpr ⟨hname, hclasses, hslots.trans hslot⟩

/-- A fresh start, a variable without a value and a constant, and marks that change nothing. -/
def startingChanges : List TableChange :=
  [.declare "k" true false, .reset, .declare "a" false false, .declare "k" false true,
    .markInitialized "k", .markInitialized "z"]

/-- Two declarations that are refused, with a promotion and a new name between them. -/
def promotingChanges : List TableChange :=
  [.declare "a" true true, .markInitialized "a", .declare "b" true false, .declare "a" false false]

theorem symbolTable_history_promoting :
    .reset ∉ promotingChanges ∧
    (SymbolTable.afterChanges (startingChanges ++ promotingChanges)).size ≤ 2 ^ 31 ∧
    let table := SymbolTable.afterChanges (startingChanges ++ promotingChanges)
    Coherent table (ClassMaps.afterChanges (startingChanges ++ promotingChanges)) ∧
      table.symbols = [⟨"a", .initialized, 0⟩, ⟨"k", .constant, 1⟩, ⟨"b", .initialized, 2⟩] ∧
      table.lookup? "a" =
        some ⟨"a", SymbolTable.promoted .uninitialized "a" promotingChanges, 0⟩ := by
  have hkept : .reset ∉ promotingChanges := by decide
  have hsize : (SymbolTable.afterChanges (startingChanges ++ promotingChanges)).size ≤ 2 ^ 31 := by
    decide +kernel
  obtain ⟨hcoherent, -, hname⟩ :=
    symbolTable_history startingChanges promotingChanges hkept hsize
  have hsymbol : (SymbolTable.afterChanges startingChanges).lookup? "a" =
      some ⟨"a", .uninitialized, 0⟩ := by
    decide +kernel
  exact ⟨hkept, hsize, hcoherent, by decide +kernel, hname "a" _ hsymbol⟩

end PlZero.Source

import PlZero.Proofs.FaultPlaces
import PlZero.Proofs.StackDiscipline

/-! The symbols that an analysis leaves. What is complete in the tokens that it went through is one block
only: the items there are told from each other and from the start of a further one. Main statement:
whether the analysis succeeds or fails, and whatever the analyzer has served before, the symbols are the
names declared in that block, each with the class that its declaration and the assignments to it give. -/

namespace PlZero.Source

open PlZero.Attempt SymbolTable

namespace SymbolTable

variable {table : SymbolTable} {index : Nat} {symbol : Symbol}

theorem getElem?_symbols : table.symbols[index]? = some symbol ↔
    table.entries[index]? = some (symbol.name, symbol.cls) ∧ symbol.slot = Int32.ofNat index := by
  obtain ⟨name, cls, slot⟩ := symbol
  rw [symbols, List.getElem?_mapIdx, Option.map_eq_some_iff]
  constructor
  · rintro ⟨_, hentry, ⟨⟩⟩
    exact ⟨hentry, rfl⟩
  · rintro ⟨hentry, rfl⟩
    exact ⟨_, hentry, rfl⟩

theorem map_name_symbols (table : SymbolTable) : table.symbols.map Symbol.name = table.names := by
  refine List.ext_getElem? fun index => ?_
  rw [symbols, names, List.getElem?_map, List.getElem?_map, List.getElem?_mapIdx, Option.map_map]
  rfl

theorem class?_of_mem_symbols (hnodup : table.names.Nodup) (h : symbol ∈ table.symbols) :
    table.class? symbol.name = some symbol.cls := by
  obtain ⟨index, hindex⟩ := List.mem_iff_getElem?.mp h
  exact (class?_eq_some_iff hnodup).mpr (List.mem_of_getElem? (getElem?_symbols.mp hindex).1)

end SymbolTable

/-- The symbols are the names of the block, in order of declaration. -/
structure Lists (symbols : List Symbol) (done : Block) : Prop where
  names : symbols.map Symbol.name = done.names
  distinct : (symbols.map Symbol.name).Nodup
  slots : ∀ (index : Nat) (symbol : Symbol), index < 2 ^ 31 → symbols[index]? = some symbol →
    symbol.slot.toInt = index
  constants : ∀ symbol ∈ symbols, symbol.cls = .constant ↔ done.HasConstant symbol.name
  initialized : ∀ symbol ∈ symbols, symbol.cls = .initialized ↔
    (∃ value, ⟨symbol.name, some value⟩ ∈ done.vars) ∨
      ∃ value, .assign symbol.name value ∈ done.statements

namespace Block

variable {block : Block} {name : String}

/-- A variable has a value when it is declared with one or assigned to: only variables are assigned
to. -/
theorem Allowed.initialized_iff (h : block.Allowed) :
    block.table.class? name = some .initialized ↔
      (∃ value, ⟨name, some value⟩ ∈ block.vars) ∨ ∃ value, .assign name value ∈ block.statements := by
  rw [class?_table_eq_initialized_iff h.nodup]
  constructor
  · rintro ⟨⟨_, initial⟩, hmem, rfl, hinitial | hassigned⟩
    · obtain ⟨value, rfl⟩ := Option.isSome_iff_exists.mp hinitial
      exact .inl ⟨value, hmem⟩
    · exact .inr hassigned
  · rintro (⟨value, hmem⟩ | ⟨value, hassigned⟩)
    · exact ⟨_, hmem, rfl, .inl rfl⟩
    · obtain ⟨⟨declared, hmem, hname⟩, -⟩ :=
        (allowed_iff_wellNamed.mp h).targets name value hassigned
      exact ⟨declared, hmem, hname, .inr ⟨value, hassigned⟩⟩

theorem Allowed.lists (h : block.Allowed) : Lists block.table.symbols block := by
  have hnodup : block.table.names.Nodup := by
    rw [names_table]
    exact h.nodup
  refine ⟨?_, ?_, ?_, ?_, ?_⟩
  · rw [map_name_symbols, names_table]
  · rw [map_name_symbols]
    exact hnodup
  · intro index symbol hindex hsymbol
    rw [(getElem?_symbols.mp hsymbol).2, Int32.toInt_ofNat_of_lt hindex]
  · intro symbol hsymbol
    rw [← class?_table_eq_constant_iff h.nodup, class?_of_mem_symbols hnodup hsymbol, Option.some_inj]
  · intro symbol hsymbol
    rw [← h.initialized_iff, class?_of_mem_symbols hnodup hsymbol, Option.some_inj]

end Block

/-! ### What is complete is one thing -/

/-- An item of a block. -/
inductive Item where
  | constant (item : Constant)
  | declared (item : Variable)
  | statement (item : Statement)

namespace Item

def constant? : Item → Option Constant
  | constant item => some item
  | _ => none

def declared? : Item → Option Variable
  | declared item => some item
  | _ => none

def statement? : Item → Option Statement
  | statement item => some item
  | _ => none

end Item

/-- The row is the item. -/
inductive ItemPhrase : List TokenKind → Item → Prop where
  | constant {row : List TokenKind} {item : Constant} (h : ConstantPhrase row item) :
      ItemPhrase row (.constant item)
  | declared {row : List TokenKind} {item : Variable} (h : VariablePhrase row item) :
      ItemPhrase row (.declared item)
  | statement {row : List TokenKind} {item : Statement} (h : StatementPhrase row item) :
      ItemPhrase row (.statement item)

theorem isItem_iff {row : List TokenKind} : IsItem row ↔ ∃ item, ItemPhrase row item := by
  constructor
  · rintro (⟨item, h⟩ | ⟨item, h⟩ | ⟨item, h⟩)
    · exact ⟨_, .constant h⟩
    · exact ⟨_, .declared h⟩
    · exact ⟨_, .statement h⟩
  · rintro ⟨_, h | h | h⟩
    · exact .inl ⟨_, h⟩
    · exact .inr (.inl ⟨_, h⟩)
    · exact .inr (.inr ⟨_, h⟩)

theorem ItemPhrase.ne_endWord {row : List TokenKind} {item : Item} (h : ItemPhrase row item)
    (rest more : List TokenKind) : row ++ rest ≠ .endWord :: more := by
  rcases h with h | h | h <;> cases h <;> simp

/-- Items of different sorts start differently. -/
theorem itemPhrase_delimited : Delimited ItemPhrase := by
  intro first second rest others item other hfirst hsecond h
  cases hfirst with
  | constant hfirst =>
      cases hsecond with
      | constant hsecond =>
          obtain ⟨rfl, hrest⟩ := constantPhrase_delimited hfirst hsecond h
          exact ⟨rfl, hrest⟩
      | declared hsecond | statement hsecond => cases hfirst <;> cases hsecond <;> simp at h
  | declared hfirst =>
      cases hsecond with
      | declared hsecond =>
          obtain ⟨rfl, hrest⟩ := variablePhrase_delimited hfirst hsecond h
          exact ⟨rfl, hrest⟩
      | constant hsecond | statement hsecond => cases hfirst <;> cases hsecond <;> simp at h
  | statement hfirst =>
      cases hsecond with
      | statement hsecond =>
          obtain ⟨rfl, hrest⟩ := statementPhrase_delimited hfirst hsecond h
          exact ⟨rfl, hrest⟩
      | constant hsecond | declared hsecond => cases hfirst <;> cases hsecond <;> simp at h

/-- No item stands at the head of the row. -/
def Headless (row : List TokenKind) : Prop :=
  ∀ first item rest, ItemPhrase first item → row ≠ first ++ rest

/-- An item that is not all there does not start with another one. -/
theorem headless_of_append {row more : List TokenKind} {item : Item} (hmore : more ≠ [])
    (h : ItemPhrase (row ++ more) item) : Headless row := by
  rintro first other rest hother rfl
  rw [List.append_assoc] at h
  have hsplit : first ++ (rest ++ more) ++ [] = first ++ (rest ++ more) := List.append_nil _
  obtain ⟨-, hrest⟩ := itemPhrase_delimited h hother hsplit
  exact hmore (List.append_eq_nil_iff.mp hrest.symm).2

/-- Items with something headless behind them are told from each other. -/
theorem Sequence.unique_before {first second cut others : List TokenKind} {left right : List Item}
    (hleft : Sequence ItemPhrase first left) (hcut : Headless cut) (hothers : Headless others)
    (hright : Sequence ItemPhrase second right)
    (h : first ++ cut = second ++ others) : left = right ∧ cut = others := by
  induction hleft generalizing second right with
  | nil =>
      cases hright with
      | nil => exact ⟨rfl, h⟩
      | cons head tail =>
          rw [List.append_assoc] at h
          exact absurd h (hcut _ _ _ head)
  | cons head tail ih =>
      rw [List.append_assoc] at h
      cases hright with
      | nil => exact absurd h.symm (hothers _ _ _ head)
      | cons head' tail' =>
          rw [List.append_assoc] at h
          obtain ⟨rfl, h⟩ := itemPhrase_delimited head head' h
          obtain ⟨rfl, h⟩ := ih tail' h
          exact ⟨rfl, h⟩

theorem Sequence.map {α β : Type} {phrase : List TokenKind → α → Prop}
    {part : List TokenKind → β → Prop} {change : α → β}
    (hpart : ∀ {row item}, phrase row item → part row (change item)) {row : List TokenKind}
    {list : List α} (h : Sequence phrase row list) : Sequence part row (list.map change) := by
  induction h with
  | nil => exact .nil
  | cons head tail ih => exact .cons (hpart head) ih

namespace Block

/-- The items of a block, in order. -/
def items (block : Block) : List Item :=
  block.constants.map .constant ++ (block.vars.map .declared ++ block.statements.map .statement)

theorem filterMap_items (block : Block) : block.items.filterMap Item.constant? = block.constants ∧
    block.items.filterMap Item.declared? = block.vars ∧
    block.items.filterMap Item.statement? = block.statements := by
  simp [items, List.filterMap_append, List.filterMap_map, Function.comp_def, Item.constant?,
    Item.declared?, Item.statement?]

theorem items_injective {block other : Block} (h : block.items = other.items) : block = other := by
  obtain ⟨hconstants, hvars, hstatements⟩ := block.filterMap_items
  obtain ⟨hconstants', hvars', hstatements'⟩ := other.filterMap_items
  rw [h] at hconstants hvars hstatements
  obtain ⟨constants, vars, statements⟩ := block
  rw [Block.mk.injEq]
  exact ⟨hconstants.symm.trans hconstants', hvars.symm.trans hvars',
    hstatements.symm.trans hstatements'⟩

end Block

theorem Opening.sequence {row : List TokenKind} {done : Block} (h : Opening row done) :
    ∃ rest, row = .beginWord :: rest ∧ Sequence ItemPhrase rest done.items := by
  obtain ⟨first, second, third, rfl, hconstants, hvars, hstatements⟩ := h
  exact ⟨_, rfl, (hconstants.map .constant).append
    ((hvars.map .declared).append (hstatements.map .statement))⟩

/-- What the cut behind whole items adds to those that are complete. -/
inductive Adds : List TokenKind → List Item → Prop where
  | unfinished {cut : List TokenKind} (h : Unfinished cut) : Adds cut []
  | unclosed {cut : List TokenKind} {item : Item} (h : ItemPhrase (cut ++ [.semicolon]) item)
      (hdeclares : item.statement? = none) : Adds cut [item]
  | ended : Adds [.endWord] []

theorem Unfinished.not_unclosed {cut : List TokenKind} {item : Item} (h : Unfinished cut)
    (hitem : ItemPhrase (cut ++ [.semicolon]) item) : item.statement? ≠ none := by
  cases hitem with
  | constant hitem => exact absurd hitem (h.constant _)
  | declared hitem => exact absurd hitem (h.declared _)
  | statement hitem => exact Option.some_ne_none _

namespace Adds

variable {cut : List TokenKind} {found others : List Item}

theorem headless (h : Adds cut found) : Headless cut := by
  cases h with
  | unfinished h =>
      obtain ⟨more, hmore, hitem⟩ := h.begun
      obtain ⟨item, hitem⟩ := isItem_iff.mp hitem
      exact headless_of_append hmore hitem
  | unclosed h hdeclares => exact headless_of_append (List.cons_ne_nil _ _) h
  | ended => exact fun _ _ _ hitem hrow => hitem.ne_endWord _ _ hrow.symm

theorem unique (h : Adds cut found) (hothers : Adds cut others) : found = others := by
  cases h with
  | unfinished h =>
      cases hothers with
      | unfinished | ended => rfl
      | unclosed hitem hdeclares => exact absurd hdeclares (h.not_unclosed hitem)
  | unclosed hitem hdeclares =>
      cases hothers with
      | unfinished h => exact absurd hdeclares (h.not_unclosed hitem)
      | unclosed hother _ =>
          obtain ⟨rfl, -⟩ := @itemPhrase_delimited _ _ [] [] _ _ hitem hother rfl
          rfl
      | ended => exact absurd rfl (hitem.ne_endWord [] [.semicolon])
  | ended =>
      cases hothers with
      | unfinished | ended => rfl
      | unclosed hitem _ => exact absurd rfl (hitem.ne_endWord [] [.semicolon])

end Adds

/-- What is complete in the start of a block: its items, and what the cut behind them adds. -/
theorem Completed.eq_nil_or_adds {row : List TokenKind} {done : Block} (h : Completed row done) :
    (row = [] ∧ done = ⟨[], [], []⟩) ∨ ∃ first cut list found, row = .beginWord :: (first ++ cut) ∧
      Sequence ItemPhrase first list ∧ Adds cut found ∧ done.items = list ++ found := by
  cases h with
  | nothing => exact .inl ⟨rfl, rfl⟩
  | opened h hcut =>
      obtain ⟨first, rfl, hfirst⟩ := h.sequence
      exact .inr ⟨first, _, _, _, rfl, hfirst, .unfinished hcut, (List.append_nil _).symm⟩
  | unclosedConstant h hcut =>
      obtain ⟨first, rfl, hfirst⟩ := h.sequence
      exact .inr ⟨first, _, _, _, rfl, hfirst, .unclosed (.constant hcut) rfl, by simp [Block.items]⟩
  | unclosedVariable h hcut =>
      obtain ⟨first, rfl, hfirst⟩ := h.sequence
      exact .inr ⟨first, _, _, _, rfl, hfirst, .unclosed (.declared hcut) rfl, by simp [Block.items]⟩
  | ended h =>
      have hopening : ∃ start, row = start ++ [.endWord] ∧ Opening start done := by
        obtain ⟨hconstants, hvars, hstatements⟩ := h
        exact ⟨_, by simp, _, _, _, rfl, hconstants, hvars, hstatements⟩
      obtain ⟨start, rfl, hstart⟩ := hopening
      obtain ⟨first, rfl, hfirst⟩ := hstart.sequence
      exact .inr ⟨first, _, _, _, rfl, hfirst, .ended, (List.append_nil _).symm⟩

theorem Completed.unique {row : List TokenKind} {done other : Block} (h : Completed row done)
    (hother : Completed row other) : done = other := by
  rcases h.eq_nil_or_adds with ⟨rfl, rfl⟩ | ⟨first, cut, list, found, rfl, hfirst, hadds, hitems⟩
  · rcases hother.eq_nil_or_adds with ⟨-, rfl⟩ | ⟨_, _, _, _, hrow, -⟩
    · rfl
    · cases hrow
  · rcases hother.eq_nil_or_adds with ⟨hrow, -⟩ | ⟨second, _, _, _, hrow, hsecond, hadds', hitems'⟩
    · cases hrow
    · obtain ⟨-, hrow⟩ := List.cons.inj hrow
      obtain ⟨rfl, rfl⟩ := hfirst.unique_before hadds.headless hadds'.headless hsecond hrow
      obtain rfl := hadds.unique hadds'
      exact Block.items_injective (hitems.trans hitems'.symm)

/-- A reading that stopped has declared the names that are complete there. -/
theorem Halted.completed {finish : Position} {before rest : List Token} {rejection : Rejection}
    (h : Halted finish before rest rejection) :
    ∃ done, Completed (kinds before) done ∧ done.Allowed ∧ rejection.table = done.table := by
  cases h with
  | refused hcause hviable hrefuses hdone hallowed => exact ⟨_, hdone, hallowed, rfl⟩
  | misnamed hbefore hopening hcut hallowed hname hviable =>
      rw [hbefore]
      exact ⟨_, .opened hopening hcut, hallowed, rfl⟩

/-- The symbols after an analysis are the names whose declaration is complete in the tokens it went
through: all those before the end of input if it succeeds, and those before the fault if it fails. -/
theorem analyze_symbols (analyzer : Analyzer) (tokens : List Token) :
    ∃ before rest done, sentence tokens = before ++ rest ∧ Completed (kinds before) done ∧
      (∀ other, Completed (kinds before) other → other = done) ∧
      Lists (analyzer.analyze tokens).2.symbols done ∧
      (∀ code, (analyzer.analyze tokens).1 = .ok code → rest = [] ∧
        BlockPhrase (kinds before) done ∧
        (analyzer.analyze tokens).2.symbols.length = declarations tokens) ∧
      ∀ fault, (analyzer.analyze tokens).1 = .error fault →
        Halted (finish tokens) before rest ⟨fault, done.table⟩ := by
  change ∃ before rest done, _ ∧ _ ∧ _ ∧ Lists (analyze tokens).table.symbols done ∧
    (∀ code, (analyze tokens).result = .ok code → _ ∧ _ ∧
      (analyze tokens).table.symbols.length = declarations tokens) ∧
    ∀ fault, (analyze tokens).result = .error fault → _
  cases hresult : (analyze tokens).result with
  | ok code =>
      obtain ⟨tree, hphrase, hnames, -, htable⟩ := analyze_sound hresult
      have hlists := (Block.allowed_iff_wellNamed.mpr hnames).lists
      refine ⟨sentence tokens, [], tree, (List.append_nil _).symm, .ended hphrase,
        fun other hother => hother.unique (.ended hphrase), ?_, ?_, ?_⟩
      · rw [htable]
        exact hlists
      · intro _ _
        refine ⟨rfl, hphrase, ?_⟩
        rw [htable, declarations, hphrase.countP_declares, ← hlists.names, List.length_map]
      · rintro _ ⟨⟩
  | error fault =>
      obtain ⟨before, rest, hsentence, hhalted⟩ := analyze_halted hresult
      obtain ⟨done, hdone, hallowed, htable⟩ := hhalted.completed
      dsimp only at htable
      rw [htable] at hhalted ⊢
      refine ⟨before, rest, done, hsentence, hdone, fun other hother => hother.unique hdone,
        hallowed.lists, ?_, ?_⟩
      · rintro _ ⟨⟩
      · rintro _ ⟨⟩
        exact hhalted

/-- The last assignment lacks its semicolon. -/
def cutTokens : List Token :=
  [.beginWord, .constWord, .identifier "k", .equals, .minus, .integer 2, .semicolon, .varWord,
    .identifier "a", .semicolon, .varWord, .identifier "b", .semicolon, .identifier "a", .equals,
    .identifier "k", .semicolon, .identifier "b", .equals, .integer 1, .endWord].mapIdx
      fun index kind => ⟨kind, ⟨index, 1, index + 1⟩⟩

def cutFault : Fault := ⟨.unexpected .afterStatement .endWord, ⟨20, 1, 21⟩⟩

def cutSymbols : List Symbol :=
  [⟨"k", .constant, 0⟩, ⟨"a", .initialized, 1⟩, ⟨"b", .uninitialized, 2⟩]

/-- The analyzer has failed on another list before. -/
theorem analyze_symbols_cut : ∃ analyzer, (Analyzer.analyze {} gappedTokens).2 = analyzer ∧
    analyzer.symbols = [⟨"a", .uninitialized, 0⟩] ∧
    (analyzer.analyze cutTokens).1 = .error cutFault ∧
    (analyzer.analyze cutTokens).2.symbols = cutSymbols ∧
    ∃ before rest done, sentence cutTokens = before ++ rest ∧ Completed (kinds before) done ∧
      Lists cutSymbols done ∧ Halted (finish cutTokens) before rest ⟨cutFault, done.table⟩ := by
  have hresult : (analyze cutTokens).result = .error cutFault := by cbv
  have hsymbols : (analyze cutTokens).table.symbols = cutSymbols := by cbv
  refine ⟨_, rfl, by cbv, hresult, hsymbols, ?_⟩
  obtain ⟨before, rest, done, hsentence, hdone, -, hlists, -, hfault⟩ :=
    analyze_symbols (Analyzer.analyze {} gappedTokens).2 cutTokens
  change Lists (analyze cutTokens).table.symbols done at hlists
  rw [hsymbols] at hlists
  exact ⟨before, rest, done, hsentence, hdone, hlists, hfault cutFault hresult⟩

/-- A block with a declaration behind the end of input. -/
def trailedTokens : List Token :=
  [.beginWord, .endWord, .endOfInput, .constWord, .identifier "a", .equals, .integer 1, .semicolon].map
    fun kind => ⟨kind, Position.none⟩

/-- A word behind the end of input declares nothing. -/
theorem analyze_symbols_trailed : (Analyzer.analyze {} trailedTokens).1 = .ok [] ∧
    (kinds trailedTokens).countP TokenKind.declares = 1 ∧
    (Analyzer.analyze {} trailedTokens).2.symbols = [] := by
  have hresult : (analyze trailedTokens).result = .ok [] := by cbv
  have hsymbols : (analyze trailedTokens).table.symbols = [] := by cbv
  exact ⟨hresult, rfl, hsymbols⟩

end PlZero.Source

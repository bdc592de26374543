import PlZero.Proofs.ConstantCells
import PlZero.Proofs.DeclaredSymbols
import PlZero.Proofs.Navigation

/-! What is found behind the keywords of a text agrees with what its analysis declares. The scan for
declarations looks at a keyword and a few tokens behind it; over the whole items of a block it finds one
entry for each item that declares a name and none for a statement. Main statement: every symbol of an
analysis, also of one that failed, has the entry of the item that declared it, and where a text compiles
the value of that entry is what the machine holds for the constant from the first instructions on. -/

namespace PlZero.Source

open PlZero.Machine

namespace Item

/-- The name that an item declares. -/
def name? : Item → Option String
  | constant item => some item.name
  | declared item => some item.name
  | statement _ => none

/-- The value that an item declares: only a constant has one for good. -/
def value? : Item → Option Int32
  | constant item => some item.value
  | _ => none

theorem value?_eq_some_iff {item : Item} {value : Int32} :
    item.value? = some value ↔ ∃ found : Constant, item = .constant found ∧ found.value = value := by
  cases item <;> simp [value?]

end Item

theorem ItemPhrase.exists_used {row : List TokenKind} {item : Item} (h : ItemPhrase row item) :
    ∃ used, row = used ++ [.semicolon] := by
  cases h with
  | constant h =>
      cases h with
      | unsigned name value => exact ⟨[.constWord, .identifier name, .equals, .integer value], rfl⟩
      | signed name sign value =>
          exact ⟨[.constWord, .identifier name, .equals, sign.mark, .integer value], rfl⟩
  | declared h =>
      cases h with
      | bare name => exact ⟨[.varWord, .identifier name], rfl⟩
      | @initialized row _ name value => exact ⟨.varWord :: .identifier name :: .equals :: row, rfl⟩
  | statement h =>
      cases h with
      | @assign row _ target value => exact ⟨.identifier target :: .equals :: row, rfl⟩
      | @print row _ value => exact ⟨.printWord :: .openParen :: (row ++ [.closeParen]), by simp⟩
      | empty => exact ⟨[], rfl⟩

theorem Sequence.split {α : Type} {phrase : List TokenKind → α → Prop} {row : List TokenKind}
    {items : List α} (h : Sequence phrase row items) {index : Nat} {item : α}
    (hitem : items[index]? = some item) : ∃ before used after, row = before ++ (used ++ after) ∧
      Sequence phrase before (items.take index) ∧ phrase used item := by
  induction h generalizing index with
  | nil => cases hitem
  | @cons first rest head others hhead _ ih =>
      cases index with
      | zero =>
          obtain rfl := Option.some.inj hitem
          exact ⟨[], first, rest, rfl, .nil, hhead⟩
      | succ index =>
          obtain ⟨before, used, after, rfl, hbefore, hused⟩ := ih hitem
          exact ⟨first ++ before, used, after, (List.append_assoc _ _ _).symm,
            .cons hhead hbefore, hused⟩

namespace Block

variable {block : Block}

theorem filterMap_name?_items (block : Block) : block.items.filterMap Item.name? = block.names := by
  simp [items, names, List.filterMap_append, List.filterMap_map, Function.comp_def, Item.name?]

/-- The declarations come before the statements, so a name and its item have the same place. -/
theorem exists_item {index : Nat} {name : String} (h : block.names[index]? = some name) :
    ∃ item, block.items[index]? = some item ∧ item.name? = some name := by
  have hnames : (block.constants.map Item.constant ++ block.vars.map Item.declared).map Item.name? =
      block.names.map some := by
    simp [names, Function.comp_def, Item.name?]
  have hname := congrArg (fun list => list[index]?) hnames
  simp only [List.getElem?_map, h] at hname
  obtain ⟨item, hitem, hitemname⟩ := Option.map_eq_some_iff.mp hname
  refine ⟨item, ?_, hitemname⟩
  obtain ⟨hindex, -⟩ := List.getElem?_eq_some_iff.mp hitem
  rw [items, ← List.append_assoc, List.getElem?_append_left hindex, hitem]

theorem getElem?_constants_of_items {index : Nat} {constant : Constant}
    (h : block.items[index]? = some (.constant constant)) : block.constants[index]? = some constant := by
  rw [items] at h
  rcases Nat.lt_or_ge index block.constants.length with hindex | hindex
  · rw [List.getElem?_append_left (by simpa using hindex), List.getElem?_map,
      Option.map_eq_some_iff] at h
    obtain ⟨_, hconstant, ⟨⟩⟩ := h
    exact hconstant
  · rw [List.getElem?_append_right (by simpa using hindex)] at h
    simpa using List.mem_of_getElem? h

/-- An item has a value for good exactly if its name is that of a constant. -/
theorem isSome_value?_iff (hdistinct : block.names.Nodup) {index : Nat} {item : Item} {name : String}
    (hitem : block.items[index]? = some item) (hname : item.name? = some name) :
    item.value?.isSome ↔ block.HasConstant name := by
  cases item with
  | constant found =>
      obtain rfl := Option.some.inj hname
      have hmem := List.mem_of_getElem? (getElem?_constants_of_items hitem)
      simpa [Item.value?] using ⟨found, hmem, rfl⟩
  | declared found =>
      obtain rfl := Option.some.inj hname
      have hmem : found ∈ block.vars := by
        rw [← block.filterMap_items.2.1]
        exact List.mem_filterMap.mpr ⟨_, List.mem_of_getElem? hitem, rfl⟩
      simpa [Item.value?] using not_hasConstant hdistinct ⟨found, hmem, rfl⟩
  | statement found => cases hname

end Block

theorem BlockPhrase.sequence {row : List TokenKind} {tree : Block} (h : BlockPhrase row tree) :
    ∃ inner, row = .beginWord :: (inner ++ [.endWord]) ∧ Sequence ItemPhrase inner tree.items := by
  cases h with
  | @mk first second third _ _ _ declared followed body =>
      refine ⟨first ++ (second ++ third), by simp, (declared.map .constant).append ?_⟩
      exact (followed.map .declared).append (body.map .statement)

/-- Where an item of the start of a block stands: behind the items before it. A declaration may lack its
semicolon. -/
theorem Completed.split {row : List TokenKind} {done : Block} (h : Completed row done) {index : Nat}
    {item : Item} (hitem : done.items[index]? = some item) :
    ∃ before used after, row = .beginWord :: (before ++ (used ++ after)) ∧
      Sequence ItemPhrase before (done.items.take index) ∧ ItemPhrase (used ++ [.semicolon]) item := by
  rcases h.eq_nil_or_adds with ⟨-, rfl⟩ | ⟨first, cut, list, found, rfl, hfirst, hadds, hitems⟩
  · cases hitem
  rw [hitems] at hitem ⊢
  rcases Nat.lt_or_ge index list.length with hindex | hindex
  · rw [List.getElem?_append_left hindex] at hitem
    obtain ⟨before, row, after, rfl, hbefore, hrow⟩ := hfirst.split hitem
    obtain ⟨used, rfl⟩ := hrow.exists_used
    refine ⟨before, used, .semicolon :: (after ++ cut), by simp, ?_, hrow⟩
    rwa [List.take_append_of_le_length hindex.le]
  · rw [List.getElem?_append_right hindex] at hitem
    cases hadds with
    | unclosed hphrase hdeclares =>
        obtain ⟨hlast, hfound⟩ := List.getElem?_eq_some_iff.mp hitem
        obtain rfl : index = list.length := by
          rw [List.length_singleton] at hlast
          omega
        simp only [Nat.sub_self, List.getElem_cons_zero] at hfound
        subst hfound
        exact ⟨first, cut, [], by simp, by rwa [List.take_left], hphrase⟩
    | unfinished | ended => cases hitem

/-- An analysis, whether it succeeds or fails, has declared the names of the items that are complete in
the tokens that it went through. -/
theorem exists_completed (tokens : List Token) : ∃ before rest done,
    sentence tokens = before ++ rest ∧ Completed (kinds before) done ∧ done.Allowed ∧
      (analyze tokens).table = done.table ∧ ∀ code, (analyze tokens).result = .ok code →
        rest = [] ∧ BlockPhrase (kinds before) done ∧ code = done.code := by
  cases hresult : (analyze tokens).result with
  | ok code =>
      obtain ⟨tree, hphrase, hnames, rfl, htable⟩ := analyze_sound hresult
      refine ⟨sentence tokens, [], tree, (List.append_nil _).symm, .ended hphrase,
        Block.allowed_iff_wellNamed.mpr hnames, htable, ?_⟩
      rintro _ ⟨⟩
      exact ⟨rfl, hphrase, rfl⟩
  | error fault =>
      obtain ⟨before, rest, hsentence, hhalted⟩ := analyze_halted hresult
      obtain ⟨done, hdone, hallowed, htable⟩ := hhalted.completed
      refine ⟨before, rest, done, hsentence, hdone, hallowed, htable, ?_⟩
      rintro _ ⟨⟩

end PlZero.Source

namespace PlZero.Editor

open PlZero.Source PlZero.Machine PlZero.Text

/-- Behind the word that opens a block and a number of whole items stands the declaration `item`, and the
name that it declares stands at the position. The semicolon behind it may be missing. -/
inductive DeclaredAs (tokens : List Token) : Nat → Item → Position → Prop where
  | mk {start keyword : Token} {before given after : List Token} {name : String} {position : Position}
      {items : List Item} {item : Item}
      (htokens : tokens =
        start :: (before ++ keyword :: ⟨.identifier name, position⟩ :: (given ++ after)))
      (hstart : start.kind = .beginWord) (hbefore : Sequence ItemPhrase (kinds before) items)
      (hname : item.name? = some name)
      (hitem : ItemPhrase (keyword.kind :: .identifier name :: (kinds given ++ [.semicolon])) item) :
      DeclaredAs tokens items.length item position

/-! ### Entries of items -/

theorem declarations_of_forall {used : List Token} (h : ∀ kind ∈ kinds used, ¬kind.Declares)
    (rest : List Token) : declarations (used ++ rest) = declarations rest := by
  induction used with
  | nil => rfl
  | cons token others ih =>
      rw [kinds_cons, List.forall_mem_cons] at h
      rw [List.cons_append, declarations_of_not_declares h.1, ih h.2]

theorem not_declares_of_phrase {level : Level} {row : List TokenKind} {tree : Expression}
    (h : Phrase level row tree) : ∀ kind ∈ row, ¬kind.Declares := by
  intro kind hkind hdeclares
  refine List.countP_eq_zero.mp h.countP_declares kind hkind ?_
  rcases hdeclares with rfl | rfl <;> rfl

/-- A keyword is found with what it declares if none of the tokens behind it is a further keyword. -/
theorem declarations_of_declarationAt {keyword : Token} {used : List Token} {entry : Declaration}
    {rest : List Token} (hentry : declarationAt keyword.kind (used ++ rest) = some entry)
    (hused : ∀ kind ∈ kinds used, ¬kind.Declares) :
    declarations (keyword :: used ++ rest) = entry :: declarations rest := by
  rw [List.cons_append, declarations_cons, hentry, declarations_of_forall hused]
  rfl

/-- A declaration is found with its name, the place of the name and, if it is one of a constant, the
value. -/
theorem declarations_of_name? {used : List Token} {item : Item} {name : String}
    (h : ItemPhrase (kinds used ++ [.semicolon]) item) (hname : item.name? = some name)
    (rest : List Token) : ∃ keyword position given,
      used = keyword :: ⟨.identifier name, position⟩ :: given ∧
      declarations (used ++ rest) = ⟨name, position, item.value?⟩ :: declarations rest := by
  generalize hrow : kinds used ++ [.semicolon] = row at h
  cases h with
  | constant h =>
      cases h with
      | unsigned declared value =>
          obtain rfl := Option.some.inj hname
          have hused : kinds used = [.constWord, .identifier declared, .equals, .integer value] :=
            List.append_cancel_right hrow
          simp only [kinds_eq_cons_iff, kinds_eq_nil_iff] at hused
          obtain ⟨_, _, rfl, _, _, rfl, _, _, rfl, _, _, rfl, rfl⟩ := hused
          refine ⟨_, _, _, rfl, declarations_of_declarationAt rfl ?_⟩
          simp [TokenKind.Declares]
      | signed declared sign value =>
          obtain rfl := Option.some.inj hname
          have hused : kinds used =
              [.constWord, .identifier declared, .equals, sign.mark, .integer value] :=
            List.append_cancel_right hrow
          simp only [kinds_eq_cons_iff, kinds_eq_nil_iff] at hused
          obtain ⟨_, _, rfl, _, _, rfl, _, _, rfl, _, _, rfl, _, _, rfl, rfl⟩ := hused
          cases sign with
          | plus | minus =>
              refine ⟨_, _, _, rfl, declarations_of_declarationAt rfl ?_⟩
              simp [TokenKind.Declares, Sign.mark]
  | declared h =>
      cases h with
      | bare declared =>
          obtain rfl := Option.some.inj hname
          have hused : kinds used = [.varWord, .identifier declared] := List.append_cancel_right hrow
          simp only [kinds_eq_cons_iff, kinds_eq_nil_iff] at hused
          obtain ⟨_, _, rfl, _, _, rfl, rfl⟩ := hused
          refine ⟨_, _, _, rfl, declarations_of_declarationAt rfl ?_⟩
          simp [TokenKind.Declares]
      | @initialized row tree declared value =>
          obtain rfl := Option.some.inj hname
          have hused : kinds used = .varWord :: .identifier declared :: .equals :: row :=
            List.append_cancel_right hrow
          have hvalue := not_declares_of_phrase value
          simp only [kinds_eq_cons_iff] at hused
          obtain ⟨_, _, rfl, position, _, rfl, _, given, rfl, rfl⟩ := hused
          refine ⟨_, _, _, rfl, declarations_of_declarationAt rfl ?_⟩
          simpa [TokenKind.Declares] using hvalue
  | statement h => cases hname

theorem declarations_of_statement {used : List Token} {statement : Statement}
    (h : StatementPhrase (kinds used) statement) (rest : List Token) :
    declarations (used ++ rest) = declarations rest := by
  refine declarations_of_forall ?_ rest
  intro kind hkind hdeclares
  refine List.countP_eq_zero.mp h.countP_declares kind hkind ?_
  rcases hdeclares with rfl | rfl <;> rfl

/-- Over whole items the scan finds the declarations, in order. -/
theorem declarations_of_items {row : List TokenKind} {items : List Item}
    (h : Sequence ItemPhrase row items) {before : List Token} (hrow : kinds before = row)
    (rest : List Token) : ∃ entries, declarations (before ++ rest) = entries ++ declarations rest ∧
      entries.map Declaration.name = items.filterMap Item.name? := by
  induction h generalizing before with
  | nil =>
      obtain rfl := kinds_eq_nil_iff.mp hrow
      exact ⟨[], rfl, rfl⟩
  | @cons first others item items hhead _ ih =>
      obtain ⟨used, behind, rfl, rfl, hothers⟩ := kinds_eq_append_iff.mp hrow
      obtain ⟨entries, hentries, hnames⟩ := ih hothers
      rw [List.append_assoc]
      cases hname : item.name? with
      | none =>
          cases hhead with
          | constant | declared => cases hname
          | statement hstatement =>
              refine ⟨entries, ?_, ?_⟩
              · rw [declarations_of_statement hstatement, hentries]
              · rw [hnames, List.filterMap_cons_none hname]
      | some name =>
          obtain ⟨inner, hinner⟩ := hhead.exists_used
          obtain ⟨used, last, rfl, rfl, hlast⟩ := kinds_eq_append_iff.mp hinner
          rw [hinner] at hhead
          obtain ⟨_, position, _, _, hdeclared⟩ :=
            declarations_of_name? hhead hname (last ++ (behind ++ rest))
          have hsemicolon : ∀ kind ∈ kinds last, ¬kind.Declares := by
            simp [hlast, TokenKind.Declares]
          refine ⟨⟨name, position, item.value?⟩ :: entries, ?_, ?_⟩
          · rw [List.append_assoc, hdeclared, declarations_of_forall hsemicolon, hentries]
            rfl
          · rw [List.map_cons, hnames, List.filterMap_cons_some hname]

theorem read_of_tokenize {text : Bytes} {tokens : List Token} (h : tokenize text = .ok tokens) :
    (Document.read text).tokens = tokens ∧
      (Document.read text).table = (analyze tokens).table := by
  simp only [Document.read, h]
  split <;> exact ⟨rfl, rfl⟩

/-- The first entry with the name of an item is the entry of that item. -/
theorem find?_declarations {tokens : List Token} (rest : List Token) {done : Block}
    (h : Completed (kinds tokens) done) (hdistinct : done.names.Nodup) {index : Nat} {item : Item}
    (hitem : done.items[index]? = some item) {name : String} (hname : item.name? = some name) :
    ∃ position, DeclaredAs (tokens ++ rest) index item position ∧
      (declarations (tokens ++ rest)).find? (fun declaration => declaration.name == name) =
        some ⟨name, position, item.value?⟩ := by
  obtain ⟨before, used, after, hrow, hbefore, hused⟩ := h.split hitem
  obtain ⟨start, tokens, rfl, hkinds⟩ := kinds_eq_cons_iff.mp hrow
  obtain ⟨before, tokens, rfl, rfl, hbehind⟩ := kinds_eq_append_iff.mp hkinds
  obtain ⟨used, after, rfl, rfl, rfl⟩ := kinds_eq_append_iff.mp hbehind
  obtain ⟨keyword, position, given, rfl, hentry⟩ := declarations_of_name? hused hname (after ++ rest)
  obtain ⟨entries, hentries, hnames⟩ := declarations_of_items hbefore rfl
    (keyword :: ⟨.identifier name, position⟩ :: given ++ (after ++ rest))
  have hindex : index < done.items.length := (List.getElem?_eq_some_iff.mp hitem).1
  refine ⟨position, ?_, ?_⟩
  · have hlength : (done.items.take index).length = index := List.length_take_of_le hindex.le
    rw [← hlength]
    refine @DeclaredAs.mk _ ⟨.beginWord, start⟩ keyword before given (after ++ rest) name position _
      item ?_ rfl hbefore hname hused
    simp
  · have hsplit : done.names = (done.items.take index).filterMap Item.name? ++
        name :: (done.items.drop (index + 1)).filterMap Item.name? := by
      obtain ⟨_, rfl⟩ := List.getElem?_eq_some_iff.mp hitem
      rw [← List.filterMap_cons_some hname, ← List.drop_eq_getElem_cons hindex,
        ← List.filterMap_append, List.take_append_drop, Block.filterMap_name?_items]
    have hnew := Block.notMem_of_nodup hsplit hdistinct
    have hnone : entries.find? (fun declaration => declaration.name == name) = none := by
      refine List.find?_eq_none.mpr fun entry hentry hsame => hnew ?_
      rw [← hnames, ← beq_iff_eq.mp hsame]
      exact List.mem_map_of_mem hentry
    have hstart : ∀ kind ∈ kinds [⟨.beginWord, start⟩], ¬kind.Declares := by
      simp [TokenKind.Declares]
    have hall : declarations ([⟨.beginWord, start⟩] ++ (before ++
        (keyword :: ⟨.identifier name, position⟩ :: given ++ (after ++ rest)))) =
          entries ++ ⟨name, position, item.value?⟩ :: declarations (after ++ rest) := by
      rw [declarations_of_forall hstart, hentries, hentry]
    have hfind := congrArg (List.find? fun declaration => declaration.name == name) hall
    rw [List.find?_append, hnone, List.find?_cons_of_pos (by simp)] at hfind
    simpa using hfind

/-- In a block the names that are found are the names that it declares, in order. -/
theorem declarations_of_block {before : List Token} {tree : Block}
    (h : BlockPhrase (kinds before) tree) (finish : Position) :
    (declarations (before ++ ([] ++ [⟨.endOfInput, finish⟩]))).map Declaration.name = tree.names := by
  obtain ⟨inner, hrow, hinner⟩ := h.sequence
  obtain ⟨start, before, rfl, hkinds⟩ := kinds_eq_cons_iff.mp hrow
  obtain ⟨before, last, rfl, rfl, hlast⟩ := kinds_eq_append_iff.mp hkinds
  have hquiet : ∀ kind ∈ kinds (last ++ [⟨.endOfInput, finish⟩]), ¬kind.Declares := by
    simp [hlast, TokenKind.Declares]
  have hnone := declarations_of_forall hquiet []
  rw [List.append_nil] at hnone
  obtain ⟨entries, hentries, hnames⟩ :=
    declarations_of_items hinner rfl (last ++ [⟨.endOfInput, finish⟩])
  rw [List.cons_append, List.nil_append, List.append_assoc,
    declarations_of_not_declares (by simp [TokenKind.Declares]), hentries, hnone, List.map_append,
    hnames, Block.filterMap_name?_items]
  exact List.append_nil _

/-- The entries that are found for a text agree with its analysis, its code and its runs. Each symbol of
the analysis has the entry of the item that declared it. If the text compiles, there are no other
entries, and the value in the entry of a constant is the one that its instruction puts on the stack and
that its cell holds from then on. -/
theorem declaration?_agrees {text : Bytes} {tokens : List Token} (htokens : tokenize text = .ok tokens) :
    (∀ index symbol, (Document.read text).table.symbols[index]? = some symbol →
      ∃ item position, DeclaredAs tokens index item position ∧ item.name? = some symbol.name ∧
        (Document.read text).declaration? symbol.name = some ⟨symbol.name, position, item.value?⟩ ∧
        (item.value?.isSome ↔ symbol.cls = .constant)) ∧
    ∀ code, compile text = .ok code →
      (declarations tokens).map Declaration.name =
        (Document.read text).table.symbols.map Symbol.name ∧
      ∀ index symbol position value, (Document.read text).table.symbols[index]? = some symbol →
        (Document.read text).declaration? symbol.name = some ⟨symbol.name, position, some value⟩ →
          symbol.slot = Int32.ofNat index ∧ code[index]? = some (.of .literal value) ∧
          ∀ (prior : Processor) (count : Nat),
            index < (prior.execute (code.take count)).marks.length →
              (prior.execute (code.take count)).stack[index]? = some value := by
  obtain ⟨htokens', htable'⟩ := read_of_tokenize htokens
  obtain ⟨before, rest, done, hsentence, hdone, hallowed, htable, hcode⟩ := exists_completed tokens
  have hwhole : before ++ (rest ++ [⟨.endOfInput, finish tokens⟩]) = tokens := by
    rw [← List.append_assoc, ← hsentence, ← tokenize_eq_ok htokens]
  have hentry : ∀ index symbol, (Document.read text).table.symbols[index]? = some symbol →
      ∃ item position, done.items[index]? = some item ∧ DeclaredAs tokens index item position ∧
        item.name? = some symbol.name ∧
        (Document.read text).declaration? symbol.name =
          some ⟨symbol.name, position, item.value?⟩ := by
    intro index symbol hsymbol
    rw [htable', htable] at hsymbol
    have hname : done.names[index]? = some symbol.name := by
      rw [← hallowed.lists.names, List.getElem?_map, hsymbol]
      rfl
    obtain ⟨item, hitem, hitemname⟩ := Block.exists_item hname
    obtain ⟨position, hdeclared, hfind⟩ := find?_declarations
      (rest ++ [⟨.endOfInput, finish tokens⟩]) hdone hallowed.nodup hitem hitemname
    rw [hwhole] at hdeclared hfind
    refine ⟨item, position, hitem, hdeclared, hitemname, ?_⟩
    rw [Document.declaration?, htokens']
    exact hfind
  constructor
  · intro index symbol hsymbol
    obtain ⟨item, position, hitem, hdeclared, hname, hfind⟩ := hentry index symbol hsymbol
    refine ⟨item, position, hdeclared, hname, hfind, ?_⟩
    rw [htable', htable] at hsymbol
    rw [hallowed.lists.constants symbol (List.mem_of_getElem? hsymbol)]
    exact Block.isSome_value?_iff hallowed.nodup hitem hname
  · intro code hcompile
    obtain ⟨-, hresult⟩ := read_of_ok hcompile htokens
    obtain ⟨rfl, hphrase, rfl⟩ := hcode code hresult
    constructor
    · rw [← hwhole, declarations_of_block hphrase, htable', htable, hallowed.lists.names]
    · intro index symbol position value hsymbol hdeclaration
      obtain ⟨item, place, hitem, -, -, hfind⟩ := hentry index symbol hsymbol
      have hvalue : item.value? = some value := by
        rw [hfind] at hdeclaration
        exact congrArg Declaration.constant (Option.some.inj hdeclaration)
      obtain ⟨constant, rfl, rfl⟩ := Item.value?_eq_some_iff.mp hvalue
      have hconstant := Block.getElem?_constants_of_items hitem
      rw [htable', htable] at hsymbol
      refine ⟨(SymbolTable.getElem?_symbols.mp hsymbol).2, getElem?_code_constants hconstant, ?_⟩
      intro prior count hcarried
      exact Block.getElem?_stack_constant (Block.allowed_iff_wellNamed.mp hallowed) prior count
        hconstant hcarried

/-- A text that declares a constant again where only statements may stand. -/
def redeclaringText : String :=
  "begin\n  const k = -7;\n  var a = k;\n  const k = 9;\nend"

def redeclaringTokens : List Token :=
  [⟨.beginWord, ⟨0, 1, 1⟩⟩, ⟨.constWord, ⟨8, 2, 3⟩⟩, ⟨.identifier "k", ⟨14, 2, 9⟩⟩, ⟨.equals, ⟨16, 2, 11⟩⟩,
    ⟨.minus, ⟨18, 2, 13⟩⟩, ⟨.integer 7, ⟨19, 2, 14⟩⟩, ⟨.semicolon, ⟨20, 2, 15⟩⟩, ⟨.varWord, ⟨24, 3, 3⟩⟩,
    ⟨.identifier "a", ⟨28, 3, 7⟩⟩, ⟨.equals, ⟨30, 3, 9⟩⟩, ⟨.identifier "k", ⟨32, 3, 11⟩⟩,
    ⟨.semicolon, ⟨33, 3, 12⟩⟩, ⟨.constWord, ⟨37, 4, 3⟩⟩, ⟨.identifier "k", ⟨43, 4, 9⟩⟩,
    ⟨.equals, ⟨45, 4, 11⟩⟩, ⟨.integer 9, ⟨47, 4, 13⟩⟩, ⟨.semicolon, ⟨48, 4, 14⟩⟩, ⟨.endWord, ⟨50, 5, 1⟩⟩,
    ⟨.endOfInput, ⟨53, 5, 4⟩⟩]

/-- A text that compiles. -/
def scalingText : String :=
  "begin\n  const k = -7;\n  var a = k;\n  a = a*k;\nend"

def scalingTokens : List Token :=
  [⟨.beginWord, ⟨0, 1, 1⟩⟩, ⟨.constWord, ⟨8, 2, 3⟩⟩, ⟨.identifier "k", ⟨14, 2, 9⟩⟩, ⟨.equals, ⟨16, 2, 11⟩⟩,
    ⟨.minus, ⟨18, 2, 13⟩⟩, ⟨.integer 7, ⟨19, 2, 14⟩⟩, ⟨.semicolon, ⟨20, 2, 15⟩⟩, ⟨.varWord, ⟨24, 3, 3⟩⟩,
    ⟨.identifier "a", ⟨28, 3, 7⟩⟩, ⟨.equals, ⟨30, 3, 9⟩⟩, ⟨.identifier "k", ⟨32, 3, 11⟩⟩,
    ⟨.semicolon, ⟨33, 3, 12⟩⟩, ⟨.identifier "a", ⟨37, 4, 3⟩⟩, ⟨.equals, ⟨39, 4, 5⟩⟩,
    ⟨.identifier "a", ⟨41, 4, 7⟩⟩, ⟨.times, ⟨42, 4, 8⟩⟩, ⟨.identifier "k", ⟨43, 4, 9⟩⟩,
    ⟨.semicolon, ⟨44, 4, 10⟩⟩, ⟨.endWord, ⟨46, 5, 1⟩⟩, ⟨.endOfInput, ⟨49, 5, 4⟩⟩]

def scalingCode : Code :=
  [.of .literal (-7), .of .load 0, .of .load 1, .of .load 0, .of .multiply, .of .store 1]

/-- The scan of the first text finds the constant twice and keeps what its first declaration says, which
is the one that was analyzed. In the second the constant is there after one instruction. -/
theorem declaration?_agrees_redeclaring :
    tokenize (encode redeclaringText) = .ok redeclaringTokens ∧
    (declarations redeclaringTokens).map Declaration.name = ["k", "a", "k"] ∧
    (∃ item position, DeclaredAs redeclaringTokens 0 item position ∧
      (Document.read (encode redeclaringText)).declaration? "k" =
        some ⟨"k", position, item.value?⟩ ∧ item.value?.isSome) ∧
    tokenize (encode scalingText) = .ok scalingTokens ∧
    compile (encode scalingText) = .ok scalingCode ∧
    ∀ (prior : Processor) (count : Nat),
      0 < (prior.execute (scalingCode.take count)).marks.length →
        (prior.execute (scalingCode.take count)).stack[0]? = some (-7 : Int32) := by
  have hredeclaring : tokenize (encode redeclaringText) = .ok redeclaringTokens := by cbv
  have hsymbols : (Document.read (encode redeclaringText)).table.symbols =
      [⟨"k", .constant, 0⟩, ⟨"a", .initialized, 1⟩] := by
    rw [(read_of_tokenize hredeclaring).2]
    cbv
  obtain ⟨item, position, hdeclared, -, hentry, hvalue⟩ :=
    (declaration?_agrees hredeclaring).1 0 ⟨"k", .constant, 0⟩ (by rw [hsymbols]; rfl)
  have hscaling : tokenize (encode scalingText) = .ok scalingTokens := by cbv
  have hcompile : compile (encode scalingText) = .ok scalingCode := by
    rw [compile, hscaling]
    cbv
  have hscalingSymbols : (Document.read (encode scalingText)).table.symbols =
      [⟨"k", .constant, 0⟩, ⟨"a", .initialized, 1⟩] := by
    rw [(read_of_tokenize hscaling).2]
    cbv
  have hscalingEntry : (Document.read (encode scalingText)).declaration? "k" =
      some ⟨"k", ⟨14, 2, 9⟩, some (-7)⟩ := by
    rw [Document.declaration?, (read_of_tokenize hscaling).1]
    decide
  obtain ⟨-, -, hcells⟩ := ((declaration?_agrees hscaling).2 scalingCode hcompile).2 0
    ⟨"k", .constant, 0⟩ ⟨14, 2, 9⟩ (-7) (by rw [hscalingSymbols]; rfl) hscalingEntry
  exact ⟨hredeclaring, by decide, ⟨item, position, hdeclared, hentry, hvalue.mpr rfl⟩, hscaling,
    hcompile, hcells⟩

end PlZero.Editor

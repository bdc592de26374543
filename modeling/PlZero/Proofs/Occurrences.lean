import PlZero.Editor.Document
import PlZero.Proofs.FaultPlaces

/-! Where the names of a block stand among its tokens. In a block that keeps the rules on names, a name
first stands behind the keyword that declares it, no keyword declares it again, and all other places
are behind that. An identifier never stands directly behind an integer. -/

namespace PlZero.Source

open SymbolTable

/-- The keywords that declare the name behind them. -/
def TokenKind.Declares (kind : TokenKind) : Prop :=
  kind = .constWord ∨ kind = .varWord

/-- Whether a kind has to do with names: those that declare one, and the names themselves. -/
def TokenKind.isNaming : TokenKind → Bool
  | identifier _ | constWord | varWord => true
  | _ => false

theorem Sign.isNaming_mark (sign : Sign) : sign.mark.isNaming = false := by
  cases sign <;> rfl

theorem BinaryOperator.isNaming_mark (operator : BinaryOperator) : operator.mark.isNaming = false := by
  cases operator <;> rfl

/-- The row, read with the names of `known` declared before it, declares only new names and uses only
names that are declared by then; those of `final` are declared behind it. -/
inductive Introduces : List String → List TokenKind → List String → Prop where
  | nil (known : List String) : Introduces known [] known
  | declare {known final : List String} {keyword : TokenKind} {name : String} {row : List TokenKind}
      (hkeyword : keyword.Declares) (hnew : name ∉ known)
      (hrest : Introduces (known ++ [name]) row final) :
      Introduces known (keyword :: .identifier name :: row) final
  | use {known final : List String} {name : String} {row : List TokenKind} (hknown : name ∈ known)
      (hrest : Introduces known row final) : Introduces known (.identifier name :: row) final
  | skip {known final : List String} {kind : TokenKind} {row : List TokenKind}
      (hkind : kind.isNaming = false) (hrest : Introduces known row final) :
      Introduces known (kind :: row) final

namespace Introduces

theorem append {known middle final : List String} {first second : List TokenKind}
    (h : Introduces known first middle) (hrest : Introduces middle second final) :
    Introduces known (first ++ second) final := by
  induction h with
  | nil => exact hrest
  | declare hkeyword hnew _ ih => exact .declare hkeyword hnew (ih hrest)
  | use hknown _ ih => exact .use hknown (ih hrest)
  | skip hkind _ ih => exact .skip hkind (ih hrest)

/-- An expression declares nothing and uses its names. -/
theorem ofPhrase {level : Level} {row : List TokenKind} {tree : Expression}
    (h : Phrase level row tree) {known : List String} (hknown : ∀ used ∈ tree.names, used ∈ known) :
    Introduces known row known := by
  induction h with
  | literal value => exact .skip rfl (.nil known)
  | name used => exact .use (hknown used List.mem_cons_self) (.nil known)
  | group _ ih => exact .skip rfl ((ih hknown).append (.skip rfl (.nil known)))
  | unsigned _ ih => exact ih hknown
  | signed sign _ ih => exact .skip sign.isNaming_mark (ih hknown)
  | lone _ ih => exact ih hknown
  | single _ ih => exact ih hknown
  | product operator _ _ _ ihleft ihright =>
      obtain ⟨hleft, hright⟩ := List.forall_mem_append.mp hknown
      exact (ihleft hleft).append (.skip operator.isNaming_mark (ihright hright))
  | sum operator _ _ _ ihleft ihright =>
      obtain ⟨hleft, hright⟩ := List.forall_mem_append.mp hknown
      exact (ihleft hleft).append (.skip operator.isNaming_mark (ihright hright))

theorem ofCovers {table : SymbolTable} {row : List TokenKind} {tree : Expression}
    (h : Phrase .expression row tree) (hcovers : table.Covers tree) :
    Introduces table.names row table.names :=
  ofPhrase h fun used hused => let ⟨_, hclass, _⟩ := hcovers used hused; mem_names_of_class? hclass

section Items

variable {table : SymbolTable} {row : List TokenKind}

theorem ofConstant {constant : Constant} (h : ConstantPhrase row constant)
    (hallows : table.AllowsConstant constant) :
    Introduces table.names row (table.afterConstant constant).names := by
  have hnew := class?_eq_none_iff.mp hallows
  rw [afterConstant, names_add]
  cases h with
  | unsigned name value =>
      exact .declare (.inl rfl) hnew (.skip rfl (.skip rfl (.skip rfl (.nil _))))
  | signed name sign value =>
      exact .declare (.inl rfl) hnew
        (.skip rfl (.skip sign.isNaming_mark (.skip rfl (.skip rfl (.nil _)))))

theorem ofVariable {declared : Variable} (h : VariablePhrase row declared)
    (hallows : table.AllowsVariable declared) :
    Introduces table.names row (table.afterVariable declared).names := by
  have hnew := class?_eq_none_iff.mp hallows.1
  rw [afterVariable, names_add]
  cases h with
  | bare name => exact .declare (.inr rfl) hnew (.skip rfl (.nil _))
  | @initialized row tree name value =>
      have hknown : ∀ used ∈ tree.names, used ∈ table.names ++ [name] := by
        intro used hused
        obtain ⟨cls, hclass, -⟩ := hallows.2 tree rfl used hused
        exact List.mem_append_left _ (mem_names_of_class? hclass)
      exact .declare (.inr rfl) hnew
        (.skip rfl ((ofPhrase value hknown).append (.skip rfl (.nil _))))

theorem ofStatement {statement : Statement} (h : StatementPhrase row statement)
    (hallows : table.AllowsStatement statement) :
    Introduces table.names row (table.afterStatement statement).names := by
  cases h with
  | assign target value =>
      obtain ⟨⟨cls, hclass, -⟩, hcovers⟩ := hallows
      rw [afterStatement, names_markInitialized]
      exact .use (mem_names_of_class? hclass)
        (.skip rfl ((ofCovers value hcovers).append (.skip rfl (.nil _))))
  | print value =>
      exact .skip rfl (.skip rfl
        ((ofCovers value hallows).append (.skip rfl (.skip rfl (.nil _)))))
  | empty => exact .skip rfl (.nil _)

end Items

/-- Items that are allowed where they stand introduce their names one by one. -/
theorem ofSequence {α : Type} {phrase : List TokenKind → α → Prop} {allows : SymbolTable → α → Prop}
    {after : SymbolTable → α → SymbolTable} {table : SymbolTable} {row : List TokenKind}
    {items : List α} (h : Sequence phrase row items) (hadmits : Admits allows after table items)
    (hitem : ∀ {table row item}, phrase row item → allows table item →
      Introduces table.names row (after table item).names) :
    Introduces table.names row (items.foldl after table).names := by
  induction h generalizing table with
  | nil => exact .nil _
  | cons head _ ih => exact (hitem head hadmits.1).append (ih hadmits.2)

/-- A block that keeps the rules on names introduces the names that it declares. -/
theorem ofBlock {row : List TokenKind} {tree : Block} (h : BlockPhrase row tree)
    (hnamed : tree.WellNamed) : Introduces [] row tree.names := by
  obtain ⟨hconstants, hvars, hstatements⟩ := Block.allowed_iff_wellNamed.mpr hnamed
  rw [← Block.names_table]
  cases h with
  | mk declared followed body =>
      have hdeclared := ofSequence declared hconstants ofConstant
      have hfollowed := ofSequence followed hvars ofVariable
      have hbody := ofSequence body hstatements ofStatement
      exact .skip rfl (hdeclared.append (hfollowed.append (hbody.append (.skip rfl (.nil _)))))

end Introduces

def TokenKind.isInteger : TokenKind → Bool
  | integer _ => true
  | _ => false

theorem Sign.isInteger_mark (sign : Sign) : sign.mark.isInteger = false := by
  cases sign <;> rfl

theorem BinaryOperator.isInteger_mark (operator : BinaryOperator) : operator.mark.isInteger = false := by
  cases operator <;> rfl

theorem BinaryOperator.mark_ne_identifier (operator : BinaryOperator) (name : String) :
    operator.mark ≠ .identifier name := by
  cases operator <;> nofun

/-- The right one is no identifier if the left one is an integer. -/
def Apart (left right : TokenKind) : Prop :=
  left.isInteger = true → ∀ name, right ≠ .identifier name

section Apart

variable {row more : List TokenKind} (hmore : more.IsChain Apart)
include hmore

theorem isChain_cons_apart {kind : TokenKind} (hkind : kind.isInteger = false) :
    (kind :: more).IsChain Apart := by
  refine List.isChain_cons.mpr ⟨fun _ _ hinteger => ?_, hmore⟩
  rw [hkind] at hinteger
  cases hinteger

/-- An expression does not end in front of an identifier. -/
theorem Phrase.isChain_append {level : Level} {tree : Expression} (h : Phrase level row tree)
    (hhead : ∀ name, more.head? ≠ some (.identifier name)) : (row ++ more).IsChain Apart := by
  induction h generalizing more with
  | literal value =>
      refine List.isChain_cons.mpr ⟨?_, hmore⟩
      rintro _ hnext - name rfl
      exact hhead name hnext
  | name used => exact isChain_cons_apart hmore rfl
  | @group row tree _ ih =>
      have hclose : (.closeParen :: more).IsChain Apart := isChain_cons_apart hmore rfl
      rw [List.cons_append, List.append_assoc]
      exact isChain_cons_apart (ih hclose nofun) rfl
  | unsigned _ ih => exact ih hmore hhead
  | signed sign _ ih => exact isChain_cons_apart (ih hmore hhead) sign.isInteger_mark
  | lone _ ih => exact ih hmore hhead
  | single _ ih => exact ih hmore hhead
  | product operator _ _ _ ihleft ihright =>
      rw [List.append_assoc]
      refine ihleft (isChain_cons_apart (ihright hmore hhead) operator.isInteger_mark) ?_
      exact fun name hname => operator.mark_ne_identifier name (Option.some.inj hname)
  | sum operator _ _ _ ihleft ihright =>
      rw [List.append_assoc]
      refine ihleft (isChain_cons_apart (ihright hmore hhead) operator.isInteger_mark) ?_
      exact fun name hname => operator.mark_ne_identifier name (Option.some.inj hname)

theorem isChain_integer (value : Int32) : (.integer value :: .semicolon :: more).IsChain Apart :=
  (Phrase.literal value).isChain_append (isChain_cons_apart hmore rfl) nofun

theorem ConstantPhrase.isChain_append {constant : Constant} (h : ConstantPhrase row constant) :
    (row ++ more).IsChain Apart := by
  have hvalue := isChain_integer hmore
  cases h with
  | unsigned name value =>
      exact isChain_cons_apart (isChain_cons_apart (isChain_cons_apart (hvalue value) rfl) rfl) rfl
  | signed name sign value =>
      have hsigned := isChain_cons_apart (hvalue value) sign.isInteger_mark
      exact isChain_cons_apart (isChain_cons_apart (isChain_cons_apart hsigned rfl) rfl) rfl

theorem VariablePhrase.isChain_append {declared : Variable} (h : VariablePhrase row declared) :
    (row ++ more).IsChain Apart := by
  have hend : (.semicolon :: more).IsChain Apart := isChain_cons_apart hmore rfl
  cases h with
  | bare name => exact isChain_cons_apart (isChain_cons_apart hend rfl) rfl
  | initialized name value =>
      have hvalue := value.isChain_append hend nofun
      simp only [List.cons_append, List.append_assoc, List.nil_append]
      exact isChain_cons_apart (isChain_cons_apart (isChain_cons_apart hvalue rfl) rfl) rfl

theorem StatementPhrase.isChain_append {statement : Statement} (h : StatementPhrase row statement) :
    (row ++ more).IsChain Apart := by
  have hend : (.semicolon :: more).IsChain Apart := isChain_cons_apart hmore rfl
  cases h with
  | assign target value =>
      have hvalue := value.isChain_append hend nofun
      simp only [List.cons_append, List.append_assoc, List.nil_append]
      exact isChain_cons_apart (isChain_cons_apart hvalue rfl) rfl
  | print value =>
      have hclosed : (.closeParen :: .semicolon :: more).IsChain Apart := isChain_cons_apart hend rfl
      have hvalue := value.isChain_append hclosed nofun
      simp only [List.cons_append, List.append_assoc, List.nil_append]
      exact isChain_cons_apart (isChain_cons_apart hvalue rfl) rfl
  | empty => exact hend

theorem Sequence.isChain_append {α : Type} {phrase : List TokenKind → α → Prop} {items : List α}
    (h : Sequence phrase row items)
    (hitem : ∀ {row more item}, List.IsChain Apart more → phrase row item →
      (row ++ more).IsChain Apart) :
    (row ++ more).IsChain Apart := by
  induction h with
  | nil => exact hmore
  | cons head _ ih =>
      rw [List.append_assoc]
      exact hitem ih head

end Apart

/-- In a block no identifier stands directly behind an integer. -/
theorem BlockPhrase.isChain {row : List TokenKind} {tree : Block} (h : BlockPhrase row tree) :
    row.IsChain Apart := by
  cases h with
  | mk declared followed body =>
      have hend : [TokenKind.endWord].IsChain Apart := List.isChain_singleton _
      have hbody := body.isChain_append hend fun hmore h => StatementPhrase.isChain_append hmore h
      have hfollowed := followed.isChain_append hbody fun hmore h => VariablePhrase.isChain_append hmore h
      have hdeclared :=
        declared.isChain_append hfollowed fun hmore h => ConstantPhrase.isChain_append hmore h
      exact isChain_cons_apart hdeclared rfl

end PlZero.Source

namespace PlZero.Editor

open PlZero.Source

/-! ### Declarations among tokens -/

/-- Where the identifiers with a name stand, in order. -/
def occurrences (tokens : List Token) (name : String) : List Position :=
  (tokens.filter fun token => token.kind = .identifier name).map Token.position

/-- An identifier with the name stands at the position, directly behind a keyword that declares it. -/
def DeclaredAt (tokens : List Token) (name : String) (position : Position) : Prop :=
  ∃ before keyword after, tokens = before ++ keyword :: ⟨.identifier name, position⟩ :: after ∧
    keyword.kind.Declares

theorem occurrences_cons_self (name : String) (position : Position) (rest : List Token) :
    occurrences (⟨.identifier name, position⟩ :: rest) name = position :: occurrences rest name := by
  simp [occurrences]

theorem occurrences_cons_of_ne {token : Token} {name : String} (h : token.kind ≠ .identifier name)
    (rest : List Token) : occurrences (token :: rest) name = occurrences rest name := by
  simp [occurrences, h]

theorem mem_occurrences_iff {tokens : List Token} {name : String} {position : Position} :
    position ∈ occurrences tokens name ↔ ⟨.identifier name, position⟩ ∈ tokens := by
  simp only [occurrences, List.mem_map, List.mem_filter, decide_eq_true_eq]
  constructor
  · rintro ⟨⟨kind, _⟩, ⟨htoken, rfl⟩, rfl⟩
    exact htoken
  · intro htoken
    exact ⟨_, ⟨htoken, rfl⟩, rfl⟩

theorem declarationAt_eq_some_iff {keyword : TokenKind} {rest : List Token} {name : String}
    {position : Position} :
    (∃ constant, declarationAt keyword rest = some ⟨name, position, constant⟩) ↔
      keyword.Declares ∧ ∃ after, rest = ⟨.identifier name, position⟩ :: after := by
  constructor
  · rintro ⟨constant, h⟩
    unfold declarationAt at h
    split at h
    · split at h
      · cases h
        exact ⟨.inl rfl, _, rfl⟩
      · cases h
        exact ⟨.inr rfl, _, rfl⟩
      · cases h
    · cases h
  · rintro ⟨rfl | rfl, after, rfl⟩
    · exact ⟨_, rfl⟩
    · exact ⟨_, rfl⟩

theorem declarations_cons (token : Token) (rest : List Token) :
    declarations (token :: rest) = (declarationAt token.kind rest).toList ++ declarations rest := by
  rw [declarations]
  split
  · rename_i hdeclaration
    rw [hdeclaration]
    rfl
  · rename_i hdeclaration
    rw [hdeclaration]
    rfl

/-- The declarations that are found are those behind a keyword. -/
theorem mem_declarations_iff {tokens : List Token} {name : String} {position : Position} :
    (∃ constant, ⟨name, position, constant⟩ ∈ declarations tokens) ↔
      DeclaredAt tokens name position := by
  induction tokens with
  | nil => simp [declarations, DeclaredAt]
  | cons token rest ih =>
      simp only [declarations_cons, List.mem_append, Option.mem_toList, exists_or, ih,
        declarationAt_eq_some_iff]
      constructor
      · rintro (⟨hkeyword, after, rfl⟩ | ⟨before, keyword, after, rfl, hkeyword⟩)
        · exact ⟨[], token, after, rfl, hkeyword⟩
        · exact ⟨token :: before, keyword, after, rfl, hkeyword⟩
      · rintro ⟨before, keyword, after, hsplit, hkeyword⟩
        cases before with
        | nil =>
            obtain ⟨rfl, rfl⟩ := List.cons.inj hsplit
            exact .inl ⟨hkeyword, after, rfl⟩
        | cons head before =>
            obtain ⟨rfl, rfl⟩ := List.cons.inj hsplit
            exact .inr ⟨before, keyword, after, rfl, hkeyword⟩

theorem declarations_of_not_declares {token : Token} (h : ¬token.kind.Declares) (rest : List Token) :
    declarations (token :: rest) = declarations rest := by
  have hnone : declarationAt token.kind rest = none := by
    rw [Option.eq_none_iff_forall_ne_some]
    rintro ⟨name, position, constant⟩ hsome
    exact h (declarationAt_eq_some_iff.mp ⟨constant, hsome⟩).1
  rw [declarations_cons, hnone]
  rfl

theorem exists_declarations {keyword : TokenKind} (h : keyword.Declares) (start : Position)
    (name : String) (position : Position) (rest : List Token) : ∃ constant,
      declarations (⟨keyword, start⟩ :: ⟨.identifier name, position⟩ :: rest) =
        ⟨name, position, constant⟩ :: declarations rest := by
  obtain ⟨constant, hsome⟩ := declarationAt_eq_some_iff.mpr ⟨h, rest, rfl⟩
  refine ⟨constant, ?_⟩
  rw [declarations_cons, hsome, declarations_of_not_declares (by simp [TokenKind.Declares])]
  rfl

theorem not_declares_of_isNaming {kind : TokenKind} (h : kind.isNaming = false) : ¬kind.Declares := by
  rintro (rfl | rfl) <;> cases h

/-- No name is declared again. -/
theorem notMem_of_introduces {known final : List String} {row : List TokenKind}
    (h : Introduces known row final) {tokens : List Token} (hrow : kinds tokens = row) :
    ∀ declaration ∈ declarations tokens, declaration.name ∉ known := by
  induction h generalizing tokens with
  | nil =>
      obtain rfl := kinds_eq_nil_iff.mp hrow
      exact List.forall_mem_nil _
  | declare hkeyword hnew _ ih =>
      obtain ⟨start, _, rfl, hbehind⟩ := kinds_eq_cons_iff.mp hrow
      obtain ⟨position, rest, rfl, hafter⟩ := kinds_eq_cons_iff.mp hbehind
      obtain ⟨constant, hdeclarations⟩ := exists_declarations hkeyword start _ position rest
      rw [hdeclarations]
      refine List.forall_mem_cons.mpr ⟨hnew, fun declaration hdeclaration hmem => ?_⟩
      exact ih hafter declaration hdeclaration (List.mem_append_left _ hmem)
  | use hknown _ ih =>
      obtain ⟨_, _, rfl, hbehind⟩ := kinds_eq_cons_iff.mp hrow
      rw [declarations_of_not_declares (by simp [TokenKind.Declares])]
      exact ih hbehind
  | skip hkind _ ih =>
      obtain ⟨_, _, rfl, hbehind⟩ := kinds_eq_cons_iff.mp hrow
      rw [declarations_of_not_declares (not_declares_of_isNaming hkind)]
      exact ih hbehind

/-- A name that was not declared before is declared once, where it stands first. -/
theorem filter_declarations {known final : List String} {row : List TokenKind}
    (h : Introduces known row final) {tokens : List Token} (hrow : kinds tokens = row) {name : String}
    (hnew : name ∉ known) {place : Position} {others : List Position}
    (hplaces : occurrences tokens name = place :: others) : ∃ constant,
      (declarations tokens).filter (fun declaration => declaration.name == name) =
        [⟨name, place, constant⟩] := by
  induction h generalizing tokens with
  | nil =>
      obtain rfl := kinds_eq_nil_iff.mp hrow
      cases hplaces
  | @declare known final keyword declared row hkeyword _ hrest ih =>
      obtain ⟨start, _, rfl, hbehind⟩ := kinds_eq_cons_iff.mp hrow
      obtain ⟨position, rest, rfl, hafter⟩ := kinds_eq_cons_iff.mp hbehind
      obtain ⟨constant, hdeclarations⟩ := exists_declarations hkeyword start declared position rest
      have hword : keyword ≠ .identifier name := by rintro rfl; simp [TokenKind.Declares] at hkeyword
      rw [occurrences_cons_of_ne hword] at hplaces
      by_cases hname : declared = name
      · -- What stands behind the first occurrence declares other names.
        subst hname
        rw [occurrences_cons_self] at hplaces
        obtain ⟨rfl, -⟩ := List.cons.inj hplaces
        have hnone : (declarations rest).filter (fun declaration => declaration.name == declared) = [] := by
          refine List.filter_eq_nil_iff.mpr fun declaration hdeclaration hsame => ?_
          refine notMem_of_introduces hrest hafter declaration hdeclaration ?_
          simp [beq_iff_eq.mp hsame]
        refine ⟨constant, ?_⟩
        rw [hdeclarations, List.filter_cons_of_pos (by simp), hnone]
      · rw [occurrences_cons_of_ne fun h => hname (TokenKind.identifier.inj h)] at hplaces
        rw [hdeclarations, List.filter_cons_of_neg (by simpa using hname)]
        exact ih hafter (by simpa [hnew] using Ne.symm hname) hplaces
  | @use known final used row hknown _ ih =>
      obtain ⟨_, _, rfl, hbehind⟩ := kinds_eq_cons_iff.mp hrow
      have hname : TokenKind.identifier used ≠ .identifier name := by rintro ⟨⟩; exact hnew hknown
      rw [occurrences_cons_of_ne hname] at hplaces
      rw [declarations_of_not_declares (by simp [TokenKind.Declares])]
      exact ih hbehind hnew hplaces
  | @skip known final kind row hkind _ ih =>
      obtain ⟨_, _, rfl, hbehind⟩ := kinds_eq_cons_iff.mp hrow
      have hname : kind ≠ .identifier name := by rintro rfl; cases hkind
      rw [occurrences_cons_of_ne hname] at hplaces
      rw [declarations_of_not_declares (not_declares_of_isNaming hkind)]
      exact ih hbehind hnew hplaces

/-- The first occurrence of a name is its declaration, and it is the only one. -/
theorem declaredAt_iff_of_introduces {tokens : List Token} {final : List String}
    (h : Introduces [] (kinds tokens) final) {name : String} {place : Position}
    {others : List Position} (hplaces : occurrences tokens name = place :: others) :
    (∃ constant, (declarations tokens).find? (fun declaration => declaration.name == name) =
      some ⟨name, place, constant⟩) ∧ ∀ other, DeclaredAt tokens name other ↔ other = place := by
  obtain ⟨constant, hfilter⟩ := filter_declarations h rfl List.not_mem_nil hplaces
  refine ⟨⟨constant, ?_⟩, fun other => ?_⟩
  · rw [← List.head?_filter, hfilter]
    rfl
  · rw [← mem_declarations_iff]
    have hmem (constant : Option Int32) : ⟨name, other, constant⟩ ∈ declarations tokens ↔
        ⟨name, other, constant⟩ ∈
          (declarations tokens).filter fun declaration => declaration.name == name := by
      simp [List.mem_filter]
    simp [hmem, hfilter]

end PlZero.Editor

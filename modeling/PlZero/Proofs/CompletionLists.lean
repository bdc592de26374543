import PlZero.Proofs.DeclarationScan

/-! Lists of completions. The reserved words and the symbols of a document that start with the stem at a
cursor are told from each other, because an identifier is never spelled like a reserved word, and the
symbols among each other, because an analysis declares no name twice. Main statement: what is offered at
a cursor is exactly that, and in a text that compiles the name that the cursor touches is among it. -/

namespace PlZero.Source

open PlZero.Text

namespace Introduces

variable {known final : List String} {row : List TokenKind} {name : String}

theorem subset (h : Introduces known row final) : known ⊆ final := by
  induction h with
  | nil => exact List.Subset.refl _
  | declare _ _ _ ih => exact List.Subset.trans (List.subset_append_left _ _) ih
  | use _ _ ih => exact ih
  | skip _ _ ih => exact ih

/-- Every name that stands in the row is declared in the end. -/
theorem mem_of_identifier (h : Introduces known row final) (hname : .identifier name ∈ row) :
    name ∈ final := by
  induction h with
  | nil => cases hname
  | @declare known final keyword declared row hkeyword _ hrest ih =>
      rcases List.mem_cons.mp hname with rfl | hname
      · simp [TokenKind.Declares] at hkeyword
      · rcases List.mem_cons.mp hname with hsame | hname
        · obtain rfl := TokenKind.identifier.inj hsame
          exact hrest.subset (List.mem_append_right _ List.mem_cons_self)
        · exact ih hname
  | use hknown hrest ih =>
      rcases List.mem_cons.mp hname with hsame | hname
      · obtain rfl := TokenKind.identifier.inj hsame
        exact hrest.subset hknown
      · exact ih hname
  | skip hkind _ ih =>
      rcases List.mem_cons.mp hname with rfl | hname
      · cases hkind
      · exact ih hname

end Introduces

theorem RunKind.Denotes.not_reserved {kind : RunKind} {run : List Glyph} {name : String}
    (h : kind.Denotes run (.ok (.identifier name))) (word : TokenKind) :
    (name, word) ∉ TokenKind.reserved := by
  cases h with
  | keyword hreserved =>
      have hwords : ∀ entry ∈ TokenKind.reserved, entry.2.hasPayload = false := by decide
      cases hwords _ hreserved
  | identifier hfree => exact hfree word
  | sign hkind =>
      unfold TokenKind.ofMark? at hkind
      split at hkind <;> cases hkind

end PlZero.Source

namespace PlZero.Editor

open PlZero.Source PlZero.Text

/-- An identifier of a text is not spelled like a reserved word. -/
theorem not_reserved_of_mem {text : Bytes} {tokens : List Token} (htokens : tokenize text = .ok tokens)
    {name : String} {position : Position} (htoken : ⟨.identifier name, position⟩ ∈ tokens)
    (kind : TokenKind) : (name, kind) ∉ TokenKind.reserved := by
  obtain ⟨_, _, _, _, -, hplaced⟩ := exists_placed htokens htoken
  exact hplaced.denotes.not_reserved kind

theorem DeclaredAs.mem {tokens : List Token} {index : Nat} {item : Item} {position : Position}
    {name : String} (h : DeclaredAs tokens index item position) (hname : item.name? = some name) :
    ⟨.identifier name, position⟩ ∈ tokens := by
  cases h with
  | mk htokens hstart hbefore hdeclared hitem =>
      obtain rfl := Option.some.inj (hname.symm.trans hdeclared)
      rw [htokens]
      simp

/-- The words with a note are the reserved ones. -/
theorem mem_keywordNotes_iff {word : String} :
    word ∈ keywordNotes.map Prod.fst ↔ ∃ kind, (word, kind) ∈ TokenKind.reserved := by
  have hperm : (keywordNotes.map Prod.fst).Perm (TokenKind.reserved.map Prod.fst) := by decide
  rw [hperm.mem_iff, List.mem_map]
  constructor
  · rintro ⟨⟨_, kind⟩, hentry, rfl⟩
    exact ⟨kind, hentry⟩
  · rintro ⟨kind, hentry⟩
    exact ⟨_, hentry, rfl⟩

theorem pairwise_keywordNotes : (keywordNotes.map Prod.fst).Pairwise (· < ·) := by
  decide

/-! ### Symbols of a document -/

/-- The names of the symbols are told from each other and from the reserved words, whether or not the
text compiles. -/
theorem symbols_distinct {text : Bytes} {tokens : List Token} (htokens : tokenize text = .ok tokens) :
    ((analyze tokens).table.symbols.map Symbol.name).Nodup ∧
      ∀ symbol ∈ (analyze tokens).table.symbols, ∀ kind,
        (symbol.name, kind) ∉ TokenKind.reserved := by
  obtain ⟨before, rest, done, hsentence, hdone, hallowed, htable, -⟩ := exists_completed tokens
  rw [htable]
  refine ⟨hallowed.lists.distinct, fun symbol hsymbol kind => ?_⟩
  obtain ⟨index, hindex⟩ := List.mem_iff_getElem?.mp hsymbol
  have hname : done.names[index]? = some symbol.name := by
    rw [← hallowed.lists.names, List.getElem?_map, hindex]
    rfl
  obtain ⟨item, hitem, hitemname⟩ := Block.exists_item hname
  obtain ⟨position, hdeclared, -⟩ := find?_declarations
    (rest ++ [⟨.endOfInput, finish tokens⟩]) hdone hallowed.nodup hitem hitemname
  rw [← List.append_assoc, ← hsentence, ← tokenize_eq_ok htokens] at hdeclared
  exact not_reserved_of_mem htokens (hdeclared.mem hitemname) kind

/-- All that could be offered in a document is told from each other. -/
theorem nodup_labels (text : Bytes) :
    (keywordNotes.map Prod.fst ++ (Document.read text).table.symbols.map Symbol.name).Nodup := by
  have hwords : (keywordNotes.map Prod.fst).Nodup := pairwise_keywordNotes.imp ne_of_lt
  cases htokens : tokenize text with
  | error fault =>
      rw [Document.read, htokens]
      simpa [SymbolTable.symbols, SymbolTable.empty] using hwords
  | ok tokens =>
      obtain ⟨hdistinct, hreserved⟩ := symbols_distinct htokens
      rw [(read_of_tokenize htokens).2]
      refine List.nodup_append.mpr ⟨hwords, hdistinct, ?_⟩
      rintro word hword _ hname rfl
      obtain ⟨symbol, hsymbol, rfl⟩ := List.mem_map.mp hname
      obtain ⟨kind, hkind⟩ := mem_keywordNotes_iff.mp hword
      exact hreserved symbol hsymbol kind hkind

/-- Every identifier of a text that compiles is a symbol. -/
theorem mem_symbols_of_compile {text : Bytes} {code : Machine.Code} {tokens : List Token}
    (hcompile : compile text = .ok code) (htokens : tokenize text = .ok tokens) {name : String}
    {position : Position} (htoken : ⟨.identifier name, position⟩ ∈ tokens) :
    name ∈ (analyze tokens).table.symbols.map Symbol.name := by
  obtain ⟨-, hresult⟩ := read_of_ok hcompile htokens
  obtain ⟨tree, hphrase, hnamed, -, htable⟩ := analyze_sound hresult
  rw [htable, (Block.allowed_iff_wellNamed.mpr hnamed).lists.names]
  refine (Introduces.ofBlock hphrase hnamed).mem_of_identifier ?_
  rw [tokenize_eq_ok htokens, List.mem_append] at htoken
  exact List.mem_map.mpr ⟨_, htoken.resolve_right (by simp), rfl⟩

/-- What is offered at a cursor are the reserved words that start with the stem there, in alphabetical
order, and behind them the symbols that start with it, in the order of their slots; no label is offered
twice. If the text compiles, the name of an identifier that the cursor touches is offered. -/
theorem completion_exact {session : Session} {uri : String} {text : Bytes} {cursor : Cursor}
    (hopen : session.document? uri = some (Document.read text)) :
    ∃ (words : List String) (symbols : List Symbol),
    (session.serve (.completion uri cursor)).2.answer =
      .completions (words.map (fun word => ⟨word, none⟩) ++
        symbols.map fun symbol => ⟨symbol.name, some symbol.cls⟩) ∧
    words.Pairwise (· < ·) ∧
    (∀ word, word ∈ words ↔ (∃ kind, (word, kind) ∈ TokenKind.reserved) ∧
      ((Document.read text).stemAt cursor).toList <+: word.toList) ∧
    (∀ tokens, tokenize text = .ok tokens →
      (symbols = (analyze tokens).table.symbols.filter fun symbol =>
        ((Document.read text).stemAt cursor).toList.isPrefixOf symbol.name.toList) ∧
      ∀ (slot : Nat) (symbol : Symbol), (analyze tokens).table.symbols[slot]? = some symbol →
        symbol.slot = Int32.ofNat slot) ∧
    (∀ fault, tokenize text = .error fault → symbols = []) ∧
    (words ++ symbols.map Symbol.name).Nodup ∧
    ∀ code tokens name position, compile text = .ok code → tokenize text = .ok tokens →
      ⟨.identifier name, position⟩ ∈ tokens → cursor.Touches name position →
        name ∈ words ++ symbols.map Symbol.name := by
  set stem := ((Document.read text).stemAt cursor).toList with hstem
  refine ⟨(keywordNotes.map Prod.fst).filter fun word => stem.isPrefixOf word.toList,
    (Document.read text).table.symbols.filter fun symbol => stem.isPrefixOf symbol.name.toList,
    ?_, pairwise_keywordNotes.filter _, ?_, ?_, ?_, ?_, ?_⟩
  · rw [Session.serve, answer_ask hopen]
    rfl
  · intro word
    rw [List.mem_filter, mem_keywordNotes_iff, List.isPrefixOf_iff_prefix]
  · intro tokens htokens
    rw [(read_of_tokenize htokens).2]
    exact ⟨rfl, fun slot symbol hsymbol => (SymbolTable.getElem?_symbols.mp hsymbol).2⟩
  · intro fault hfault
    rw [Document.read, hfault]
    rfl
  · exact (nodup_labels text).sublist
      (List.filter_sublist.append (List.filter_sublist.map Symbol.name))
  · intro code tokens name position hcompile htokens htoken htouches
    obtain ⟨hread, hresult⟩ := read_of_ok hcompile htokens
    obtain ⟨tree, hphrase, -⟩ := analyze_sound hresult
    obtain ⟨before, after, hname⟩ := exists_nameAt htokens hphrase.isChain htoken
    have hprefix : stem <+: name.toList := hname.stemAt_prefix (by rw [hread]) htouches
    obtain ⟨symbol, hsymbol, rfl⟩ :=
      List.mem_map.mp (mem_symbols_of_compile hcompile htokens htoken)
    rw [(read_of_tokenize htokens).2]
    refine List.mem_append_right _ (List.mem_map_of_mem (List.mem_filter.mpr ⟨hsymbol, ?_⟩))
    exact List.isPrefixOf_iff_prefix.mpr hprefix

/-- A session that has opened the text in which a constant is scaled. -/
def scalingSession : Session :=
  (Session.serve ⟨"", true, []⟩ (.didOpen "scale" scalingText)).1

/-- At the start of the value of the variable, where nothing stands before the cursor. -/
theorem completion_exact_scaling :
    scalingSession.document? "scale" = some (Document.read (encode scalingText)) ∧
    compile (encode scalingText) = .ok scalingCode ∧
    tokenize (encode scalingText) = .ok scalingTokens ∧
    ⟨.identifier "k", ⟨32, 3, 11⟩⟩ ∈ scalingTokens ∧ Cursor.Touches ⟨2, 10⟩ "k" ⟨32, 3, 11⟩ ∧
    ∃ (words : List String) (symbols : List Symbol),
      (scalingSession.serve (.completion "scale" ⟨2, 10⟩)).2.answer =
        .completions (words.map (fun word => ⟨word, none⟩) ++
          symbols.map fun symbol => ⟨symbol.name, some symbol.cls⟩) ∧
      "k" ∈ words ++ symbols.map Symbol.name := by
  have hopen : scalingSession.document? "scale" = some (Document.read (encode scalingText)) := by
    simp [scalingSession, Session.serve, Session.take, Session.update, Session.document?]
  have htokens : tokenize (encode scalingText) = .ok scalingTokens := by cbv
  have hcompile : compile (encode scalingText) = .ok scalingCode := by
    rw [compile, htokens]
    cbv
  have htoken : ⟨.identifier "k", ⟨32, 3, 11⟩⟩ ∈ scalingTokens := by decide
  have htouches : Cursor.Touches ⟨2, 10⟩ "k" ⟨32, 3, 11⟩ := ⟨by decide, by decide, by decide⟩
  obtain ⟨words, symbols, hanswer, -, -, -, -, -, hname⟩ := @completion_exact _ _ _ ⟨2, 10⟩ hopen
  exact ⟨hopen, hcompile, htokens, htoken, htouches, words, symbols, hanswer,
    hname _ _ _ _ hcompile htokens htoken htouches⟩

end PlZero.Editor

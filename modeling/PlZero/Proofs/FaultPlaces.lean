import PlZero.Proofs.BlockFaults
import PlZero.Proofs.Scanning
import PlZero.Proofs.SymbolHistory

/-! Which token a fault is reported at. Main statements: a fault of syntax is reported at the first token
that no block goes on with, and a fault of naming at a name that the items before it do not allow
there. -/

namespace PlZero.Source

open PlZero.Text PlZero.Attempt Shape SymbolTable

namespace SymbolTable

variable {table : SymbolTable} {name : String}

theorem class?_eq_constant_iff :
    table.class? name = some .constant ↔ table.Usable name ∧ ¬table.Assignable name := by
  rw [Usable, Assignable]
  rcases table.class? name with _ | _ | _ | _ <;> simp

theorem class?_eq_initialized_iff :
    table.class? name = some .initialized ↔ table.Usable name ∧ table.Assignable name := by
  rw [Usable, Assignable]
  rcases table.class? name with _ | _ | _ | _ <;> simp

theorem class?_eq_uninitialized_iff :
    table.class? name = some .uninitialized ↔ table.Assignable name ∧ ¬table.Usable name := by
  rw [Usable, Assignable]
  rcases table.class? name with _ | _ | _ | _ <;> simp

theorem names_foldl_afterStatement (statements : List Statement) (table : SymbolTable) :
    (statements.foldl afterStatement table).names = table.names := by
  induction statements generalizing table with
  | nil => rfl
  | cons statement rest ih =>
      rw [List.foldl_cons, ih]
      cases statement with
      | assign target value => exact names_markInitialized table target
      | print value => rfl
      | empty => rfl

end SymbolTable

namespace Block

variable {block : Block} {name : String}

theorem names_table (block : Block) : block.table.names = block.names := by
  rw [table, names_foldl_afterStatement, names_declared, names]

theorem class?_table_eq_none_iff : block.table.class? name = none ↔ name ∉ block.names := by
  rw [class?_eq_none_iff, names_table]

theorem Allowed.nodup (h : block.Allowed) : block.names.Nodup :=
  (allowed_iff_wellNamed.mp h).distinct

section Classes

variable (hnodup : block.names.Nodup)
include hnodup

theorem assignable_table :
    block.table.Assignable name ↔ ∃ declared ∈ block.vars, declared.name = name := by
  rw [table, assignable_foldl_afterStatement, assignable_declared hnodup]

theorem class?_table_eq_constant_iff :
    block.table.class? name = some .constant ↔ block.HasConstant name := by
  rw [class?_eq_constant_iff, assignable_table hnodup, table, usable_before hnodup]
  constructor
  · rintro ⟨hconstant | ⟨declared, hmem, hname, -⟩, hfree⟩
    · exact hconstant
    · exact absurd ⟨declared, hmem, hname⟩ hfree
  · intro hconstant
    exact ⟨.inl hconstant, fun hvar => not_hasConstant hnodup hvar hconstant⟩

theorem class?_table_eq_initialized_iff :
    block.table.class? name = some .initialized ↔ ∃ declared ∈ block.vars, declared.name = name ∧
      (declared.initial.isSome ∨ ∃ value, .assign name value ∈ block.statements) := by
  rw [class?_eq_initialized_iff, assignable_table hnodup, table, usable_before hnodup]
  constructor
  · rintro ⟨hconstant | hvar, hdeclared⟩
    · exact absurd hconstant (not_hasConstant hnodup hdeclared)
    · exact hvar
  · rintro ⟨declared, hmem, hname, hvalue⟩
    exact ⟨.inr ⟨declared, hmem, hname, hvalue⟩, declared, hmem, hname⟩

theorem bare_of_class?_table (h : block.table.class? name = some .uninitialized) :
    ⟨name, none⟩ ∈ block.vars ∧ ∀ value, .assign name value ∉ block.statements := by
  rw [class?_eq_uninitialized_iff, assignable_table hnodup, table, usable_before hnodup] at h
  obtain ⟨⟨⟨_, initial⟩, hmem, rfl⟩, hunusable⟩ := h
  cases initial with
  | some value => exact absurd (.inr ⟨_, hmem, rfl, .inl rfl⟩) hunusable
  | none => exact ⟨hmem, fun value hvalue => hunusable (.inr ⟨_, hmem, rfl, .inr ⟨value, hvalue⟩⟩)⟩

end Classes

end Block

theorem eq_map_of_mapM {results : List Scanned} {found : List Token} (h : results.mapM id = .ok found) :
    results = found.map .ok := by
  induction results generalizing found with
  | nil =>
      cases h
      rfl
  | cons result others ih =>
      rw [List.mapM_cons] at h
      obtain ⟨token, htoken, h⟩ := bind_eq_ok_iff.mp h
      obtain ⟨rest, hrest, h⟩ := bind_eq_ok_iff.mp h
      obtain rfl := Except.ok.inj h
      rw [List.map_cons, ← ih hrest]
      exact congrArg (· :: others) htoken

/-- The end of input stands behind the tokens of a text, and nowhere else. -/
theorem tokenize_eq_ok {text : Bytes} {tokens : List Token} (h : tokenize text = .ok tokens) :
    tokens = sentence tokens ++ [⟨.endOfInput, finish tokens⟩] := by
  obtain ⟨found, hfound, rfl⟩ := map_eq_ok_iff.mp h
  have hresults := eq_map_of_mapM hfound
  have hcut := cut_scanFrom Position.start (glyphs text)
  have hplain : ∀ token ∈ found, (token.kind != .endOfInput) = true := by
    intro token htoken
    rw [bne_iff_ne]
    intro hkind
    refine hcut.ne_endOfInput (.ok token) ?_ (congrArg Except.ok hkind)
    change _ ∈ (scan text).results
    rw [hresults]
    exact List.mem_map_of_mem htoken
  have hnone : found.find? (fun token => token.kind == .endOfInput) = none := by
    rw [List.find?_eq_none]
    intro token htoken
    have hkind := hplain token htoken
    simpa using hkind
  rw [sentence, List.takeWhile_append_of_pos hplain, finish, List.find?_append, hnone]
  simp [Scan.last]

/-! ### Where analysis stops -/

theorem exists_behind_sentence (tokens : List Token) : ∃ behind, tokens = sentence tokens ++ behind :=
  ⟨_, List.takeWhile_append_dropWhile.symm⟩

theorem analyze_halted {tokens : List Token} {fault : Fault}
    (h : (analyze tokens).result = .error fault) : ∃ before rest, sentence tokens = before ++ rest ∧
      Halted (finish tokens) before rest ⟨fault, (analyze tokens).table⟩ := by
  rw [analyze] at h ⊢
  cases hblock : block (finish tokens) (sentence tokens) with
  | ok parsed =>
      rw [hblock] at h
      cases h
  | error rejection =>
      rw [hblock] at h
      cases h
      exact block_halted hblock

theorem Misnamed.category {table : SymbolTable} {cut : List TokenKind} {name : String} {cause : Cause}
    (h : Misnamed table cut name cause) : cause.kind.category = .semantic := by
  cases h with
  | redeclared | constantTarget | undefinedTarget => rfl
  | reference hlead hcut hrow hcause =>
      cases hcause with
      | undefined | uninitialized => rfl

/-- A fault of syntax in a text is reported at the first token that no block goes on with: the tokens
before it are the start of a block, but not so with this one, and at the end of input they are no whole
block. -/
theorem syntactic_fault_place {text : Bytes} {tokens : List Token} {fault : Fault}
    (htokens : tokenize text = .ok tokens) (h : (analyze tokens).result = .error fault)
    (hcategory : fault.category = .syntactic) :
    ∃ before token after, tokens = before ++ token :: after ∧ fault.position = token.position ∧
      (∃ more tree, BlockPhrase (kinds before ++ more) tree) ∧
      (token.kind ≠ .endOfInput → ¬∃ more tree, BlockPhrase (kinds (before ++ [token]) ++ more) tree) ∧
      (token.kind = .endOfInput → ¬∃ tree, BlockPhrase (kinds before) tree) := by
  obtain ⟨before, rest, hsentence, hhalted⟩ := analyze_halted h
  have hplain : ∀ token ∈ sentence tokens, token.kind ≠ .endOfInput := by
    intro token htoken
    simpa using List.mem_takeWhile_imp htoken
  have hwhole := tokenize_eq_ok htokens
  rw [hsentence] at hwhole hplain
  generalize (analyze tokens).table = table at hhalted
  cases hhalted with
  | misnamed hbefore hopening hcut hallowed hname hviable =>
      rw [Fault.category, Fault.kind, hname.category] at hcategory
      cases hcategory
  | refused hcause hviable hrefuses hdone hallowed =>
      cases rest with
      | nil =>
          rw [List.append_nil] at hwhole
          refine ⟨before, _, [], hwhole, rfl, hviable, fun hkind => absurd rfl hkind, fun _ => ?_⟩
          rintro ⟨tree, hphrase⟩
          exact hrefuses [] rfl ⟨_, [], rfl, ⟨tree, by simpa using hphrase⟩, rfl⟩
      | cons token others =>
          rw [List.append_assoc, List.cons_append] at hwhole
          have hkind := hplain token (by simp)
          refine ⟨before, token, _, hwhole, rfl, hviable, fun _ => ?_, fun hend => absurd hend hkind⟩
          rintro ⟨more, tree, hphrase⟩
          refine hrefuses (token.kind :: more) rfl ⟨_, [], (List.append_nil _).symm, ⟨tree, ?_⟩, rfl⟩
          simpa using hphrase

/-- A declaration that lacks its equals sign. -/
def gappedText : Bytes := encodeChars "begin var a 5; end".toList

def gappedTokens : List Token :=
  [⟨.beginWord, ⟨0, 1, 1⟩⟩, ⟨.varWord, ⟨6, 1, 7⟩⟩, ⟨.identifier "a", ⟨10, 1, 11⟩⟩,
    ⟨.integer 5, ⟨12, 1, 13⟩⟩, ⟨.semicolon, ⟨13, 1, 14⟩⟩, ⟨.endWord, ⟨15, 1, 16⟩⟩,
    ⟨.endOfInput, ⟨18, 1, 19⟩⟩]

def gappedFault : Fault := ⟨.unexpected .afterDeclaration (.integer 5), ⟨12, 1, 13⟩⟩

theorem syntactic_fault_place_gapped : tokenize gappedText = .ok gappedTokens ∧
    (analyze gappedTokens).result = .error gappedFault ∧ gappedFault.category = .syntactic ∧
    ∃ before token after, gappedTokens = before ++ token :: after ∧
      gappedFault.position = token.position ∧
      (∃ more tree, BlockPhrase (kinds before ++ more) tree) ∧
      (token.kind ≠ .endOfInput → ¬∃ more tree, BlockPhrase (kinds (before ++ [token]) ++ more) tree) ∧
      (token.kind = .endOfInput → ¬∃ tree, BlockPhrase (kinds before) tree) := by
  have htokens : tokenize gappedText = .ok gappedTokens := by cbv
  have hresult : (analyze gappedTokens).result = .error gappedFault := by cbv
  exact ⟨htokens, hresult, rfl, syntactic_fault_place htokens hresult rfl⟩

/-- The name stands in an expression of the item that `cut` starts. -/
def InExpression (cut : List TokenKind) (name : String) : Prop :=
  ∃ lead row more tree, Lead lead ∧ cut = lead ++ row ∧
    Phrase .expression (row ++ .identifier name :: more) tree

/-- A fault of naming is reported at a name that goes on with what stands before it: whole items and the
start of one more. The name is that of a declaration and declared by one of the items, that of an
assignment and declared as a constant or not at all, or it is used in an expression and either not
declared, or declared without a value and not assigned to. -/
theorem semantic_fault_place {tokens : List Token} {fault : Fault}
    (h : (analyze tokens).result = .error fault) (hcategory : fault.category = .semantic) :
    ∃ before name after row cut done, tokens = before ++ ⟨.identifier name, fault.position⟩ :: after ∧
      kinds before = row ++ cut ∧ Opening row done ∧ Unfinished cut ∧
      (∃ more tree, BlockPhrase (kinds before ++ .identifier name :: more) tree) ∧
      (fault.kind = .redeclaration →
        (cut = [.constWord] ∨ cut = [.varWord]) ∧ name ∈ done.names) ∧
      (fault.kind = .assignToConstant → cut = [] ∧ done.HasConstant name) ∧
      (fault.kind = .assignToUndefined → cut = [] ∧ name ∉ done.names) ∧
      (fault.kind = .undefinedReference → InExpression cut name ∧ name ∉ done.names) ∧
      (fault.kind = .uninitializedReference → InExpression cut name ∧ ⟨name, none⟩ ∈ done.vars ∧
        ∀ value, .assign name value ∉ done.statements) := by
  obtain ⟨before, rest, hsentence, hhalted⟩ := analyze_halted h
  generalize (analyze tokens).table = table at hhalted
  cases hhalted with
  | refused hcause hviable hrefuses hdone hallowed =>
      rw [Fault.category, Fault.kind, blame, hcause] at hcategory
      cases hcategory
  | @misnamed name position more cause row cut done hbefore hopening hcut hallowed hname hviable =>
      obtain ⟨behind, htokens⟩ := exists_behind_sentence tokens
      rw [hsentence, List.append_assoc, List.cons_append] at htokens
      obtain ⟨others, tree, hphrase⟩ := hviable
      rw [List.append_assoc, List.singleton_append] at hphrase
      have hnodup := hallowed.nodup
      refine ⟨before, name, _, row, cut, done, htokens, hbefore, hopening, hcut,
        ⟨others, tree, hphrase⟩, ?_⟩
      cases hname with
      | redeclared hword hclass =>
          refine ⟨fun _ => ⟨hword, ?_⟩, nofun, nofun, nofun, nofun⟩
          rw [← Block.names_table]
          exact mem_names_of_class? hclass
      | constantTarget hempty hclass =>
          exact ⟨nofun, fun _ => ⟨hempty, (Block.class?_table_eq_constant_iff hnodup).mp hclass⟩, nofun,
            nofun, nofun⟩
      | undefinedTarget hempty hclass =>
          exact ⟨nofun, nofun, fun _ => ⟨hempty, Block.class?_table_eq_none_iff.mp hclass⟩, nofun, nofun⟩
      | @reference lead expression _ hlead hsplit hexpression hcause =>
          have hplace : InExpression cut name := by
            obtain ⟨behind, value, hvalue⟩ := hexpression
            rw [List.append_assoc, List.singleton_append] at hvalue
            exact ⟨lead, expression, behind, value, hlead, hsplit, hvalue⟩
          cases hcause with
          | undefined hclass =>
              exact ⟨nofun, nofun, nofun, fun _ => ⟨hplace, Block.class?_table_eq_none_iff.mp hclass⟩,
                nofun⟩
          | uninitialized hclass =>
              exact ⟨nofun, nofun, nofun, nofun,
                fun _ => ⟨hplace, Block.bare_of_class?_table hnodup hclass⟩⟩

/-- A variable is used behind its declaration and an assignment to another one. -/
def unsetTokens : List Token :=
  [.beginWord, .varWord, .identifier "a", .semicolon, .varWord, .identifier "b", .semicolon,
    .identifier "b", .equals, .integer 1, .semicolon, .printWord, .openParen, .identifier "b", .plus,
    .identifier "a"].mapIdx fun index kind => ⟨kind, ⟨index, 1, index + 1⟩⟩

def unsetFault : Fault := ⟨.uninitializedReference "a", ⟨15, 1, 16⟩⟩

theorem semantic_fault_place_unset : (analyze unsetTokens).result = .error unsetFault ∧
    unsetFault.category = .semantic ∧
    ∃ before name after row cut done,
      unsetTokens = before ++ ⟨.identifier name, unsetFault.position⟩ :: after ∧
      kinds before = row ++ cut ∧ Opening row done ∧ Unfinished cut ∧ InExpression cut name ∧
      ⟨name, none⟩ ∈ done.vars ∧ ∀ value, .assign name value ∉ done.statements := by
  have hresult : (analyze unsetTokens).result = .error unsetFault := by cbv
  obtain ⟨before, name, after, row, cut, done, htokens, hbefore, hopening, hcut, -, -, -, -, -, hunset⟩ :=
    semantic_fault_place hresult rfl
  exact ⟨hresult, rfl, before, name, after, row, cut, done, htokens, hbefore, hopening, hcut, hunset rfl⟩

end PlZero.Source

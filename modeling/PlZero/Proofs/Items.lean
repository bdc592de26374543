import PlZero.Proofs.Reading

/-! What the reader makes of the items of a block. A constant, a variable or a statement is read exactly
when it is one by the grammar and the names declared so far allow it. -/

namespace PlZero.Source

open PlZero.Attempt

/-- The reader takes exactly the items of a grammar that the names declared so far allow, and adds to
the names what the item declares. Every item starts with a kind that `starts` knows. -/
structure ItemSpec {α : Type} (starts : TokenKind → Bool) (reader : ItemReader α)
    (phrase : List TokenKind → α → Prop) (allows : SymbolTable → α → Prop)
    (after : SymbolTable → α → SymbolTable) : Prop where
  head : ∀ {row : List TokenKind} {item : α}, phrase row item →
    ∃ kind rest, row = kind :: rest ∧ starts kind = true
  sound : ∀ {table declared : SymbolTable} {token : Token} {others rest : List Token} {item : α},
    starts token.kind = true →
    (reader table (token :: others)).map Parsed.view = .ok ((item, declared), rest) →
      ∃ used, token :: others = used ++ rest ∧ phrase (kinds used) item ∧ allows table item ∧
        declared = after table item
  complete : ∀ {table : SymbolTable} {used : List Token} (rest : List Token) {item : α},
    phrase (kinds used) item → allows table item →
      (reader table (used ++ rest)).map Parsed.view = .ok ((item, after table item), rest)

theorem rejecting_eq_ok_iff {α : Type} {table : SymbolTable} {attempt : Except Fault α} {value : α} :
    rejecting table attempt = .ok value ↔ attempt = .ok value := by
  cases attempt with
  | error fault => simp [rejecting]
  | ok found => simp [rejecting]

variable {finish : Position}

theorem declaredName_eq_ok {tokens rest : List Token} {name : String} {position : Position}
    {shorter : rest.length < tokens.length}
    (h : declaredName finish tokens = .ok ⟨(name, position), rest, shorter⟩) :
    tokens = ⟨.identifier name, position⟩ :: rest := by
  rcases tokens with _ | ⟨⟨kind, place⟩, others⟩
  · cases h
  · cases kind <;> cases h
    rfl

theorem constantValue_eq_ok {name : String} {tokens rest : List Token} {value : Int32}
    {shorter : rest.length < tokens.length}
    (h : constantValue finish name tokens = .ok ⟨value, rest, shorter⟩) :
    (∃ position, tokens = ⟨.integer value, position⟩ :: rest) ∨
    (∃ sign plain first second, tokens = ⟨Sign.mark sign, first⟩ :: ⟨.integer plain, second⟩ :: rest ∧
      value = sign.apply plain) := by
  unfold constantValue at h
  split at h
  · cases h
    exact Or.inl ⟨_, rfl⟩
  · cases h
    exact Or.inr ⟨.plus, _, _, _, rfl, rfl⟩
  · cases h
    exact Or.inr ⟨.minus, _, _, _, rfl, rfl⟩
  · cases h
  · cases h
  · cases h

theorem expect_eq_ok {place : Place} {tokens rest : List Token} {nothing : Unit}
    {shorter : rest.length < tokens.length}
    (h : expect finish place tokens = .ok ⟨nothing, rest, shorter⟩) :
    ∃ position, tokens = ⟨place.wanted, position⟩ :: rest := by
  obtain ⟨⟨_, position⟩, htokens, rfl⟩ := expect_eq_ok_iff.mp (map_eq_ok_iff.mpr ⟨_, h, rfl⟩)
  exact ⟨position, htokens⟩

theorem declareName_eq_ok_iff {table declared : SymbolTable} {name : String} {position : Position}
    {cls : SymbolClass} : declareName table name position cls = .ok declared ↔
      table.class? name = none ∧ declared = table.add name cls := by
  unfold declareName
  cases table.class? name with
  | some earlier => simp
  | none => simp [SymbolTable.add, eq_comm]

theorem declareName_of_new {table : SymbolTable} {name : String} (hnew : table.class? name = none)
    (position : Position) (cls : SymbolClass) :
    declareName table name position cls = .ok (table.add name cls) :=
  declareName_eq_ok_iff.mpr ⟨hnew, rfl⟩

theorem constant_spec (finish : Position) :
    ItemSpec (· == .constWord) (constant finish) ConstantPhrase SymbolTable.AllowsConstant
      SymbolTable.afterConstant where
  head := by
    intro row item h
    cases h <;> exact ⟨_, _, rfl, rfl⟩
  sound := by
    intro table declared token others rest item hstart h
    obtain ⟨parsed, h, hview⟩ := map_eq_ok_iff.mp h
    obtain ⟨⟨⟨name, position⟩, rest₁, _⟩, hname, h⟩ := bind_eq_ok_iff.mp h
    obtain ⟨⟨_, rest₂, _⟩, hequals, h⟩ := bind_eq_ok_iff.mp h
    obtain ⟨⟨value, rest₃, _⟩, hvalue, h⟩ := bind_eq_ok_iff.mp h
    obtain ⟨table', hdeclare, h⟩ := bind_eq_ok_iff.mp h
    obtain ⟨⟨_, rest₄, _⟩, hsemicolon, h⟩ := bind_eq_ok_iff.mp h
    cases h
    cases hview
    have hident := declaredName_eq_ok (rejecting_eq_ok_iff.mp hname)
    obtain ⟨_, rfl⟩ := expect_eq_ok (rejecting_eq_ok_iff.mp hequals)
    obtain ⟨_, rfl⟩ := expect_eq_ok (rejecting_eq_ok_iff.mp hsemicolon)
    obtain ⟨hnew, rfl⟩ := declareName_eq_ok_iff.mp hdeclare
    obtain ⟨kind, start⟩ := token
    obtain rfl : kind = .constWord := by simpa using hstart
    change others = _ at hident
    subst hident
    rcases constantValue_eq_ok (rejecting_eq_ok_iff.mp hvalue) with
      ⟨digits, rfl⟩ | ⟨sign, plain, mark, digits, rfl, rfl⟩
    · exact ⟨[_, _, _, _, _], rfl, .unsigned name value, hnew, rfl⟩
    · exact ⟨[_, _, _, _, _, _], rfl, .signed name sign plain, hnew, rfl⟩
  complete := by
    intro table used rest item h hallows
    generalize hrow : kinds used = row at h
    cases h with
    | unsigned name value =>
        simp only [kinds_eq_cons_iff, kinds_eq_nil_iff] at hrow
        obtain ⟨_, _, rfl, _, _, rfl, _, _, rfl, _, _, rfl, _, _, rfl, rfl⟩ := hrow
        have hdeclare := declareName_of_new hallows
        simp [constant, declaredName, expect, constantValue, hdeclare, rejecting, Place.wanted,
          Except.map, Parsed.view, SymbolTable.afterConstant]
    | signed name sign value =>
        simp only [kinds_eq_cons_iff, kinds_eq_nil_iff] at hrow
        obtain ⟨_, _, rfl, _, _, rfl, _, _, rfl, _, _, rfl, _, _, rfl, _, _, rfl, rfl⟩ := hrow
        have hdeclare := declareName_of_new hallows
        cases sign <;>
          simp [constant, declaredName, expect, constantValue, hdeclare, rejecting, Place.wanted,
            Except.map, Parsed.view, SymbolTable.afterConstant, Sign.mark]

theorem expression_sound {table : SymbolTable} {tokens rest : List Token} {tree : Expression}
    {shorter : rest.length < tokens.length}
    (h : expression finish table tokens = .ok ⟨tree, rest, shorter⟩) :
    ∃ used, tokens = used ++ rest ∧ Phrase .expression (kinds used) tree ∧ table.Covers tree :=
  soundAt_level .expression tokens tree rest (view_eq_ok_iff.mpr ⟨shorter, h⟩)

/-- An expression is read up to the semicolon or the closing parenthesis behind it. -/
theorem expression_complete (finish : Position) {table : SymbolTable} {used : List Token}
    {tree : Expression} (h : Phrase .expression (kinds used) tree) (hcovers : table.Covers tree)
    {kind : TokenKind} (hkind : kind = .semicolon ∨ kind = .closeParen) (position : Position)
    (rest : List Token) : ∃ shorter, expression finish table (used ++ ⟨kind, position⟩ :: rest) =
      .ok ⟨tree, ⟨kind, position⟩ :: rest, shorter⟩ := by
  have hends : ∀ rank, Ends rank (⟨kind, position⟩ :: rest) := by
    intro rank
    rw [ends_cons]
    rcases hkind with rfl | rfl <;> cases rank <;> rfl
  exact view_eq_ok_iff.mp (h.read_expression hcovers rfl hends)

theorem variable_spec (finish : Position) :
    ItemSpec (· == .varWord) (variableDeclaration finish) VariablePhrase SymbolTable.AllowsVariable
      SymbolTable.afterVariable where
  head := by
    intro row item h
    cases h <;> exact ⟨_, _, rfl, rfl⟩
  sound := by
    intro table declared token others rest item hstart h
    obtain ⟨kind, start⟩ := token
    obtain rfl : kind = .varWord := by simpa using hstart
    obtain ⟨parsed, h, hview⟩ := map_eq_ok_iff.mp h
    obtain ⟨⟨⟨name, position⟩, rest₁, _⟩, hname, h⟩ := bind_eq_ok_iff.mp h
    have hident := declaredName_eq_ok (rejecting_eq_ok_iff.mp hname)
    change others = _ at hident
    subst hident
    dsimp only at h
    split at h
    · rename_i rest₂ _ hequals
      obtain ⟨⟨value, rest₃, _⟩, hvalue, h⟩ := bind_eq_ok_iff.mp h
      obtain ⟨table', hdeclare, h⟩ := bind_eq_ok_iff.mp h
      obtain ⟨⟨_, rest₄, _⟩, hsemicolon, h⟩ := bind_eq_ok_iff.mp h
      cases h
      cases hview
      obtain ⟨second, rfl⟩ := expect_eq_ok hequals
      obtain ⟨third, rfl⟩ := expect_eq_ok (rejecting_eq_ok_iff.mp hsemicolon)
      obtain ⟨hnew, rfl⟩ := declareName_eq_ok_iff.mp hdeclare
      obtain ⟨used, rfl, hphrase, hcovers⟩ := expression_sound (rejecting_eq_ok_iff.mp hvalue)
      refine ⟨⟨.varWord, start⟩ :: ⟨.identifier name, position⟩ :: ⟨.equals, second⟩ ::
        (used ++ [⟨.semicolon, third⟩]), by simp [Place.wanted], ?_, ⟨hnew, ?_⟩, rfl⟩
      · simp only [kinds_cons, kinds_append, kinds_nil]
        exact .initialized name hphrase
      · rintro _ ⟨⟩
        exact hcovers
    · obtain ⟨table', hdeclare, h⟩ := bind_eq_ok_iff.mp h
      obtain ⟨⟨_, rest₂, _⟩, hsemicolon, h⟩ := bind_eq_ok_iff.mp h
      cases h
      cases hview
      obtain ⟨_, rfl⟩ := expect_eq_ok (rejecting_eq_ok_iff.mp hsemicolon)
      obtain ⟨hnew, rfl⟩ := declareName_eq_ok_iff.mp hdeclare
      exact ⟨[_, _, _], rfl, .bare name, ⟨hnew, nofun⟩, rfl⟩
  complete := by
    intro table used rest item h hallows
    generalize hrow : kinds used = row at h
    cases h with
    | bare name =>
        simp only [kinds_eq_cons_iff, kinds_eq_nil_iff] at hrow
        obtain ⟨_, _, rfl, _, _, rfl, _, _, rfl, rfl⟩ := hrow
        have hdeclare := declareName_of_new hallows.1
        simp [variableDeclaration, declaredName, expect, hdeclare, rejecting, Place.wanted,
          Except.map, Parsed.view, SymbolTable.afterVariable, SymbolTable.classOf]
    | initialized name value =>
        simp only [kinds_eq_cons_iff, kinds_eq_append_iff, kinds_eq_nil_iff] at hrow
        obtain ⟨_, _, rfl, _, _, rfl, _, _, rfl, body, _, rfl, rfl, last, _, rfl, rfl⟩ := hrow
        have hdeclare := declareName_of_new hallows.1
        obtain ⟨_, hread⟩ := expression_complete finish value (hallows.2 _ rfl) (Or.inl rfl) last rest
        simp [variableDeclaration, declaredName, expect, hdeclare, rejecting, Place.wanted, hread,
          Except.map, Parsed.view, SymbolTable.afterVariable, SymbolTable.classOf]

theorem assignment_sound {table declared : SymbolTable} {target : String} {position : Position}
    {tokens rest : List Token} {item : Statement} {shorter : rest.length < tokens.length}
    (h : assignment finish table target position tokens = .ok ⟨(item, declared), rest, shorter⟩) :
    ∃ used, tokens = used ++ rest ∧ StatementPhrase (.identifier target :: kinds used) item ∧
      table.AllowsStatement item ∧ declared = table.afterStatement item := by
  unfold assignment at h
  split at h
  · cases h
  · cases h
  · rename_i cls hcls hclass
    obtain ⟨⟨_, rest₁, _⟩, hequals, h⟩ := bind_eq_ok_iff.mp h
    obtain ⟨⟨value, rest₂, _⟩, hvalue, h⟩ := bind_eq_ok_iff.mp h
    obtain ⟨⟨_, rest₃, _⟩, hsemicolon, h⟩ := bind_eq_ok_iff.mp h
    cases h
    obtain ⟨first, rfl⟩ := expect_eq_ok (rejecting_eq_ok_iff.mp hequals)
    obtain ⟨last, rfl⟩ := expect_eq_ok (rejecting_eq_ok_iff.mp hsemicolon)
    obtain ⟨used, rfl, hphrase, hcovers⟩ := expression_sound (rejecting_eq_ok_iff.mp hvalue)
    refine ⟨⟨.equals, first⟩ :: (used ++ [⟨.semicolon, last⟩]), by simp [Place.wanted], ?_,
      ⟨⟨cls, hclass, hcls⟩, hcovers⟩, rfl⟩
    simp only [kinds_cons, kinds_append, kinds_nil]
    exact .assign target hphrase

theorem assignment_complete (finish : Position) {table : SymbolTable} {target : String}
    (position : Position) {used : List Token} (rest : List Token) {item : Statement}
    (h : StatementPhrase (.identifier target :: kinds used) item)
    (hallows : table.AllowsStatement item) :
    (assignment finish table target position (used ++ rest)).map Parsed.view =
      .ok ((item, table.afterStatement item), rest) := by
  generalize hrow : kinds used = row at h
  cases h with
  | assign _ value =>
      simp only [kinds_eq_cons_iff, kinds_eq_append_iff, kinds_eq_nil_iff] at hrow
      obtain ⟨_, _, rfl, body, _, rfl, rfl, last, _, rfl, rfl⟩ := hrow
      obtain ⟨⟨cls, hclass, hcls⟩, hcovers⟩ := hallows
      obtain ⟨_, hread⟩ := expression_complete finish value hcovers (Or.inl rfl) last rest
      cases cls with
      | constant => exact absurd rfl hcls
      | _ =>
          simp [assignment, hclass, expect, rejecting, Place.wanted, hread, Except.map, Parsed.view,
            SymbolTable.afterStatement]

theorem printing_sound {table declared : SymbolTable} {tokens rest : List Token} {item : Statement}
    {shorter : rest.length < tokens.length}
    (h : printing finish table tokens = .ok ⟨(item, declared), rest, shorter⟩) :
    ∃ used, tokens = used ++ rest ∧ StatementPhrase (.printWord :: kinds used) item ∧
      table.AllowsStatement item ∧ declared = table.afterStatement item := by
  obtain ⟨⟨_, rest₁, _⟩, hopen, h⟩ := bind_eq_ok_iff.mp h
  obtain ⟨⟨value, rest₂, _⟩, hvalue, h⟩ := bind_eq_ok_iff.mp h
  obtain ⟨⟨_, rest₃, _⟩, hclose, h⟩ := bind_eq_ok_iff.mp h
  obtain ⟨⟨_, rest₄, _⟩, hsemicolon, h⟩ := bind_eq_ok_iff.mp h
  cases h
  obtain ⟨first, rfl⟩ := expect_eq_ok (rejecting_eq_ok_iff.mp hopen)
  obtain ⟨last, rfl⟩ := expect_eq_ok (rejecting_eq_ok_iff.mp hsemicolon)
  obtain ⟨close, rfl⟩ := expect_eq_ok (rejecting_eq_ok_iff.mp hclose)
  obtain ⟨used, rfl, hphrase, hcovers⟩ := expression_sound (rejecting_eq_ok_iff.mp hvalue)
  refine ⟨⟨.openParen, first⟩ :: (used ++ [⟨.closeParen, close⟩, ⟨.semicolon, last⟩]),
    by simp [Place.wanted], ?_, hcovers, rfl⟩
  simp only [kinds_cons, kinds_append, kinds_nil]
  exact .print hphrase

theorem printing_complete (finish : Position) {table : SymbolTable} {used : List Token}
    (rest : List Token) {item : Statement} (h : StatementPhrase (.printWord :: kinds used) item)
    (hallows : table.AllowsStatement item) :
    (printing finish table (used ++ rest)).map Parsed.view =
      .ok ((item, table.afterStatement item), rest) := by
  generalize hrow : kinds used = row at h
  cases h with
  | print value =>
      simp only [kinds_eq_cons_iff, kinds_eq_append_iff, kinds_eq_nil_iff] at hrow
      obtain ⟨_, _, rfl, body, _, rfl, rfl, close, _, rfl, last, _, rfl, rfl⟩ := hrow
      obtain ⟨_, hread⟩ :=
        expression_complete finish value hallows (Or.inr rfl) close (⟨.semicolon, last⟩ :: rest)
      simp [printing, expect, rejecting, Place.wanted, hread, Except.map, Parsed.view,
        SymbolTable.afterStatement]

theorem statement_spec (finish : Position) :
    ItemSpec (· != .endWord) (statement finish) StatementPhrase SymbolTable.AllowsStatement
      SymbolTable.afterStatement where
  head := by
    intro row item h
    cases h <;> exact ⟨_, _, rfl, rfl⟩
  sound := by
    intro table declared token others rest item _ h
    obtain ⟨kind, start⟩ := token
    obtain ⟨parsed, h, hview⟩ := map_eq_ok_iff.mp h
    cases kind with
    | identifier target =>
        obtain ⟨⟨⟨_, _⟩, _, _⟩, hassign, h⟩ := bind_eq_ok_iff.mp h
        cases h
        cases hview
        obtain ⟨used, rfl, hphrase, hallows, rfl⟩ := assignment_sound hassign
        exact ⟨_ :: used, rfl, hphrase, hallows, rfl⟩
    | printWord =>
        obtain ⟨⟨⟨_, _⟩, _, _⟩, hprint, h⟩ := bind_eq_ok_iff.mp h
        cases h
        cases hview
        obtain ⟨used, rfl, hphrase, hallows, rfl⟩ := printing_sound hprint
        exact ⟨_ :: used, rfl, hphrase, hallows, rfl⟩
    | semicolon =>
        cases h
        cases hview
        exact ⟨[_], rfl, .empty, trivial, rfl⟩
    | _ => cases h
  complete := by
    intro table used rest item h hallows
    generalize hrow : kinds used = row at h
    cases h with
    | assign target value =>
        obtain ⟨position, others, rfl, hothers⟩ := kinds_eq_cons_iff.mp hrow
        obtain ⟨_, hassign⟩ := view_eq_ok_iff.mp (assignment_complete finish position rest
          (hothers ▸ StatementPhrase.assign target value) hallows)
        simp [statement, hassign, Except.map, Parsed.view]
    | print value =>
        obtain ⟨position, others, rfl, hothers⟩ := kinds_eq_cons_iff.mp hrow
        obtain ⟨_, hprint⟩ := view_eq_ok_iff.mp
          (printing_complete finish rest (hothers ▸ StatementPhrase.print value) hallows)
        simp [statement, hprint, Except.map, Parsed.view]
    | empty =>
        obtain ⟨position, others, rfl, hothers⟩ := kinds_eq_cons_iff.mp hrow
        rw [kinds_eq_nil_iff.mp hothers]
        rfl

end PlZero.Source

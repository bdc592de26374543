import PlZero.Proofs.Misreading

/-! Where the reading of an item goes wrong. It stops before the first token that no item goes on with,
or at a name that may not stand where it does. What it has declared by then is nothing, or the name of a
declaration that lacks its semicolon only. -/

namespace PlZero.Source

open PlZero.Attempt Shape SymbolTable

/-- Why a name may not stand behind `cut` in an item. -/
inductive Misnamed (table : SymbolTable) (cut : List TokenKind) (name : String) : Cause → Prop where
  | redeclared {earlier : SymbolClass} (hcut : cut = [.constWord] ∨ cut = [.varWord])
      (hclass : table.class? name = some earlier) :
      Misnamed table cut name (.redeclaration name earlier)
  | constantTarget (hcut : cut = []) (hclass : table.class? name = some .constant) :
      Misnamed table cut name (.assignToConstant name)
  | undefinedTarget (hcut : cut = []) (hclass : table.class? name = none) :
      Misnamed table cut name (.assignToUndefined name)
  | reference {lead row : List TokenKind} {cause : Cause} (hlead : Lead lead) (hcut : cut = lead ++ row)
      (hrow : Level.expression.shape.Viable (row ++ [.identifier name]))
      (hcause : table.Forbids name cause) : Misnamed table cut name cause

/-- The row is an item but for its semicolon. -/
def Unclosed {α : Type} (phrase : List TokenKind → α → Prop) (row : List TokenKind) (item : α) : Prop :=
  phrase (row ++ [.semicolon]) item

section Spoiled

variable {α : Type}

/-- The reading of an item stopped behind `cut`. Of the rows that `pending` knows the name is declared
already. -/
inductive Spoiled (finish : Position) (table : SymbolTable) (phrase pending : List TokenKind → α → Prop)
    (allows : SymbolTable → α → Prop) (after : SymbolTable → α → SymbolTable) (cut : List Token) :
    List Token → Rejection → Prop where
  | refused {rest : List Token} {cause : TokenKind → Cause} (hcause : IsSyntactic cause)
      (hviable : (itemShape phrase).Viable (kinds cut))
      (hrefuses : (itemShape phrase).Refuses (kinds cut) (kinds rest).head?)
      (hpending : ∀ item, ¬pending (kinds cut) item) :
      Spoiled finish table phrase pending allows after cut rest ⟨blame finish rest cause, table⟩
  | declared {rest : List Token} {cause : TokenKind → Cause} {item : α} {declared : SymbolTable}
      (hcause : IsSyntactic cause) (hviable : (itemShape phrase).Viable (kinds cut))
      (hrefuses : (itemShape phrase).Refuses (kinds cut) (kinds rest).head?)
      (hpending : pending (kinds cut) item) (hallows : allows table item)
      (hdeclared : declared = after table item) :
      Spoiled finish table phrase pending allows after cut rest ⟨blame finish rest cause, declared⟩
  | misnamed {name : String} {position : Position} {more : List Token} {cause : Cause}
      (hname : Misnamed table (kinds cut) name cause)
      (hviable : (itemShape phrase).Viable (kinds cut ++ [.identifier name]))
      (hpending : ∀ item, ¬pending (kinds cut) item) :
      Spoiled finish table phrase pending allows after cut (⟨.identifier name, position⟩ :: more)
        ⟨⟨cause, position⟩, table⟩

/-- The reading of an item from the tokens stopped with the rejection. -/
def SpoiledFrom (finish : Position) (table : SymbolTable) (phrase pending : List TokenKind → α → Prop)
    (allows : SymbolTable → α → Prop) (after : SymbolTable → α → SymbolTable) (tokens : List Token)
    (rejection : Rejection) : Prop :=
  ∃ cut rest, tokens = cut ++ rest ∧
    Spoiled finish table phrase pending allows after cut rest rejection

end Spoiled

/-- An expression can go on with every operator. -/
theorem Phrase.exists_longer {row : List TokenKind} {tree : Expression}
    (h : Phrase .expression row tree) (operator : BinaryOperator) :
    ∃ longer, Phrase .expression (row ++ [operator.mark, .integer 0]) longer := by
  have hzero : Phrase .factor [.integer 0] (.literal 0) := .unsigned (.literal 0)
  by_cases hrank : operator.rank = .sum
  · exact ⟨_, .sum operator hrank h (.lone hzero)⟩
  · have hproduct : operator.rank = .product := by
      cases operator <;> first | rfl | exact absurd rfl hrank
    -- A product binds to the last term only.
    refine @Phrase.chain_induction .sum (fun row => ∃ longer,
      Phrase .expression (row ++ [operator.mark, .integer 0]) longer) ?_ ?_ row tree h
    · intro row tree hterm
      exact ⟨_, .single (.product operator hproduct hterm hzero)⟩
    · intro first left second right other hother hfirst _ hsecond
      rw [List.append_assoc, List.cons_append]
      exact ⟨_, .sum other hother hfirst (.product operator hproduct hsecond hzero)⟩

section Whole

variable {row : List TokenKind} {tree : Expression} (h : Phrase .expression row tree)
include h

/-- Nothing behind a whole expression is refused as a part of it. -/
theorem Phrase.not_refuses (next : Option TokenKind) : ¬Level.expression.shape.Refuses row next := by
  intro hrefuses
  by_cases hcloses : Level.expression.Closes next
  · cases next with
    | none => exact hrefuses [] rfl ⟨row, [], rfl, ⟨tree, h⟩, hcloses⟩
    | some kind => exact hrefuses [kind] rfl ⟨row, [kind], rfl, ⟨tree, h⟩, hcloses⟩
  · simp only [Level.Closes, not_forall] at hcloses
    obtain ⟨rank, -, kind, hkind, hoperator⟩ := hcloses
    obtain ⟨operator, hoperator⟩ := Option.ne_none_iff_exists'.mp hoperator
    obtain ⟨rfl, -⟩ := Rank.operator?_eq_some_iff.mp hoperator
    obtain rfl := Option.mem_def.mp hkind
    obtain ⟨longer, hlonger⟩ := h.exists_longer operator
    refine hrefuses [operator.mark, .integer 0] rfl
      ⟨_, [], (List.append_nil _).symm, ⟨longer, hlonger⟩, ?_⟩
    rintro _ _ _ ⟨⟩

/-- No name stands behind a whole expression as a part of it. -/
theorem Phrase.not_viable_name (name : String) :
    ¬Level.expression.shape.Viable (row ++ [.identifier name]) := by
  rintro ⟨more, longer, hlonger⟩
  have hname : Level.expression.Closes (.identifier name :: more).head? := by
    refine closes_some.mpr fun rank _ => ?_
    cases rank <;> rfl
  have hnothing : Level.expression.Closes ([] : List TokenKind).head? := fun _ _ _ hkind => nomatch hkind
  obtain ⟨-, hrest⟩ := h.split_unique hlonger hname hnothing (by simp)
  cases hrest

end Whole

/-- The row is a sign or nothing. -/
def OptionalSign (row : List TokenKind) : Prop :=
  row = [] ∨ ∃ sign, row = [Sign.mark sign]

theorem OptionalSign.integer_notMem {row : List TokenKind} (h : OptionalSign row) (value : Int32) :
    .integer value ∉ row := by
  rcases h with rfl | ⟨sign, rfl⟩
  · exact List.not_mem_nil
  · cases sign <;> exact nofun

/-- The digits are the first behind an optional sign. -/
theorem OptionalSign.split {first second rest others : List TokenKind} {value other : Int32}
    (hfirst : OptionalSign first) (hsecond : OptionalSign second)
    (h : first ++ .integer value :: rest = second ++ .integer other :: others) : rest = others := by
  rcases hfirst with rfl | ⟨sign, rfl⟩
  · rcases hsecond with rfl | ⟨mark, rfl⟩
    · exact (List.cons.inj h).2
    · cases mark <;> cases h
  · rcases hsecond with rfl | ⟨mark, rfl⟩
    · cases sign <;> cases h
    · exact (List.cons.inj (List.cons.inj h).2).2

section Steps

variable {finish : Position} {table : SymbolTable}

theorem rejecting_eq_error {α : Type} {attempt : Except Fault α} {rejection : Rejection}
    (h : rejecting table attempt = .error rejection) :
    ∃ fault, attempt = .error fault ∧ rejection = ⟨fault, table⟩ := by
  cases attempt with
  | ok value => cases h
  | error fault =>
      cases h
      exact ⟨fault, rfl, rfl⟩

theorem rejecting_expect_eq_error {place : Place} {tokens : List Token} {rejection : Rejection}
    (h : rejecting table (expect finish place tokens) = .error rejection) :
    rejection = ⟨blame finish tokens (.unexpected place), table⟩ ∧
      (kinds tokens).head? ≠ some place.wanted := by
  obtain ⟨fault, hexpect, rfl⟩ := rejecting_eq_error h
  obtain ⟨rfl, hnext⟩ := expect_eq_error hexpect
  exact ⟨rfl, hnext⟩

theorem declaredName_eq_error {tokens : List Token} {fault : Fault}
    (h : declaredName finish tokens = .error fault) :
    fault = blame finish tokens .identifierMissing ∧
      ∀ name, (kinds tokens).head? ≠ some (.identifier name) := by
  rcases tokens with _ | ⟨⟨kind, position⟩, others⟩
  · cases h
    exact ⟨rfl, nofun⟩
  · cases kind <;> cases h <;> exact ⟨rfl, nofun⟩

theorem declareName_eq_error {name : String} {position : Position} {cls : SymbolClass}
    {rejection : Rejection} (h : declareName table name position cls = .error rejection) :
    ∃ earlier, table.class? name = some earlier ∧
      rejection = ⟨⟨.redeclaration name earlier, position⟩, table⟩ := by
  rw [declareName] at h
  split at h
  · rename_i earlier hclass
    cases h
    exact ⟨earlier, hclass, rfl⟩
  · cases h

theorem constantValue_signed_eq_error {name : String} {token : Token} {rest : List Token} {sign : Sign}
    (htoken : token.kind = sign.mark) {fault : Fault}
    (h : constantValue finish name (token :: rest) = .error fault) :
    fault = blame finish rest (.constantValueMissing name) ∧
      ∀ value, (kinds rest).head? ≠ some (.integer value) := by
  obtain ⟨_, position⟩ := token
  obtain rfl := htoken
  rcases rest with _ | ⟨⟨kind, second⟩, more⟩
  · cases sign <;> cases h <;> exact ⟨rfl, nofun⟩
  · cases sign <;> cases kind <;> cases h <;> exact ⟨rfl, nofun⟩

/-- The digits of a constant are missing at once, or behind a sign. -/
theorem constantValue_eq_error {name : String} {tokens : List Token} {fault : Fault}
    (h : constantValue finish name tokens = .error fault) :
    ∃ signs rest, tokens = signs ++ rest ∧ fault = blame finish rest (.constantValueMissing name) ∧
      (∀ value, (kinds rest).head? ≠ some (.integer value)) ∧ OptionalSign (kinds signs) ∧
      (kinds signs = [] → ∀ sign, (kinds rest).head? ≠ some (Sign.mark sign)) := by
  rcases tokens with _ | ⟨token, others⟩
  · cases h
    exact ⟨[], [], rfl, rfl, nofun, .inl rfl, nofun⟩
  cases hsign : sign? token.kind with
  | some sign =>
      rw [sign?_eq_some_iff] at hsign
      obtain ⟨hfault, hnext⟩ := constantValue_signed_eq_error hsign h
      exact ⟨[token], others, rfl, hfault, hnext, .inr ⟨sign, congrArg (fun kind => [kind]) hsign⟩, nofun⟩
  | none =>
      have hmark (sign : Sign) : some token.kind ≠ some sign.mark := by
        rintro hkind
        rw [Option.some.inj hkind] at hsign
        cases sign <;> cases hsign
      obtain ⟨kind, position⟩ := token
      cases kind with
      | integer | plus | minus => first | cases h | cases hsign
      | _ =>
          cases h
          exact ⟨[], _, rfl, rfl, nofun, .inl rfl, fun _ => hmark⟩

end Steps

section Expressions

variable {α : Type} {phrase pending : List TokenKind → α → Prop} {allows : SymbolTable → α → Prop}
  {after : SymbolTable → α → SymbolTable} {finish : Position} {table : SymbolTable}

/-- An item whose expression is misread is spoiled there. -/
theorem spoiledFrom_expression {used tokens : List Token} {fault : Fault} {kind : TokenKind}
    (h : expression finish table tokens = .error fault)
    (hkind : kind = .semicolon ∨ kind = .closeParen) (hlead : Lead (kinds used))
    (hwithin : Within (expressionBefore kind) (itemShape phrase) (kinds used) (kinds tokens).head?)
    (hpending : ∀ row item, pending (kinds used ++ row) item → ∃ tree, Phrase .expression row tree) :
    SpoiledFrom finish table phrase pending allows after (used ++ tokens) ⟨fault, table⟩ := by
  obtain ⟨cut, rest, rfl, hmisread⟩ :=
    misreads_level .expression tokens fault (map_eq_error_iff.mpr h)
  have hbefore : Within Level.expression.shape (expressionBefore kind) []
      (kinds cut ++ kinds rest).head? := within_expressionBefore hkind
  rw [kinds_append] at hwithin
  refine ⟨used ++ cut, rest, (List.append_assoc ..).symm, ?_⟩
  cases hmisread with
  | refused hcause hviable hrefuses =>
      refine .refused hcause ?_ ?_ fun item hitem => ?_
      · rw [kinds_append]
        exact hwithin.viable (hbefore.viable hviable)
      · rw [kinds_append]
        exact hwithin.refuses (hbefore.refuses hrefuses)
      · rw [kinds_append] at hitem
        obtain ⟨tree, hphrase⟩ := hpending _ _ hitem
        exact hphrase.not_refuses _ hrefuses
  | @forbidden name position more cause hcause hviable =>
      refine .misnamed (.reference hlead (kinds_append used cut) hviable hcause) ?_ fun item hitem => ?_
      · rw [kinds_append, List.append_assoc]
        exact hwithin.viable (hbefore.viable hviable)
      · rw [kinds_append] at hitem
        obtain ⟨tree, hphrase⟩ := hpending _ _ hitem
        exact hphrase.not_viable_name name hviable

/-- Behind a whole expression in an item the delimiter must come, unless an operator does. -/
theorem refuses_delimiter {used cut rest : List Token} {tree : Expression} {place : Place}
    {shorter : rest.length < (cut ++ rest).length}
    (h : expression finish table (cut ++ rest) = .ok ⟨tree, rest, shorter⟩)
    (hphrase : Phrase .expression (kinds cut) tree)
    (hplace : place.wanted = .semicolon ∨ place.wanted = .closeParen)
    (hnext : (kinds rest).head? ≠ some place.wanted)
    (hwithin : Within (expressionBefore place.wanted) (itemShape phrase) (kinds used)
      (kinds (cut ++ rest)).head?) :
    (itemShape phrase).Refuses (kinds (used ++ cut)) (kinds rest).head? := by
  have hcloses : Level.expression.Closes (kinds rest).head? :=
    read_closes (view_eq_ok_iff.mpr ⟨shorter, h⟩)
  rw [kinds_append] at hwithin ⊢
  exact hwithin.refuses (refuses_expressionBefore hplace hphrase hcloses hnext)

end Expressions

/-! ### Items -/

theorem refuses_item {α : Type} {phrase : List TokenKind → α → Prop} {cut : List TokenKind}
    {next : Option TokenKind}
    (h : ∀ tail rest row item, phrase row item → cut ++ tail = row ++ rest → tail.head? ≠ next) :
    (itemShape phrase).Refuses cut next := by
  rintro tail hnext ⟨row, rest, hrow, ⟨item, hitem⟩, -⟩
  exact h tail rest row item hitem hrow hnext

theorem ConstantPhrase.exists_row {row : List TokenKind} {item : Constant}
    (h : ConstantPhrase row item) : ∃ name signs value, OptionalSign signs ∧
      row = .constWord :: .identifier name :: .equals :: (signs ++ [.integer value, .semicolon]) := by
  cases h with
  | unsigned name value => exact ⟨name, [], value, .inl rfl, rfl⟩
  | signed name sign value => exact ⟨name, [sign.mark], value, .inr ⟨sign, rfl⟩, rfl⟩

section Constants

variable {next : Option TokenKind}

theorem refuses_constant_name (hnext : ∀ name, next ≠ some (.identifier name)) :
    (itemShape ConstantPhrase).Refuses [.constWord] next := by
  refine refuses_item fun tail rest row item hitem hrow => ?_
  obtain ⟨name, signs, value, -, rfl⟩ := hitem.exists_row
  obtain ⟨-, rfl⟩ := List.cons.inj hrow
  exact (hnext name).symm

theorem refuses_constant_equals (name : String) (hnext : next ≠ some .equals) :
    (itemShape ConstantPhrase).Refuses [.constWord, .identifier name] next := by
  refine refuses_item fun tail rest row item hitem hrow => ?_
  obtain ⟨other, signs, value, -, rfl⟩ := hitem.exists_row
  obtain ⟨-, rfl⟩ := List.cons.inj (List.cons.inj hrow).2
  exact hnext.symm

section Digits

variable (name : String) {signs : List TokenKind} (hsigns : OptionalSign signs)
include hsigns

/-- Behind the equals sign of a constant a sign or digits come, and digits behind a sign. -/
theorem refuses_constant_value (hdigits : ∀ value, next ≠ some (.integer value))
    (hsign : signs = [] → ∀ sign, next ≠ some (Sign.mark sign)) :
    (itemShape ConstantPhrase).Refuses (.constWord :: .identifier name :: .equals :: signs) next := by
  refine refuses_item fun tail rest row item hitem hrow => ?_
  obtain ⟨other, marks, value, hmarks, rfl⟩ := hitem.exists_row
  obtain ⟨-, htail⟩ : name = other ∧ signs ++ tail = marks ++ .integer value :: .semicolon :: rest := by
    simpa using hrow
  rcases hsigns with rfl | ⟨sign, rfl⟩
  · obtain rfl : tail = _ := htail
    rcases hmarks with rfl | ⟨mark, rfl⟩
    · exact (hdigits value).symm
    · exact (hsign rfl mark).symm
  · rcases hmarks with rfl | ⟨mark, rfl⟩
    · cases sign <;> cases htail
    · obtain ⟨-, rfl⟩ := List.cons.inj htail
      exact (hdigits value).symm

theorem refuses_constant_semicolon (value : Int32) (hnext : next ≠ some .semicolon) :
    (itemShape ConstantPhrase).Refuses
      (.constWord :: .identifier name :: .equals :: (signs ++ [.integer value])) next := by
  refine refuses_item fun tail rest row item hitem hrow => ?_
  obtain ⟨other, marks, digits, hmarks, rfl⟩ := hitem.exists_row
  obtain ⟨-, htail⟩ : name = other ∧
      signs ++ .integer value :: tail = marks ++ .integer digits :: .semicolon :: rest := by
    simpa using hrow
  rw [hsigns.split hmarks htail]
  exact hnext.symm

/-- A constant without its digits is not declared yet. -/
theorem not_unclosed_constant (item : Constant) :
    ¬Unclosed ConstantPhrase (.constWord :: .identifier name :: .equals :: signs) item := by
  intro h
  obtain ⟨other, marks, value, -, hrow⟩ := h.exists_row
  obtain ⟨-, hmarks⟩ : name = other ∧
      signs ++ [.semicolon] = marks ++ [.integer value] ++ [.semicolon] := by
    simpa using hrow
  refine hsigns.integer_notMem value ?_
  rw [List.append_cancel_right hmarks]
  exact List.mem_append_right _ List.mem_cons_self

end Digits

variable {finish : Position}

theorem constant_spoiled {table : SymbolTable} {token : Token} {others : List Token}
    {rejection : Rejection} (hstart : (token.kind == .constWord) = true)
    (h : constant finish table (token :: others) = .error rejection) :
    SpoiledFrom finish table ConstantPhrase (Unclosed ConstantPhrase) AllowsConstant afterConstant
      (token :: others) rejection := by
  obtain ⟨kind, start⟩ := token
  obtain rfl : kind = .constWord := by simpa using hstart
  rcases bind_eq_error_iff.mp h with hname | ⟨⟨⟨name, position⟩, rest₁, _⟩, hname, h⟩
  · obtain ⟨fault, hmissing, rfl⟩ := rejecting_eq_error hname
    obtain ⟨rfl, hnext⟩ := declaredName_eq_error hmissing
    exact ⟨[_], others, rfl, .refused (fun _ => rfl) ⟨_, _, .unsigned "" 0⟩
      (refuses_constant_name hnext) nofun⟩
  have hident := declaredName_eq_ok (rejecting_eq_ok_iff.mp hname)
  change others = _ at hident
  subst hident
  rcases bind_eq_error_iff.mp h with hequals | ⟨⟨_, rest₂, _⟩, hequals, h⟩
  · obtain ⟨rfl, hnext⟩ := rejecting_expect_eq_error hequals
    exact ⟨[_, _], rest₁, rfl, .refused (isSyntactic_unexpected _) ⟨_, _, .unsigned name 0⟩
      (refuses_constant_equals name hnext) nofun⟩
  obtain ⟨second, rfl⟩ := expect_eq_ok (rejecting_eq_ok_iff.mp hequals)
  rcases bind_eq_error_iff.mp h with hvalue | ⟨⟨value, rest₃, _⟩, hvalue, h⟩
  · obtain ⟨fault, hmissing, rfl⟩ := rejecting_eq_error hvalue
    obtain ⟨signs, rest, rfl, rfl, hdigits, hsigns, hsign⟩ := constantValue_eq_error hmissing
    refine ⟨_ :: _ :: _ :: signs, rest, rfl, .refused (fun _ => rfl) ?_
      (refuses_constant_value name hsigns hdigits hsign) (not_unclosed_constant name hsigns)⟩
    rcases hsigns with hnone | ⟨sign, hmark⟩
    · rw [kinds_cons, kinds_cons, kinds_cons, hnone]
      exact ⟨_, _, .unsigned name 0⟩
    · rw [kinds_cons, kinds_cons, kinds_cons, hmark]
      exact ⟨_, _, .signed name sign 0⟩
  rcases bind_eq_error_iff.mp h with hdeclare | ⟨table', hdeclare, h⟩
  · obtain ⟨earlier, hclass, rfl⟩ := declareName_eq_error hdeclare
    exact ⟨[_], _, rfl, .misnamed (.redeclared (.inl rfl) hclass) ⟨_, _, .unsigned name 0⟩ nofun⟩
  obtain ⟨hnew, rfl⟩ := declareName_eq_ok_iff.mp hdeclare
  rcases bind_eq_error_iff.mp h with hsemicolon | ⟨_, _, h⟩
  · obtain ⟨rfl, hnext⟩ := rejecting_expect_eq_error hsemicolon
    rcases constantValue_eq_ok (rejecting_eq_ok_iff.mp hvalue) with
      ⟨digits, rfl⟩ | ⟨sign, plain, mark, digits, rfl, rfl⟩
    · have hitem := ConstantPhrase.unsigned name value
      exact ⟨[_, _, _, _], rest₃, rfl, .declared (isSyntactic_unexpected _) ⟨[_], _, hitem⟩
        (refuses_constant_semicolon name (.inl rfl) value hnext) hitem hnew rfl⟩
    · have hitem := ConstantPhrase.signed name sign plain
      exact ⟨[_, _, _, _, _], rest₃, rfl, .declared (isSyntactic_unexpected _) ⟨[_], _, hitem⟩
        (refuses_constant_semicolon name (.inr ⟨sign, rfl⟩) plain hnext) hitem hnew rfl⟩
  · cases h

end Constants

section Variables

variable {next : Option TokenKind}

theorem refuses_variable_name (hnext : ∀ name, next ≠ some (.identifier name)) :
    (itemShape VariablePhrase).Refuses [.varWord] next := by
  refine refuses_item ?_
  rintro tail rest _ _ (name | ⟨name, value⟩) hrow
  all_goals
    obtain ⟨-, rfl⟩ := List.cons.inj hrow
    exact (hnext name).symm

theorem refuses_variable_value (name : String) (hequals : next ≠ some .equals)
    (hsemicolon : next ≠ some .semicolon) :
    (itemShape VariablePhrase).Refuses [.varWord, .identifier name] next := by
  refine refuses_item ?_
  rintro tail rest _ _ (other | ⟨other, value⟩) hrow
  · obtain ⟨-, rfl⟩ := List.cons.inj (List.cons.inj hrow).2
    exact hsemicolon.symm
  · obtain ⟨-, rfl⟩ := List.cons.inj (List.cons.inj hrow).2
    exact hequals.symm

/-- A variable whose initial value has begun is declared behind the whole value. -/
theorem unclosed_initialized {name : String} {row : List TokenKind} {item : Variable}
    (h : Unclosed VariablePhrase ([.varWord, .identifier name, .equals] ++ row) item) :
    ∃ tree, Phrase .expression row tree := by
  rw [Unclosed] at h
  generalize hrow : [.varWord, .identifier name, .equals] ++ row ++ [.semicolon] = whole at h
  cases h with
  | bare other => simp at hrow
  | initialized other value =>
      simp only [List.cons_append, List.nil_append, List.cons.injEq] at hrow
      rw [List.append_cancel_right hrow.2.2.2]
      exact ⟨_, value⟩

variable {finish : Position}

theorem variable_spoiled {table : SymbolTable} {token : Token} {others : List Token}
    {rejection : Rejection} (hstart : (token.kind == .varWord) = true)
    (h : variableDeclaration finish table (token :: others) = .error rejection) :
    SpoiledFrom finish table VariablePhrase (Unclosed VariablePhrase) AllowsVariable afterVariable
      (token :: others) rejection := by
  obtain ⟨kind, start⟩ := token
  obtain rfl : kind = .varWord := by simpa using hstart
  rcases bind_eq_error_iff.mp h with hname | ⟨⟨⟨name, position⟩, rest₁, _⟩, hname, h⟩
  · obtain ⟨fault, hmissing, rfl⟩ := rejecting_eq_error hname
    obtain ⟨rfl, hnext⟩ := declaredName_eq_error hmissing
    exact ⟨[_], others, rfl, .refused (fun _ => rfl) ⟨_, _, .bare ""⟩ (refuses_variable_name hnext) nofun⟩
  have hident := declaredName_eq_ok (rejecting_eq_ok_iff.mp hname)
  change others = _ at hident
  subst hident
  have hredeclared : ∀ {cls rejection}, declareName table name position cls = .error rejection →
      SpoiledFrom finish table VariablePhrase (Unclosed VariablePhrase) AllowsVariable afterVariable
        (⟨.varWord, start⟩ :: ⟨.identifier name, position⟩ :: rest₁) rejection := by
    intro cls rejection hdeclare
    obtain ⟨earlier, hclass, rfl⟩ := declareName_eq_error hdeclare
    exact ⟨[_], _, rfl, .misnamed (.redeclared (.inr rfl) hclass) ⟨_, _, .bare name⟩ nofun⟩
  dsimp only at h
  split at h
  · rename_i rest₂ _ hequals
    rcases bind_eq_error_iff.mp h with hvalue | ⟨⟨value, rest₃, shorter⟩, hvalue, h⟩
    · obtain ⟨second, rfl⟩ := expect_eq_ok hequals
      obtain ⟨fault, hmisread, rfl⟩ := rejecting_eq_error hvalue
      exact @spoiledFrom_expression _ _ _ _ _ _ _ [_, _, _] _ _ _ hmisread (.inl rfl) (.initializer name)
        (within_initializer name) fun _ _ => unclosed_initialized
    rcases bind_eq_error_iff.mp h with hdeclare | ⟨table', hdeclare, h⟩
    · exact hredeclared hdeclare
    rcases bind_eq_error_iff.mp h with hsemicolon | ⟨_, _, h⟩
    · obtain ⟨rfl, hnext⟩ := rejecting_expect_eq_error hsemicolon
      obtain ⟨hnew, rfl⟩ := declareName_eq_ok_iff.mp hdeclare
      obtain ⟨second, rfl⟩ := expect_eq_ok hequals
      have hread := rejecting_eq_ok_iff.mp hvalue
      obtain ⟨used, rfl, hphrase, hcovers⟩ := expression_sound hread
      have hitem := VariablePhrase.initialized name hphrase
      refine ⟨([⟨.varWord, start⟩, ⟨.identifier name, position⟩, ⟨.equals, second⟩] : List Token) ++ used,
        rest₃, rfl, .declared (isSyntactic_unexpected _) ⟨[_], _, hitem⟩ ?_ hitem ⟨hnew, ?_⟩ rfl⟩
      · exact refuses_delimiter hread hphrase (.inl rfl) hnext (within_initializer name)
      · rintro _ ⟨⟩
        exact hcovers
    · cases h
  · rename_i fault hequals
    obtain ⟨-, hequals⟩ := expect_eq_error hequals
    rcases bind_eq_error_iff.mp h with hdeclare | ⟨table', hdeclare, h⟩
    · exact hredeclared hdeclare
    rcases bind_eq_error_iff.mp h with hsemicolon | ⟨_, _, h⟩
    · obtain ⟨rfl, hnext⟩ := rejecting_expect_eq_error hsemicolon
      obtain ⟨hnew, rfl⟩ := declareName_eq_ok_iff.mp hdeclare
      have hitem := VariablePhrase.bare name
      exact ⟨[_, _], rest₁, rfl, .declared (isSyntactic_unexpected _) ⟨[_], _, hitem⟩
        (refuses_variable_value name hequals hnext) hitem ⟨hnew, nofun⟩ rfl⟩
    · cases h

end Variables

/-- Nothing of a statement counts before its semicolon. -/
abbrev StatementSpoiledFrom (finish : Position) (table : SymbolTable) (tokens : List Token)
    (rejection : Rejection) : Prop :=
  SpoiledFrom finish table StatementPhrase (fun _ _ => False) AllowsStatement afterStatement tokens
    rejection

section Statements

variable {next : Option TokenKind}

/-- The kinds that a statement starts with. -/
def isStatementStart : TokenKind → Bool
  | .identifier _ | .printWord | .semicolon => true
  | _ => false

theorem refuses_statement_start (hnext : ∀ kind ∈ next, isStatementStart kind = false) :
    (itemShape StatementPhrase).Refuses [] next := by
  refine refuses_item ?_
  rintro tail rest _ _ hitem rfl rfl
  cases hitem <;> cases hnext _ rfl

theorem refuses_assigned_equals (target : String) (hnext : next ≠ some .equals) :
    (itemShape StatementPhrase).Refuses [.identifier target] next := by
  refine refuses_item ?_
  rintro tail rest _ _ (⟨other, value⟩ | value | _) hrow
  · obtain ⟨-, rfl⟩ := List.cons.inj hrow
    exact hnext.symm
  all_goals cases (List.cons.inj hrow).1

theorem refuses_printed_open (hnext : next ≠ some .openParen) :
    (itemShape StatementPhrase).Refuses [.printWord] next := by
  refine refuses_item ?_
  rintro tail rest _ _ (⟨other, value⟩ | value | _) hrow
  · cases (List.cons.inj hrow).1
  · obtain ⟨-, rfl⟩ := List.cons.inj hrow
    exact hnext.symm
  · cases (List.cons.inj hrow).1

theorem refuses_printed_semicolon {row : List TokenKind} {tree : Expression}
    (h : Phrase .expression row tree) (hnext : next ≠ some .semicolon) :
    (itemShape StatementPhrase).Refuses (.printWord :: .openParen :: (row ++ [.closeParen])) next := by
  refine refuses_item ?_
  rintro tail rest _ _ (⟨other, value⟩ | value | _) hrow
  · cases (List.cons.inj hrow).1
  · have htail := (List.cons.inj (List.cons.inj hrow).2).2
    rw [List.append_eq, List.append_eq, List.append_assoc, List.append_assoc] at htail
    obtain ⟨-, htail⟩ := h.delimited value (.inr rfl) (.inr rfl) htail
    obtain rfl : tail = .semicolon :: rest := (List.cons.inj htail).2
    exact hnext.symm
  · cases (List.cons.inj hrow).1

variable {finish : Position} {table : SymbolTable} {rejection : Rejection}

theorem assignment_spoiled {target : String} {position : Position} {tokens : List Token}
    (h : assignment finish table target position tokens = .error rejection) :
    StatementSpoiledFrom finish table (⟨.identifier target, position⟩ :: tokens) rejection := by
  have hviable : (itemShape StatementPhrase).Viable [.identifier target] :=
    ⟨[.equals, .integer 0, .semicolon], _, .assign target (.single (.lone (.unsigned (.literal 0))))⟩
  unfold assignment at h
  split at h
  · rename_i hclass
    cases h
    exact ⟨[], _, rfl, .misnamed (.constantTarget rfl hclass) hviable nofun⟩
  · rename_i hclass
    cases h
    exact ⟨[], _, rfl, .misnamed (.undefinedTarget rfl hclass) hviable nofun⟩
  rcases bind_eq_error_iff.mp h with hequals | ⟨⟨_, rest₁, _⟩, hequals, h⟩
  · obtain ⟨rfl, hnext⟩ := rejecting_expect_eq_error hequals
    exact ⟨[_], tokens, rfl, .refused (isSyntactic_unexpected _) hviable
      (refuses_assigned_equals target hnext) nofun⟩
  obtain ⟨second, rfl⟩ := expect_eq_ok (rejecting_eq_ok_iff.mp hequals)
  rcases bind_eq_error_iff.mp h with hvalue | ⟨⟨value, rest₂, _⟩, hvalue, h⟩
  · obtain ⟨fault, hmisread, rfl⟩ := rejecting_eq_error hvalue
    exact @spoiledFrom_expression _ _ _ _ _ _ _ [_, _] _ _ _ hmisread (.inl rfl) (.assigned target)
      (within_assigned target) nofun
  rcases bind_eq_error_iff.mp h with hsemicolon | ⟨_, _, h⟩
  · obtain ⟨rfl, hnext⟩ := rejecting_expect_eq_error hsemicolon
    have hread := rejecting_eq_ok_iff.mp hvalue
    obtain ⟨used, rfl, hphrase, -⟩ := expression_sound hread
    have hitem := StatementPhrase.assign target hphrase
    exact ⟨([⟨.identifier target, position⟩, ⟨.equals, second⟩] : List Token) ++ used, rest₂, rfl,
      .refused (isSyntactic_unexpected _) ⟨[_], _, hitem⟩
        (refuses_delimiter hread hphrase (.inl rfl) hnext (within_assigned target)) nofun⟩
  · cases h

theorem printing_spoiled {start : Position} {tokens : List Token}
    (h : printing finish table tokens = .error rejection) :
    StatementSpoiledFrom finish table (⟨.printWord, start⟩ :: tokens) rejection := by
  rcases bind_eq_error_iff.mp h with hopen | ⟨⟨_, rest₁, _⟩, hopen, h⟩
  · obtain ⟨rfl, hnext⟩ := rejecting_expect_eq_error hopen
    refine ⟨[_], tokens, rfl, .refused (isSyntactic_unexpected _) ?_ (refuses_printed_open hnext) nofun⟩
    exact ⟨[.openParen, .integer 0, .closeParen, .semicolon], _,
      .print (.single (.lone (.unsigned (.literal 0))))⟩
  obtain ⟨second, rfl⟩ := expect_eq_ok (rejecting_eq_ok_iff.mp hopen)
  rcases bind_eq_error_iff.mp h with hvalue | ⟨⟨value, rest₂, _⟩, hvalue, h⟩
  · obtain ⟨fault, hmisread, rfl⟩ := rejecting_eq_error hvalue
    exact @spoiledFrom_expression _ _ _ _ _ _ _ [_, _] _ _ _ hmisread (.inr rfl) .printed
      within_printed nofun
  have hread := rejecting_eq_ok_iff.mp hvalue
  obtain ⟨used, rfl, hphrase, -⟩ := expression_sound hread
  have hitem := StatementPhrase.print hphrase
  rcases bind_eq_error_iff.mp h with hclose | ⟨⟨_, rest₃, _⟩, hclose, h⟩
  · obtain ⟨rfl, hnext⟩ := rejecting_expect_eq_error hclose
    exact ⟨([⟨.printWord, start⟩, ⟨.openParen, second⟩] : List Token) ++ used, rest₂, rfl,
      .refused (isSyntactic_unexpected _) ⟨[_, _], _, hitem⟩
        (refuses_delimiter hread hphrase (.inr rfl) hnext within_printed) nofun⟩
  obtain ⟨third, rfl⟩ := expect_eq_ok (rejecting_eq_ok_iff.mp hclose)
  rcases bind_eq_error_iff.mp h with hsemicolon | ⟨_, _, h⟩
  · obtain ⟨rfl, hnext⟩ := rejecting_expect_eq_error hsemicolon
    refine ⟨⟨.printWord, start⟩ :: ⟨.openParen, second⟩ :: (used ++ [⟨.closeParen, third⟩]), rest₃,
      by simp [Place.wanted], .refused (isSyntactic_unexpected _) ⟨[.semicolon], .print value, ?_⟩ ?_ nofun⟩
    · simpa using hitem
    · simpa using refuses_printed_semicolon hphrase hnext
  · cases h

theorem statement_spoiled {token : Token} {others : List Token}
    (h : statement finish table (token :: others) = .error rejection) :
    StatementSpoiledFrom finish table (token :: others) rejection := by
  obtain ⟨kind, start⟩ := token
  cases kind with
  | identifier target =>
      rcases bind_eq_error_iff.mp h with hassign | ⟨_, _, h⟩
      · exact assignment_spoiled hassign
      · cases h
  | printWord =>
      rcases bind_eq_error_iff.mp h with hprint | ⟨_, _, h⟩
      · exact printing_spoiled hprint
      · cases h
  | semicolon => cases h
  | _ =>
      cases h
      refine ⟨[], _, rfl, .refused (fun _ => rfl) ⟨[.semicolon], _, .empty⟩
        (refuses_statement_start ?_) nofun⟩
      rintro _ ⟨⟩
      rfl

end Statements

end PlZero.Source

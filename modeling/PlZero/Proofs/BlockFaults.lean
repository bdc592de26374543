import PlZero.Proofs.ItemFaults

/-! Where the reading of a block goes wrong, and what it has declared by then. Main statement: it stops
before the first token that no block goes on with, or at a name that may not stand where it does; what
comes before is the start of a block, and the names declared are those of the items that are complete
there. -/

namespace PlZero.Source

open PlZero.Attempt Shape SymbolTable

/-- The row is an item of a block. -/
def IsItem (row : List TokenKind) : Prop :=
  (∃ constant, ConstantPhrase row constant) ∨ (∃ declared, VariablePhrase row declared) ∨
    ∃ statement, StatementPhrase row statement

/-- The row is the start of a block: the word that opens it, and the items of `done`. -/
def Opening (row : List TokenKind) (done : Block) : Prop :=
  ∃ first second third, row = .beginWord :: (first ++ (second ++ third)) ∧
    Sequence ConstantPhrase first done.constants ∧ Sequence VariablePhrase second done.vars ∧
    Sequence StatementPhrase third done.statements

/-- The row is the start of an item: not the whole of it, nor a declaration that lacks its semicolon
only. -/
structure Unfinished (row : List TokenKind) : Prop where
  begun : ∃ more, more ≠ [] ∧ IsItem (row ++ more)
  constant : ∀ item, ¬Unclosed ConstantPhrase row item
  declared : ∀ item, ¬Unclosed VariablePhrase row item

/-- The items that are complete in the start of a block are those of `done`. A declaration is complete
with its name and value: the semicolon behind it may be missing. A statement is complete with its
semicolon. -/
inductive Completed : List TokenKind → Block → Prop where
  | nothing : Completed [] ⟨[], [], []⟩
  | opened {row cut : List TokenKind} {done : Block} (h : Opening row done) (hcut : Unfinished cut) :
      Completed (row ++ cut) done
  | unclosedConstant {row cut : List TokenKind} {constants : List Constant} {constant : Constant}
      (h : Opening row ⟨constants, [], []⟩) (hcut : Unclosed ConstantPhrase cut constant) :
      Completed (row ++ cut) ⟨constants ++ [constant], [], []⟩
  | unclosedVariable {row cut : List TokenKind} {constants : List Constant} {vars : List Variable}
      {declared : Variable} (h : Opening row ⟨constants, vars, []⟩)
      (hcut : Unclosed VariablePhrase cut declared) :
      Completed (row ++ cut) ⟨constants, vars ++ [declared], []⟩
  | ended {row : List TokenKind} {done : Block} (h : BlockPhrase row done) : Completed row done

/-- The reading of a block stopped behind `before` with the rejection. -/
inductive Halted (finish : Position) (before : List Token) : List Token → Rejection → Prop where
  | refused {rest : List Token} {cause : TokenKind → Cause} {done : Block} (hcause : IsSyntactic cause)
      (hviable : blockShape.Viable (kinds before))
      (hrefuses : blockShape.Refuses (kinds before) (kinds rest).head?)
      (hdone : Completed (kinds before) done) (hallowed : done.Allowed) :
      Halted finish before rest ⟨blame finish rest cause, done.table⟩
  | misnamed {name : String} {position : Position} {more : List Token} {cause : Cause}
      {row cut : List TokenKind} {done : Block} (hbefore : kinds before = row ++ cut)
      (hopening : Opening row done) (hcut : Unfinished cut) (hallowed : done.Allowed)
      (hname : Misnamed done.table cut name cause)
      (hviable : blockShape.Viable (kinds before ++ [.identifier name])) :
      Halted finish before (⟨.identifier name, position⟩ :: more) ⟨⟨cause, position⟩, done.table⟩

/-- The reading of a block from the tokens stopped with the rejection. -/
def HaltedFrom (finish : Position) (tokens : List Token) (rejection : Rejection) : Prop :=
  ∃ before rest, tokens = before ++ rest ∧ Halted finish before rest rejection

theorem Shape.Within.trans {inner middle outer : Shape} {first second row : List TokenKind}
    (houter : Within middle outer first (second ++ row).head?)
    (hinner : Within inner middle second row.head?) :
    Within inner outer (first ++ second) row.head? where
  extend others hothers := by
    rw [List.append_assoc]
    exact houter.viable (hinner.extend others hothers)
  opens others hhead hopens := by
    rw [List.append_assoc] at hopens
    refine hinner.opens others hhead (houter.opens _ ?_ hopens)
    rw [List.head?_append, List.head?_append, hhead]

/-- The tokens are the start of a block with the items of `done`, each allowed where it stands, and with
the kind next the block goes on with a phrase of the shape. -/
structure Reached (used : List Token) (done : Block) (shape : Shape) (next : Option TokenKind) :
    Prop where
  opening : Opening (kinds used) done
  allowed : done.Allowed
  within : Within shape blockShape (kinds used) next

/-- A shape that a block goes on with stops the block where it is refused. -/
theorem Halted.ofWithin {finish : Position} {used cut rest : List Token} {inner : Shape}
    {cause : TokenKind → Cause} {done : Block}
    (hwithin : Within inner blockShape (kinds used) (kinds cut ++ kinds rest).head?)
    (hcause : IsSyntactic cause) (hviable : inner.Viable (kinds cut))
    (hrefuses : inner.Refuses (kinds cut) (kinds rest).head?)
    (hdone : Completed (kinds used ++ kinds cut) done) (hallowed : done.Allowed) :
    Halted finish (used ++ cut) rest ⟨blame finish rest cause, done.table⟩ := by
  have hviable := hwithin.viable hviable
  have hrefuses := hwithin.refuses hrefuses
  rw [← kinds_append] at hviable hrefuses hdone
  exact .refused hcause hviable hrefuses hdone hallowed

section Spoiled

variable {α : Type} {phrase pending : List TokenKind → α → Prop} {allows : SymbolTable → α → Prop}
  {after : SymbolTable → α → SymbolTable} {finish : Position}

/-- A block with a spoiled item behind whole ones stopped there. -/
theorem haltedFrom_spoiled {used tokens : List Token} {done : Block} {rejection : Rejection}
    (hreached : Reached used done (itemShape phrase) (kinds tokens).head?)
    (h : SpoiledFrom finish done.table phrase pending allows after tokens rejection)
    (hunfinished : ∀ cut more item, more ≠ [] → phrase (cut ++ more) item →
      (∀ item, ¬pending cut item) → Unfinished cut)
    (hdeclared : ∀ cut item, pending cut item → allows done.table item → ∃ longer : Block,
      Completed (kinds used ++ cut) longer ∧ longer.Allowed ∧ longer.table = after done.table item) :
    HaltedFrom finish (used ++ tokens) rejection := by
  obtain ⟨cut, rest, rfl, h⟩ := h
  obtain ⟨hopening, hallowed, hwithin⟩ := hreached
  refine ⟨used ++ cut, rest, (List.append_assoc ..).symm, ?_⟩
  rw [kinds_append] at hwithin
  cases h with
  | refused hcause hviable hrefuses hpending =>
      -- A whole item would refuse nothing behind it.
      have hcut : Unfinished (kinds cut) := by
        obtain ⟨more, item, hitem⟩ := hviable
        refine hunfinished _ more item ?_ hitem hpending
        rintro rfl
        rw [List.append_nil] at hitem
        exact hrefuses (kinds rest) rfl ⟨_, _, rfl, ⟨item, hitem⟩, trivial⟩
      exact .ofWithin hwithin hcause hviable hrefuses (.opened hopening hcut) hallowed
  | declared hcause hviable hrefuses hpending hallows htable =>
      obtain ⟨longer, hlonger, hallowed, hafter⟩ := hdeclared _ _ hpending hallows
      rw [htable, ← hafter]
      exact .ofWithin hwithin hcause hviable hrefuses hlonger hallowed
  | @misnamed name position more cause hname hviable hpending =>
      have hcut : Unfinished (kinds cut) := by
        obtain ⟨others, item, hitem⟩ := hviable
        rw [List.append_assoc] at hitem
        exact hunfinished _ _ item (List.cons_ne_nil _ _) hitem hpending
      refine .misnamed (kinds_append used cut) hopening hcut hallowed hname ?_
      rw [kinds_append, List.append_assoc]
      exact hwithin.viable hviable

/-- What starts as another item is not an item without its semicolon. -/
theorem not_unclosed {row more : List TokenKind} {starts : TokenKind → Bool}
    (hhead : ∀ {row item}, phrase row item → ∃ kind rest, row = kind :: rest ∧ starts kind = true)
    (hmore : ∃ kind rest, row ++ more = kind :: rest ∧ starts kind = false)
    (hsemicolon : starts .semicolon = false) (item : α) : ¬Unclosed phrase row item := by
  intro h
  obtain ⟨kind, rest, hrow, hkind⟩ := hhead h
  obtain ⟨other, others, hother, hfalse⟩ := hmore
  cases row with
  | nil =>
      obtain ⟨rfl, -⟩ := List.cons.inj hrow
      simp [hsemicolon] at hkind
  | cons first tail =>
      obtain ⟨rfl, -⟩ := List.cons.inj hrow
      obtain ⟨rfl, -⟩ := List.cons.inj hother
      simp [hkind] at hfalse

end Spoiled

section Unfinished

variable {cut more : List TokenKind} (hmore : more ≠ [])
include hmore

theorem unfinished_constant {item : Constant} (h : ConstantPhrase (cut ++ more) item)
    (hpending : ∀ item, ¬Unclosed ConstantPhrase cut item) : Unfinished cut where
  begun := ⟨more, hmore, .inl ⟨item, h⟩⟩
  constant := hpending
  declared := by
    obtain ⟨kind, rest, hrow, hkind⟩ := repeats_constants.head h
    obtain rfl : kind = .constWord := by simpa using hkind
    exact not_unclosed repeats_vars.head ⟨_, rest, hrow, rfl⟩ rfl

theorem unfinished_variable {item : Variable} (h : VariablePhrase (cut ++ more) item)
    (hpending : ∀ item, ¬Unclosed VariablePhrase cut item) : Unfinished cut where
  begun := ⟨more, hmore, .inr (.inl ⟨item, h⟩)⟩
  constant := not_unclosed repeats_constants.head h.head rfl
  declared := hpending

theorem unfinished_statement {item : Statement} (h : StatementPhrase (cut ++ more) item) :
    Unfinished cut where
  begun := ⟨more, hmore, .inr (.inr ⟨item, h⟩)⟩
  constant := by
    obtain ⟨kind, rest, hrow, hconstant, -⟩ := h.head
    exact not_unclosed repeats_constants.head ⟨kind, rest, hrow, hconstant⟩ rfl
  declared := by
    obtain ⟨kind, rest, hrow, -, hvar⟩ := h.head
    exact not_unclosed repeats_vars.head ⟨kind, rest, hrow, hvar⟩ rfl

end Unfinished

section Loop

variable {α : Type} {starts : TokenKind → Bool} {reader : ItemReader α}
  {phrase pending : List TokenKind → α → Prop} {allows : SymbolTable → α → Prop}
  {after : SymbolTable → α → SymbolTable} {table : SymbolTable} {found : List α} {tokens : List Token}

/-- Behind the items that a loop has read comes what follows them. -/
theorem within_stops {rest : Shape} (hrepeats : Repeats phrase starts rest) {row : List TokenKind}
    {list : List α} (hrow : Sequence phrase row list) {others : List Token}
    (hstops : Stops starts others) :
    Within rest (rest.after phrase) row (kinds others).head? := by
  have hrest : Within rest (rest.after phrase) [] (kinds others).head? := by
    refine hrepeats.within_rest ?_
    cases others with
    | nil => exact fun _ hkind => nomatch hkind
    | cons token others =>
        rintro _ ⟨⟩
        exact hstops token others rfl
  simpa using (hrepeats.within_items hrow).trans hrest

/-- Behind the items that a loop has read a further one starts. -/
theorem within_starts {rest : Shape} (hrepeats : Repeats phrase starts rest) {row : List TokenKind}
    {list : List α} (hrow : Sequence phrase row list) {token : Token}
    (hstart : starts token.kind = true) (others : List Token) :
    Within (itemShape phrase) (rest.after phrase) row (kinds (token :: others)).head? := by
  have hitem : Within (itemShape phrase) (rest.after phrase) [] (kinds (token :: others)).head? :=
    hrepeats.within_item hstart
  simpa using (hrepeats.within_items hrow).trans hitem

/-- A loop that fails has read a sequence of items, each allowed where it stands, and failed at the next
one. -/
theorem ItemSpec.items_spoiled (spec : ItemSpec starts reader phrase allows after) {finish : Position}
    (hspoiled : ∀ {table token others rejection}, starts token.kind = true →
      reader table (token :: others) = .error rejection →
      SpoiledFrom finish table phrase pending allows after (token :: others) rejection)
    {rejection : Rejection} (h : items starts reader table found tokens = .error rejection) :
    ∃ list used token others, tokens = used ++ token :: others ∧ Sequence phrase (kinds used) list ∧
      Admits allows after table list ∧ starts token.kind = true ∧
      SpoiledFrom finish (list.foldl after table) phrase pending allows after (token :: others)
        rejection := by
  revert h
  refine items_induction ?_ ?_ ?_ table found tokens
  · intro table found tokens _ h
    cases h
  · intro table found token others cause hstart hfailed h
    cases h
    exact ⟨[], [], token, others, rfl, .nil, trivial, hstart, hspoiled hstart hfailed⟩
  · intro table found token others item next remainder hstart hread ih h
    obtain ⟨first, hfirst, hphrase, hallows, rfl⟩ := spec.sound hstart hread
    obtain ⟨list, used, last, behind, rfl, hsequence, hadmits, hlast, hfault⟩ := ih h
    refine ⟨item :: list, first ++ used, last, behind, ?_, ?_, ⟨hallows, hadmits⟩, hlast, hfault⟩
    · rw [hfirst, List.append_assoc]
    · rw [kinds_append]
      exact .cons hphrase hsequence

end Loop

/-! ### Blocks -/

theorem viable_block : blockShape.Viable [] :=
  ⟨[.beginWord, .endWord], _, .mk .nil .nil .nil⟩

theorem refuses_block {next : Option TokenKind} (hnext : next ≠ some .beginWord) :
    blockShape.Refuses [] next := by
  rintro tail rfl ⟨_, rest, hrow, hwhole, -⟩
  obtain ⟨more, rfl, -⟩ := whole_block_iff.mp hwhole
  rw [List.nil_append] at hrow
  rw [hrow] at hnext
  exact hnext rfl

theorem refuses_end {next : Option TokenKind} (hnext : next ≠ some .endWord) :
    endShape.Refuses [] next := by
  rintro tail rfl ⟨_, rest, hrow, rfl, -⟩
  rw [List.nil_append] at hrow
  rw [hrow] at hnext
  exact hnext rfl

theorem refuses_behind_end (kind : TokenKind) : endShape.Refuses [.endWord] (some kind) := by
  rintro tail htail ⟨_, _, hrow, rfl, rfl⟩
  obtain ⟨-, rfl⟩ := List.cons.inj hrow
  cases htail

theorem unfinished_nil : Unfinished [] :=
  unfinished_statement (List.cons_ne_nil _ _) .empty

section Stages

variable {finish : Position} {used items tokens : List Token} {constants : List Constant}
  {vars : List Variable} {statements : List Statement} {inner : Shape} {rejection : Rejection}

theorem reached_begin (start : Position) (next : Option TokenKind) :
    Reached [⟨.beginWord, start⟩] ⟨[], [], []⟩ constantsShape next :=
  ⟨⟨[], [], [], rfl, .nil, .nil, .nil⟩, ⟨trivial, trivial, trivial⟩, within_block⟩

theorem Reached.throughConstants
    (h : Reached used ⟨[], [], []⟩ constantsShape (kinds (items ++ tokens)).head?)
    (hitems : Sequence ConstantPhrase (kinds items) constants)
    (hadmits : Admits AllowsConstant afterConstant .empty constants)
    (hinner : Within inner constantsShape (kinds items) (kinds tokens).head?) :
    Reached (used ++ items) ⟨constants, [], []⟩ inner (kinds tokens).head? := by
  obtain ⟨⟨_, _, _, hrow, ⟨⟩, ⟨⟩, ⟨⟩⟩, -, hwithin⟩ := h
  rw [kinds_append] at hwithin
  refine ⟨⟨kinds items, [], [], ?_, hitems, .nil, .nil⟩, ⟨hadmits, trivial, trivial⟩, ?_⟩
  · simp [hrow]
  · rw [kinds_append]
    exact hwithin.trans hinner

theorem Reached.throughVars
    (h : Reached used ⟨constants, [], []⟩ varsShape (kinds (items ++ tokens)).head?)
    (hitems : Sequence VariablePhrase (kinds items) vars)
    (hadmits : Admits AllowsVariable afterVariable (declared constants []) vars)
    (hinner : Within inner varsShape (kinds items) (kinds tokens).head?) :
    Reached (used ++ items) ⟨constants, vars, []⟩ inner (kinds tokens).head? := by
  obtain ⟨⟨first, _, _, hrow, hconstants, ⟨⟩, ⟨⟩⟩, ⟨hallowed, -, -⟩, hwithin⟩ := h
  rw [kinds_append] at hwithin
  refine ⟨⟨first, kinds items, [], ?_, hconstants, hitems, .nil⟩, ⟨hallowed, hadmits, trivial⟩, ?_⟩
  · simp [hrow]
  · rw [kinds_append]
    exact hwithin.trans hinner

theorem Reached.throughStatements
    (h : Reached used ⟨constants, vars, []⟩ statementsShape (kinds (items ++ tokens)).head?)
    (hitems : Sequence StatementPhrase (kinds items) statements)
    (hadmits : Admits AllowsStatement afterStatement (declared constants vars) statements)
    (hinner : Within inner statementsShape (kinds items) (kinds tokens).head?) :
    Reached (used ++ items) ⟨constants, vars, statements⟩ inner (kinds tokens).head? := by
  obtain ⟨⟨first, second, _, hrow, hconstants, hvars, ⟨⟩⟩, ⟨hallowed₁, hallowed₂, -⟩, hwithin⟩ := h
  rw [kinds_append] at hwithin
  refine ⟨⟨first, second, kinds items, ?_, hconstants, hvars, hitems⟩,
    ⟨hallowed₁, hallowed₂, hadmits⟩, ?_⟩
  · simp [hrow]
  · rw [kinds_append]
    exact hwithin.trans hinner

theorem haltedFrom_constant
    (h : Reached used ⟨constants, [], []⟩ (itemShape ConstantPhrase) (kinds tokens).head?)
    (hspoiled : SpoiledFrom finish (declared constants []) ConstantPhrase (Unclosed ConstantPhrase)
      AllowsConstant afterConstant tokens rejection) :
    HaltedFrom finish (used ++ tokens) rejection := by
  refine haltedFrom_spoiled h hspoiled
    (fun _ _ _ hmore hitem hpending => unfinished_constant hmore hitem hpending) ?_
  intro cut item hpending hallows
  refine ⟨_, .unclosedConstant h.opening hpending, ⟨?_, trivial, trivial⟩, List.foldl_append⟩
  exact admits_append.mpr ⟨h.allowed.1, hallows, trivial⟩

theorem haltedFrom_variable
    (h : Reached used ⟨constants, vars, []⟩ (itemShape VariablePhrase) (kinds tokens).head?)
    (hspoiled : SpoiledFrom finish (declared constants vars) VariablePhrase (Unclosed VariablePhrase)
      AllowsVariable afterVariable tokens rejection) :
    HaltedFrom finish (used ++ tokens) rejection := by
  refine haltedFrom_spoiled h hspoiled
    (fun _ _ _ hmore hitem hpending => unfinished_variable hmore hitem hpending) ?_
  intro cut item hpending hallows
  refine ⟨_, .unclosedVariable h.opening hpending, ⟨h.allowed.1, ?_, trivial⟩, List.foldl_append⟩
  exact admits_append.mpr ⟨h.allowed.2.1, hallows, trivial⟩

theorem haltedFrom_statement {done : Block}
    (h : Reached used done (itemShape StatementPhrase) (kinds tokens).head?)
    (hspoiled : StatementSpoiledFrom finish done.table tokens rejection) :
    HaltedFrom finish (used ++ tokens) rejection :=
  haltedFrom_spoiled h hspoiled (fun _ _ _ hmore hitem _ => unfinished_statement hmore hitem)
    fun _ _ hpending => hpending.elim

/-- The end of the block is missing. -/
theorem halted_end {done : Block} {cause : TokenKind → Cause} (hcause : IsSyntactic cause)
    (h : Reached used done endShape (kinds tokens).head?)
    (hnext : (kinds tokens).head? ≠ some .endWord) :
    Halted finish used tokens ⟨blame finish tokens cause, done.table⟩ := by
  rw [← List.append_nil used]
  exact .ofWithin h.within hcause ⟨[.endWord], rfl⟩ (refuses_end hnext)
    (.opened h.opening unfinished_nil) h.allowed

/-- Something stands behind the end of the block. -/
theorem halted_behind {done : Block} {cause : TokenKind → Cause} (hcause : IsSyntactic cause)
    {place : Position} {token : Token}
    (h : Reached used done endShape (kinds (⟨.endWord, place⟩ :: token :: tokens)).head?) :
    Halted finish (used ++ [⟨.endWord, place⟩]) (token :: tokens)
      ⟨blame finish (token :: tokens) cause, done.table⟩ := by
  refine .ofWithin h.within hcause ⟨[], rfl⟩ (refuses_behind_end token.kind) (.ended ?_) h.allowed
  obtain ⟨first, second, third, hrow, hconstants, hvars, hstatements⟩ := h.opening
  rw [hrow]
  simpa using BlockPhrase.mk hconstants hvars hstatements

end Stages

/-- The reading of a block that fails has stopped at a token that no block goes on with, or at a name
that may not stand there. -/
theorem block_halted {finish : Position} {tokens : List Token} {rejection : Rejection}
    (h : block finish tokens = .error rejection) : HaltedFrom finish tokens rejection := by
  rcases bind_eq_error_iff.mp h with hbegin | ⟨⟨_, rest₁, _⟩, hbegin, h⟩
  · obtain ⟨rfl, hnext⟩ := rejecting_expect_eq_error hbegin
    exact ⟨[], tokens, rfl, @Halted.refused _ [] _ _ ⟨[], [], []⟩ (isSyntactic_unexpected _) viable_block
      (refuses_block hnext) .nothing ⟨trivial, trivial, trivial⟩⟩
  obtain ⟨start, rfl⟩ := expect_eq_ok (rejecting_eq_ok_iff.mp hbegin)
  have hreached := reached_begin start (kinds rest₁).head?
  rw [← List.singleton_append]
  rcases bind_eq_error_iff.mp h with hconstants | ⟨⟨constants, table₁, rest₂⟩, hconstants, h⟩
  · obtain ⟨list, used, token, others, rfl, hitems, hadmits, hstart, hspoiled⟩ :=
      (constant_spec finish).items_spoiled constant_spoiled hconstants
    rw [← List.append_assoc]
    refine haltedFrom_constant (hreached.throughConstants hitems hadmits ?_) hspoiled
    exact within_starts repeats_constants hitems hstart others
  obtain ⟨_, used₁, rfl, rfl, hitems₁, hadmits₁, rfl, hstops₁⟩ :=
    (constant_spec finish).items_sound hconstants
  replace hreached := hreached.throughConstants hitems₁ hadmits₁
    (within_stops repeats_constants hitems₁ hstops₁)
  rw [← List.append_assoc]
  rcases bind_eq_error_iff.mp h with hvars | ⟨⟨vars, table₂, rest₃⟩, hvars, h⟩
  · obtain ⟨list, used, token, others, rfl, hitems, hadmits, hstart, hspoiled⟩ :=
      (variable_spec finish).items_spoiled variable_spoiled hvars
    rw [← List.append_assoc]
    refine haltedFrom_variable (hreached.throughVars hitems hadmits ?_) hspoiled
    exact within_starts repeats_vars hitems hstart others
  obtain ⟨_, used₂, rfl, rfl, hitems₂, hadmits₂, rfl, hstops₂⟩ :=
    (variable_spec finish).items_sound hvars
  replace hreached := hreached.throughVars hitems₂ hadmits₂ (within_stops repeats_vars hitems₂ hstops₂)
  rw [← List.append_assoc]
  rcases bind_eq_error_iff.mp h with hstatements | ⟨⟨statements, table₃, rest₄⟩, hstatements, h⟩
  · obtain ⟨list, used, token, others, rfl, hitems, hadmits, hstart, hspoiled⟩ :=
      (statement_spec finish).items_spoiled (fun _ => statement_spoiled) hstatements
    rw [← List.append_assoc]
    refine haltedFrom_statement (hreached.throughStatements hitems hadmits ?_) hspoiled
    exact within_starts repeats_statements hitems hstart others
  obtain ⟨_, used₃, rfl, rfl, hitems₃, hadmits₃, rfl, hstops₃⟩ :=
    (statement_spec finish).items_sound hstatements
  replace hreached := hreached.throughStatements hitems₃ hadmits₃
    (within_stops repeats_statements hitems₃ hstops₃)
  rw [← List.append_assoc]
  rcases bind_eq_error_iff.mp h with hend | ⟨⟨_, rest₅, _⟩, hend, h⟩
  · obtain ⟨rfl, hnext⟩ := rejecting_expect_eq_error hend
    exact ⟨_, rest₄, rfl, halted_end (isSyntactic_unexpected _) hreached hnext⟩
  obtain ⟨last, rfl⟩ := expect_eq_ok (rejecting_eq_ok_iff.mp hend)
  cases rest₅ with
  | nil => cases h
  | cons token others =>
      cases h
      exact ⟨_, _, List.append_cons _ _ _, halted_behind (isSyntactic_unexpected _) hreached⟩

end PlZero.Source

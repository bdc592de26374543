import PlZero.Proofs.Unambiguity

/-! How rows of kinds can go on. A row is viable for a shape of phrases if some phrase of the shape
starts with it, and it refuses a next kind if no row that starts with a phrase goes on with that kind.
Main statements: what is left of a phrase behind some part of it is a phrase of another shape, so a row
that is viable, or refuses a kind, there is and does so in the whole phrase. -/

namespace PlZero.Source

/-- A shape of phrases: the rows that are one, and the rows that may stand behind one. -/
structure Shape where
  whole : List TokenKind → Prop
  behind : List TokenKind → Prop

namespace Shape

/-- The row starts with a phrase of the shape. -/
def Opens (shape : Shape) (row : List TokenKind) : Prop :=
  ∃ first rest, row = first ++ rest ∧ shape.whole first ∧ shape.behind rest

/-- The row can be continued to a phrase of the shape. -/
def Viable (shape : Shape) (cut : List TokenKind) : Prop :=
  ∃ more, shape.whole (cut ++ more)

/-- No row that starts with a phrase of the shape goes on behind `cut` with the next kind; with none
next, no such row ends there. -/
def Refuses (shape : Shape) (cut : List TokenKind) (next : Option TokenKind) : Prop :=
  ∀ tail, tail.head? = next → ¬shape.Opens (cut ++ tail)

/-- Behind `before`, and with the kind next, a phrase of the outer shape goes on with one of the inner
shape, and every one of the inner shape can stand there. -/
structure Within (inner outer : Shape) (before : List TokenKind) (next : Option TokenKind) : Prop where
  extend : ∀ row, inner.whole row → outer.Viable (before ++ row)
  opens : ∀ row, row.head? = next → outer.Opens (before ++ row) → inner.Opens row

variable {inner outer : Shape} {before cut : List TokenKind} {next : Option TokenKind}

theorem Within.viable (h : Within inner outer before next) (hcut : inner.Viable cut) :
    outer.Viable (before ++ cut) := by
  obtain ⟨more, hwhole⟩ := hcut
  obtain ⟨others, hothers⟩ := h.extend _ hwhole
  exact ⟨more ++ others, by simpa only [List.append_assoc] using hothers⟩

theorem Within.refuses {row : List TokenKind} (h : Within inner outer before (cut ++ row).head?)
    (hcut : inner.Refuses cut row.head?) : outer.Refuses (before ++ cut) row.head? := by
  intro tail htail hopens
  rw [List.append_assoc] at hopens
  refine hcut tail htail (h.opens _ ?_ hopens)
  rw [List.head?_append, List.head?_append, htail]

end Shape

open Shape

/-- The phrases of a level. -/
def Level.shape (level : Level) : Shape :=
  ⟨fun row => ∃ tree, Phrase level row tree, fun rest => level.Closes rest.head?⟩

/-- Expressions with a particular kind behind them. -/
def expressionBefore (kind : TokenKind) : Shape :=
  ⟨fun row => ∃ tree, Phrase .expression row tree, fun rest => rest.head? = some kind⟩

section Chains

variable {rank : Rank} {next : Option TokenKind}

/-- A chain is one part, or a chain with an operator and a further part behind it. -/
@[elab_as_elim] theorem Phrase.chain_induction {motive : List TokenKind → Prop}
    (base : ∀ row tree, Phrase rank.below row tree → motive row)
    (step : ∀ first left second right, ∀ operator : BinaryOperator, operator.rank = rank →
      Phrase rank.level first left → motive first → Phrase rank.below second right →
      motive (first ++ operator.mark :: second))
    {row : List TokenKind} {tree : Expression} (h : Phrase rank.level row tree) : motive row := by
  generalize hlevel : rank.level = level at h
  induction h with
  | lone inner =>
      cases rank with
      | sum => cases hlevel
      | product => exact base _ _ inner
  | product operator hrank head tail ihhead _ =>
      cases rank with
      | sum => cases hlevel
      | product => exact step _ _ _ _ operator hrank head (ihhead hlevel) tail
  | single inner =>
      cases rank with
      | sum => exact base _ _ inner
      | product => cases hlevel
  | sum operator hrank head tail ihhead _ =>
      cases rank with
      | sum => exact step _ _ _ _ operator hrank head (ihhead hlevel) tail
      | product => cases hlevel
  | _ => cases rank <;> cases hlevel

/-- A chain starts with a part, and behind it comes nothing, or an operator and a further chain. -/
theorem Phrase.exists_first_part {row : List TokenKind} {tree : Expression}
    (h : Phrase rank.level row tree) : ∃ first left more, row = first ++ more ∧
      Phrase rank.below first left ∧ (more = [] ∨ ∃ operator : BinaryOperator, ∃ rest right,
        operator.rank = rank ∧ more = operator.mark :: rest ∧ Phrase rank.level rest right) := by
  refine Phrase.chain_induction ?_ ?_ h
  · intro row tree hpart
    exact ⟨row, tree, [], (List.append_nil row).symm, hpart, .inl rfl⟩
  · rintro _ _ second right operator hrank - ⟨first, left, more, rfl, hfirst, hmore⟩ hsecond
    rcases hmore with rfl | ⟨other, rest, last, hother, rfl, hrest⟩
    · refine ⟨first, left, operator.mark :: second, by simp, hfirst, .inr ?_⟩
      exact ⟨operator, second, right, hrank, rfl, hsecond.ofBelow⟩
    · refine ⟨first, left, other.mark :: (rest ++ operator.mark :: second), by simp, hfirst, .inr ?_⟩
      exact ⟨other, _, _, hother, rfl, hrest.join hrank hsecond⟩

theorem mem_ranks_level {other : Rank} :
    other ∈ rank.level.ranks ↔ other = rank ∨ other ∈ rank.below.ranks := by
  cases rank <;> exact List.mem_cons

/-- An operator of a rank does not go on with the parts that it joins. -/
theorem closes_below_operator {operator : BinaryOperator} (hrank : operator.rank = rank) :
    rank.below.Closes (some operator.mark) := by
  refine closes_some.mpr fun other hother => operator?_mark_eq_none ?_
  rw [hrank]
  cases rank <;> cases hother <;> first | decide | contradiction

/-- A row that starts with a chain starts with a part of it; behind the part the chain is closed, or an
operator comes and a further chain. -/
theorem opens_level {row : List TokenKind} (h : rank.level.shape.Opens row) :
    ∃ first left more, row = first ++ more ∧ Phrase rank.below first left ∧
      rank.below.Closes more.head? ∧ (rank.level.Closes more.head? ∨
        ∃ operator : BinaryOperator, ∃ rest, operator.rank = rank ∧ more = operator.mark :: rest ∧
          rank.level.shape.Opens rest) := by
  obtain ⟨_, behind, rfl, ⟨tree, hchain⟩, hbehind⟩ := h
  obtain ⟨first, left, more, rfl, hfirst, rfl | ⟨operator, rest, right, hrank, rfl, hrest⟩⟩ :=
    hchain.exists_first_part
  · rw [List.append_nil]
    refine ⟨first, left, behind, rfl, hfirst, fun other hother => ?_, .inl hbehind⟩
    exact hbehind other (mem_ranks_level.mpr (.inr hother))
  · refine ⟨first, left, operator.mark :: (rest ++ behind), by simp, hfirst,
      closes_below_operator hrank, .inr ⟨operator, _, hrank, rfl, rest, behind, rfl, ⟨right, hrest⟩,
        hbehind⟩⟩

/-- Behind a chain and an operator of its rank a further chain starts. -/
theorem opens_behind_operator {acc : List TokenKind} {left : Expression}
    (hacc : Phrase rank.level acc left) : ∀ {operator : BinaryOperator} {row : List TokenKind},
      operator.rank = rank → rank.level.shape.Opens (acc ++ operator.mark :: row) →
      rank.level.shape.Opens row := by
  have hpart : ∀ {part : List TokenKind} {left : Expression} {operator : BinaryOperator}
      {row : List TokenKind}, Phrase rank.below part left → operator.rank = rank →
      rank.level.shape.Opens (part ++ operator.mark :: row) → rank.level.shape.Opens row := by
    intro part left operator row hpart hrank hopens
    obtain ⟨first, _, more, hrow, hfirst, hcloses, hmore⟩ := opens_level hopens
    have hoperator : rank.below.Closes (operator.mark :: row).head? := closes_below_operator hrank
    obtain ⟨-, rfl⟩ := hpart.split_unique hfirst hoperator hcloses hrow
    rcases hmore with hclosed | ⟨other, rest, -, hmark, hrest⟩
    · have hnone := closes_some.mp hclosed rank (mem_ranks_level.mpr (.inl rfl))
      rw [Rank.operator?_eq_some_iff.mpr ⟨rfl, hrank⟩] at hnone
      cases hnone
    · obtain ⟨-, rfl⟩ := List.cons.inj hmark
      exact hrest
  refine Phrase.chain_induction ?_ ?_ hacc
  · intro part tree hphrase operator row hrank hopens
    exact hpart hphrase hrank hopens
  · intro first _ second _ other hother _ ih hsecond operator row hrank hopens
    rw [List.append_assoc, List.cons_append] at hopens
    exact hpart hsecond hrank (ih hother hopens)

theorem opens_below {row : List TokenKind} (h : rank.level.shape.Opens row) :
    rank.below.shape.Opens row := by
  obtain ⟨first, left, more, hrow, hfirst, hcloses, -⟩ := opens_level h
  exact ⟨first, more, hrow, ⟨left, hfirst⟩, hcloses⟩

/-- A chain starts with a part. -/
theorem within_part : Within rank.below.shape rank.level.shape [] next where
  extend := by
    rintro row ⟨tree, hpart⟩
    exact ⟨[], tree, by simpa using hpart.ofBelow⟩
  opens _ _ hopens := opens_below hopens

/-- Behind a chain and an operator of its rank a part comes. -/
theorem within_link {acc : List TokenKind} {left : Expression} (hacc : Phrase rank.level acc left)
    {operator : BinaryOperator} (hrank : operator.rank = rank) :
    Within rank.below.shape rank.level.shape (acc ++ [operator.mark]) next where
  extend := by
    rintro row ⟨tree, hpart⟩
    exact ⟨[], _, by simpa using hacc.join hrank hpart⟩
  opens row _ hopens := by
    rw [List.append_assoc, List.singleton_append] at hopens
    exact opens_below (opens_behind_operator hacc hrank hopens)

end Chains

section Operands

variable {next : Option TokenKind}

theorem within_sign (sign : Sign) :
    Within Level.operand.shape Level.factor.shape [sign.mark] next where
  extend := by
    rintro row ⟨tree, hoperand⟩
    exact ⟨[], _, by simpa using Phrase.signed sign hoperand⟩
  opens row _ := by
    rintro ⟨_, rest, hrow, ⟨tree, hfactor⟩, -⟩
    cases hfactor with
    | unsigned hoperand =>
        obtain ⟨kind, others, rfl, hsign⟩ := hoperand.operand_head
        obtain ⟨rfl, -⟩ := List.cons.inj hrow
        cases sign <;> cases hsign
    | signed other hoperand =>
        obtain ⟨-, rfl⟩ := List.cons.inj hrow
        exact ⟨_, rest, rfl, ⟨_, hoperand⟩, nofun⟩

theorem within_unsigned (hnext : ∀ kind ∈ next, sign? kind = none) :
    Within Level.operand.shape Level.factor.shape [] next where
  extend := by
    rintro row ⟨tree, hoperand⟩
    exact ⟨[], tree, by simpa using Phrase.unsigned hoperand⟩
  opens row hrow := by
    rintro ⟨_, rest, hsplit, ⟨tree, hfactor⟩, -⟩
    cases hfactor with
    | unsigned hoperand => exact ⟨_, rest, hsplit, ⟨_, hoperand⟩, nofun⟩
    | signed sign hoperand =>
        have hnone := hnext sign.mark (by rw [← hrow, ← List.nil_append row, hsplit]; rfl)
        cases sign <;> cases hnone

theorem within_group :
    Within (expressionBefore .closeParen) Level.operand.shape [.openParen] next where
  extend := by
    rintro row ⟨tree, hexpression⟩
    exact ⟨[.closeParen], tree, by simpa using Phrase.group hexpression⟩
  opens row _ := by
    rintro ⟨_, rest, hrow, ⟨tree, hoperand⟩, -⟩
    cases hoperand with
    | literal | name => cases hrow
    | group hexpression =>
        obtain ⟨-, rfl⟩ := List.cons.inj hrow
        exact ⟨_, .closeParen :: rest, by simp, ⟨tree, hexpression⟩, rfl⟩

/-- The kinds that an operand starts with. -/
def isOperandStart : TokenKind → Bool
  | .integer _ | .identifier _ | .openParen => true
  | _ => false

theorem viable_operand : Level.operand.shape.Viable [] :=
  ⟨[.integer 0], _, .literal 0⟩

theorem refuses_operand (hnext : ∀ kind ∈ next, isOperandStart kind = false) :
    Level.operand.shape.Refuses [] next := by
  rintro tail rfl ⟨_, rest, hrow, ⟨tree, hoperand⟩, -⟩
  rw [List.nil_append] at hrow
  subst hrow
  cases hoperand <;> cases hnext _ rfl

end Operands

section Delimiters

variable {kind : TokenKind} {next : Option TokenKind}
  (hkind : kind = .semicolon ∨ kind = .closeParen)
include hkind

theorem within_expressionBefore :
    Within Level.expression.shape (expressionBefore kind) [] next where
  extend := by
    rintro row ⟨tree, hexpression⟩
    exact ⟨[], tree, by simpa using hexpression⟩
  opens row _ := by
    rintro ⟨first, rest, hrow, hwhole, hhead⟩
    refine ⟨first, rest, hrow, hwhole, ?_⟩
    change rest.head? = some kind at hhead
    change Level.Closes _ rest.head?
    rw [hhead]
    exact closes_delimiter .expression hkind

/-- Behind a whole expression the delimiter must come, unless an operator does. -/
theorem refuses_expressionBefore {row : List TokenKind} {tree : Expression}
    (h : Phrase .expression row tree) (hcloses : Level.expression.Closes next)
    (hnext : next ≠ some kind) : (expressionBefore kind).Refuses row next := by
  rintro tail rfl ⟨first, rest, hrow, ⟨other, hfirst⟩, hhead⟩
  change rest.head? = some kind at hhead
  obtain ⟨-, rfl⟩ := h.split_unique hfirst hcloses
    (by rw [hhead]; exact closes_delimiter .expression hkind) hrow
  exact hnext hhead

end Delimiters

/-- The items of a grammar; anything may stand behind one. -/
def itemShape {α : Type} (phrase : List TokenKind → α → Prop) : Shape :=
  ⟨fun row => ∃ item, phrase row item, fun _ => True⟩

/-- What stands before an expression in an item. -/
inductive Lead : List TokenKind → Prop where
  | initializer (name : String) : Lead [.varWord, .identifier name, .equals]
  | assigned (target : String) : Lead [.identifier target, .equals]
  | printed : Lead [.printWord, .openParen]

section Items

variable {next : Option TokenKind}

theorem within_initializer (name : String) :
    Within (expressionBefore .semicolon) (itemShape VariablePhrase)
      [.varWord, .identifier name, .equals] next where
  extend := by
    rintro row ⟨tree, hvalue⟩
    exact ⟨[.semicolon], _, by simpa using VariablePhrase.initialized name hvalue⟩
  opens row _ := by
    rintro ⟨_, rest, hrow, ⟨declared, hitem⟩, -⟩
    cases hitem with
    | bare => simp at hrow
    | initialized other hvalue =>
        simp only [List.cons_append, List.nil_append, List.append_assoc, List.cons.injEq] at hrow
        exact ⟨_, .semicolon :: rest, hrow.2.2.2, ⟨_, hvalue⟩, rfl⟩

theorem within_assigned (target : String) :
    Within (expressionBefore .semicolon) (itemShape StatementPhrase)
      [.identifier target, .equals] next where
  extend := by
    rintro row ⟨tree, hvalue⟩
    exact ⟨[.semicolon], _, by simpa using StatementPhrase.assign target hvalue⟩
  opens row _ := by
    rintro ⟨_, rest, hrow, ⟨statement, hitem⟩, -⟩
    cases hitem with
    | assign other hvalue =>
        simp only [List.cons_append, List.nil_append, List.append_assoc, List.cons.injEq] at hrow
        exact ⟨_, .semicolon :: rest, hrow.2.2, ⟨_, hvalue⟩, rfl⟩
    | print | empty => simp at hrow

theorem within_printed :
    Within (expressionBefore .closeParen) (itemShape StatementPhrase) [.printWord, .openParen]
      next where
  extend := by
    rintro row ⟨tree, hvalue⟩
    exact ⟨[.closeParen, .semicolon], _, by simpa using StatementPhrase.print hvalue⟩
  opens row _ := by
    rintro ⟨_, rest, hrow, ⟨statement, hitem⟩, -⟩
    cases hitem with
    | print hvalue =>
        simp only [List.cons_append, List.nil_append, List.append_assoc, List.cons.injEq] at hrow
        exact ⟨_, .closeParen :: .semicolon :: rest, hrow.2.2, ⟨_, hvalue⟩, rfl⟩
    | assign | empty => simp at hrow

end Items

/-- Items of a grammar, and then a phrase of the shape. -/
def Shape.after {α : Type} (rest : Shape) (phrase : List TokenKind → α → Prop) : Shape :=
  ⟨fun row => ∃ first list more, row = first ++ more ∧ Sequence phrase first list ∧ rest.whole more,
    rest.behind⟩

/-- The end of a block, with nothing behind it. -/
def endShape : Shape := ⟨(· = [.endWord]), (· = [])⟩

/-- A block from its statements on. -/
def statementsShape : Shape := endShape.after StatementPhrase

/-- A block from its variables on. -/
def varsShape : Shape := statementsShape.after VariablePhrase

/-- A block from its constants on. -/
def constantsShape : Shape := varsShape.after ConstantPhrase

/-- A whole block, with nothing behind it. -/
def blockShape : Shape := ⟨fun row => ∃ tree, BlockPhrase row tree, (· = [])⟩

theorem Sequence.append {α : Type} {phrase : List TokenKind → α → Prop}
    {first second : List TokenKind} {left right : List α} (hleft : Sequence phrase first left)
    (hright : Sequence phrase second right) :
    Sequence phrase (first ++ second) (left ++ right) := by
  induction hleft with
  | nil => exact hright
  | cons head tail ih =>
      rw [List.append_assoc]
      exact .cons head ih

/-- Items that can be told from each other and, by the kinds they start with, from what follows. -/
structure Repeats {α : Type} (phrase : List TokenKind → α → Prop) (starts : TokenKind → Bool)
    (rest : Shape) : Prop where
  delimited : Delimited phrase
  head : ∀ {row item}, phrase row item → ∃ kind rest, row = kind :: rest ∧ starts kind = true
  follow : ∀ {row}, rest.whole row → ∃ kind more, row = kind :: more ∧ starts kind = false
  inhabited : ∃ row, rest.whole row

namespace Repeats

variable {α : Type} {phrase : List TokenKind → α → Prop} {starts : TokenKind → Bool} {rest : Shape}
  {next : Option TokenKind} (h : Repeats phrase starts rest)
include h

/-- Behind some of the items the others come. -/
theorem within_items {first : List TokenKind} {list : List α} (hfirst : Sequence phrase first list) :
    Within (rest.after phrase) (rest.after phrase) first next where
  extend := by
    rintro _ ⟨second, others, more, rfl, hsecond, hmore⟩
    refine ⟨[], first ++ second, _, more, ?_, hfirst.append hsecond, hmore⟩
    rw [List.append_nil, List.append_assoc]
  opens row _ := by
    rintro ⟨_, behind, hrow, ⟨second, others, more, rfl, hsecond, hmore⟩, hbehind⟩
    rw [List.append_assoc] at hrow
    obtain ⟨kind, tail, rfl, hkind⟩ := h.follow hmore
    obtain ⟨middle, list, hmiddle, -, rfl⟩ :=
      hfirst.strip h.delimited h.head ⟨kind, _, rfl, hkind⟩ hsecond hrow
    exact ⟨middle ++ kind :: tail, behind, by simp, ⟨middle, list, _, rfl, hmiddle, hmore⟩, hbehind⟩

/-- A kind that starts an item is the head of one. -/
theorem within_item {kind : TokenKind} (hkind : starts kind = true) :
    Within (itemShape phrase) (rest.after phrase) [] (some kind) where
  extend := by
    rintro row ⟨item, hitem⟩
    obtain ⟨more, hmore⟩ := h.inhabited
    refine ⟨more, row, [item], more, rfl, ?_, hmore⟩
    simpa using Sequence.cons hitem .nil
  opens row hhead := by
    rintro ⟨_, behind, rfl, ⟨first, list, more, rfl, hfirst, hmore⟩, -⟩
    cases hfirst with
    | nil =>
        obtain ⟨other, tail, rfl, hother⟩ := h.follow hmore
        obtain rfl := Option.some.inj hhead
        simp [hkind] at hother
    | cons hitem htail =>
        rw [List.append_assoc, List.append_assoc]
        exact ⟨_, _, rfl, ⟨_, hitem⟩, trivial⟩

/-- A kind that starts no item is the head of what follows them. -/
theorem within_rest (hnext : ∀ kind ∈ next, starts kind = false) :
    Within rest (rest.after phrase) [] next where
  extend := by
    intro row hrow
    exact ⟨[], [], [], row, by simp, .nil, hrow⟩
  opens row hhead := by
    rintro ⟨_, behind, rfl, ⟨first, list, more, rfl, hfirst, hmore⟩, hbehind⟩
    cases hfirst with
    | nil => exact ⟨more, behind, rfl, hmore, hbehind⟩
    | cons hitem htail =>
        obtain ⟨kind, tail, rfl, hkind⟩ := h.head hitem
        have hfalse := hnext kind (by rw [← hhead]; rfl)
        simp [hkind] at hfalse

end Repeats

theorem repeats_statements : Repeats StatementPhrase (· != .endWord) endShape where
  delimited := statementPhrase_delimited
  head := (statement_spec Position.none).head
  follow := by
    rintro _ rfl
    exact ⟨_, _, rfl, rfl⟩
  inhabited := ⟨_, rfl⟩

theorem repeats_vars : Repeats VariablePhrase (· == .varWord) statementsShape where
  delimited := variablePhrase_delimited
  head := (variable_spec Position.none).head
  follow := by
    rintro _ ⟨first, list, _, rfl, hstatements, rfl⟩
    exact head_behind_vars hstatements
  inhabited := ⟨_, [], [], _, rfl, .nil, rfl⟩

theorem repeats_constants : Repeats ConstantPhrase (· == .constWord) varsShape where
  delimited := constantPhrase_delimited
  head := (constant_spec Position.none).head
  follow := by
    rintro _ ⟨second, vars, _, rfl, hvars, first, list, _, rfl, hstatements, rfl⟩
    exact head_behind_constants hvars hstatements
  inhabited := ⟨_, [], [], _, rfl, .nil, [], [], _, rfl, .nil, rfl⟩

/-- A block is the word that starts it, and then its items and its end. -/
theorem whole_block_iff {row : List TokenKind} :
    blockShape.whole row ↔ ∃ rest, row = .beginWord :: rest ∧ constantsShape.whole rest := by
  constructor
  · rintro ⟨tree, hconstants, hvars, hstatements⟩
    exact ⟨_, rfl, _, _, _, rfl, hconstants, _, _, _, rfl, hvars, _, _, _, rfl, hstatements, rfl⟩
  · rintro ⟨_, rfl, _, _, _, rfl, hconstants, _, _, _, rfl, hvars, _, _, _, rfl, hstatements, rfl⟩
    exact ⟨_, .mk hconstants hvars hstatements⟩

theorem within_block {next : Option TokenKind} :
    Within constantsShape blockShape [.beginWord] next where
  extend row hrow := ⟨[], whole_block_iff.mpr ⟨row, by simp, hrow⟩⟩
  opens row _ := by
    rintro ⟨_, behind, hrow, hwhole, hbehind⟩
    obtain ⟨rest, rfl, hrest⟩ := whole_block_iff.mp hwhole
    obtain ⟨-, rfl⟩ := List.cons.inj hrow
    exact ⟨rest, behind, rfl, hrest, hbehind⟩

end PlZero.Source

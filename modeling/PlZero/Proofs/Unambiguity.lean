import PlZero.Proofs.Acceptance

/-! A row of kinds has one syntax tree. An expression ends where the reader stops, whatever names it
uses, so each item of a block is the one item that its row starts with. Main statement: two blocks with
one row are one block. -/

namespace PlZero.Source

/-- A part stands at the head of a row in one way only. -/
def Delimited {α : Type} (part : List TokenKind → α → Prop) : Prop :=
  ∀ {first second rest others : List TokenKind} {item other : α}, part first item →
    part second other → first ++ rest = second ++ others → item = other ∧ rest = others

/-- Tokens of the given kinds that stand nowhere. -/
def unplaced (row : List TokenKind) : List Token :=
  row.map fun kind => ⟨kind, Position.none⟩

theorem kinds_unplaced (row : List TokenKind) : kinds (unplaced row) = row := by
  rw [kinds, unplaced, List.map_map]
  exact List.map_id row

/-- A table in which all of the names have a value. -/
def tableOf (names : List String) : SymbolTable :=
  ⟨names.map fun name => (name, .constant)⟩

theorem usable_tableOf {names : List String} {used : String} (hused : used ∈ names) :
    (tableOf names).Usable used := by
  refine ⟨.constant, ?_, nofun⟩
  simp only [SymbolTable.class?, tableOf]
  induction names with
  | nil => cases hused
  | cons name names ih =>
      rw [List.map_cons, List.lookup_cons]
      by_cases hname : used = name
      · rw [hname, BEq.rfl]
      · rw [beq_false_of_ne hname]
        exact ih ((List.mem_cons.mp hused).resolve_left hname)

/-- The ranks whose operators go on with a phrase of the level. -/
def Level.ranks : Level → List Rank
  | expression => [.sum, .product]
  | term => [.product]
  | _ => []

/-- The next kind, if there is one, is no operator that could go on with a phrase of the level. -/
def Level.Closes (level : Level) (next : Option TokenKind) : Prop :=
  ∀ rank ∈ level.ranks, ∀ kind ∈ next, rank.operator? kind = none

theorem closes_some {level : Level} {kind : TokenKind} :
    level.Closes (some kind) ↔ ∀ rank ∈ level.ranks, rank.operator? kind = none := by
  simp [Level.Closes]

theorem ends_unplaced {level : Level} {row : List TokenKind} (hcloses : level.Closes row.head?)
    {rank : Rank} (hrank : rank ∈ level.ranks) : Ends rank (unplaced row) := by
  intro token rest htokens
  cases row with
  | nil => cases htokens
  | cons kind others =>
      obtain ⟨rfl, -⟩ := List.cons.inj htokens
      exact closes_some.mp hcloses rank hrank

/-- A phrase is read as a whole if nothing behind it could go on with it. -/
theorem Phrase.read_unplaced (finish : Position) {table : SymbolTable} {level : Level}
    {row rest : List TokenKind} {tree : Expression} (h : Phrase level row tree)
    (hcovers : table.Covers tree) (hcloses : level.Closes rest.head?) :
    read finish table level (unplaced (row ++ rest)) = .ok (tree, unplaced rest) := by
  have hends := @ends_unplaced level rest hcloses
  rw [unplaced, List.map_append, ← unplaced, ← unplaced,
    h.read_append hcovers (unplaced row) (unplaced rest) (kinds_unplaced row)
      fun hlevel => hends (by rw [hlevel]; decide)]
  cases level with
  | expression => exact extend_of_ends (hends (by decide))
  | term => exact extend_of_ends (hends (by decide))
  | factor => rfl
  | operand => rfl

/-- A row starts with one phrase of a level only, if nothing behind it could go on with it. -/
theorem Phrase.split_unique {level : Level} {first second rest others : List TokenKind}
    {left right : Expression} (hfirst : Phrase level first left) (hsecond : Phrase level second right)
    (hrest : level.Closes rest.head?) (hothers : level.Closes others.head?)
    (h : first ++ rest = second ++ others) : left = right ∧ rest = others := by
  -- Reading depends on the names used only through the table, so one that holds all of them serves.
  have hleft : (tableOf (left.names ++ right.names)).Covers left := fun _ hused =>
    usable_tableOf (List.mem_append_left _ hused)
  have hright : (tableOf (left.names ++ right.names)).Covers right := fun _ hused =>
    usable_tableOf (List.mem_append_right _ hused)
  have hread := hfirst.read_unplaced Position.none hleft hrest
  rw [h, hsecond.read_unplaced Position.none hright hothers] at hread
  obtain ⟨htree, htokens⟩ := Prod.mk.inj (Except.ok.inj hread)
  have hrow := congrArg kinds htokens
  rw [kinds_unplaced, kinds_unplaced] at hrow
  exact ⟨htree.symm, hrow.symm⟩

theorem closes_delimiter (level : Level) {kind : TokenKind}
    (hkind : kind = .semicolon ∨ kind = .closeParen) : level.Closes (some kind) := by
  refine closes_some.mpr fun rank _ => ?_
  rcases hkind with rfl | rfl <;> cases rank <;> rfl

/-- Two expressions that start one row, each with a delimiter behind it, are one expression. -/
theorem Phrase.delimited {first second rest others : List TokenKind} {left right : Expression}
    {kind other : TokenKind} (hfirst : Phrase .expression first left)
    (hsecond : Phrase .expression second right) (hkind : kind = .semicolon ∨ kind = .closeParen)
    (hother : other = .semicolon ∨ other = .closeParen)
    (h : first ++ kind :: rest = second ++ other :: others) :
    left = right ∧ kind :: rest = other :: others :=
  hfirst.split_unique hsecond (closes_delimiter _ hkind) (closes_delimiter _ hother) h

theorem constantPhrase_delimited : Delimited ConstantPhrase := by
  intro first second rest others item other hfirst hsecond h
  cases hfirst with
  | unsigned name value =>
      cases hsecond with
      | unsigned => simp_all
      | signed _ sign => cases sign <;> simp [Sign.mark] at h
  | signed name sign value =>
      cases hsecond with
      | unsigned => cases sign <;> simp [Sign.mark] at h
      | signed _ sign' => cases sign <;> cases sign' <;> simp_all [Sign.mark]

theorem variablePhrase_delimited : Delimited VariablePhrase := by
  intro first second rest others item other hfirst hsecond h
  cases hfirst with
  | bare name =>
      cases hsecond with
      | bare => simp_all
      | initialized => simp at h
  | initialized name value =>
      cases hsecond with
      | bare => simp at h
      | initialized _ value' =>
          simp only [List.cons_append, List.append_assoc, List.nil_append, List.cons.injEq,
            TokenKind.identifier.injEq, true_and] at h
          obtain ⟨rfl, h⟩ := h
          obtain ⟨rfl, hrest⟩ := value.delimited value' (.inl rfl) (.inl rfl) h
          exact ⟨rfl, List.tail_eq_of_cons_eq hrest⟩

theorem statementPhrase_delimited : Delimited StatementPhrase := by
  intro first second rest others item other hfirst hsecond h
  cases hfirst with
  | assign target value =>
      cases hsecond with
      | assign _ value' =>
          simp only [List.cons_append, List.append_assoc, List.nil_append, List.cons.injEq,
            TokenKind.identifier.injEq, true_and] at h
          obtain ⟨rfl, h⟩ := h
          obtain ⟨rfl, hrest⟩ := value.delimited value' (.inl rfl) (.inl rfl) h
          exact ⟨rfl, List.tail_eq_of_cons_eq hrest⟩
      | print => simp at h
      | empty => simp at h
  | print value =>
      cases hsecond with
      | print value' =>
          simp only [List.cons_append, List.append_assoc, List.nil_append, List.cons.injEq,
            true_and] at h
          obtain ⟨rfl, hrest⟩ := value.delimited value' (.inr rfl) (.inr rfl) h
          exact ⟨rfl, List.tail_eq_of_cons_eq (List.tail_eq_of_cons_eq hrest)⟩
      | assign => simp at h
      | empty => simp at h
  | empty =>
      cases hsecond with
      | empty => simp_all
      | assign => simp at h
      | print => simp at h

/-- A sequence of items at the head of a row is the start of a longest one there. -/
theorem Sequence.strip {α : Type} {phrase : List TokenKind → α → Prop} {starts : TokenKind → Bool}
    (hphrase : Delimited phrase)
    (hhead : ∀ {row item}, phrase row item → ∃ kind rest, row = kind :: rest ∧ starts kind = true)
    {rest others : List TokenKind} (hothers : ∃ kind row, others = kind :: row ∧ starts kind = false)
    {first : List TokenKind} {left : List α} (hleft : Sequence phrase first left) :
    ∀ {second : List TokenKind} {right : List α}, Sequence phrase second right →
      first ++ rest = second ++ others → ∃ middle list, Sequence phrase middle list ∧
        right = left ++ list ∧ rest = middle ++ others := by
  induction hleft with
  | nil =>
      intro second right hright h
      exact ⟨second, right, hright, rfl, h⟩
  | cons head tail ih =>
      intro second right hright h
      cases hright with
      | nil =>
          obtain ⟨kind, row, rfl, hstarts⟩ := hhead head
          obtain ⟨_, _, rfl, hstops⟩ := hothers
          obtain ⟨rfl, -⟩ := List.cons.inj h
          simp [hstarts] at hstops
      | cons head' tail' =>
          rw [List.append_assoc, List.append_assoc] at h
          obtain ⟨rfl, h⟩ := hphrase head head' h
          obtain ⟨middle, list, hlist, rfl, hrest⟩ := ih tail' h
          exact ⟨middle, list, hlist, rfl, hrest⟩

/-- Two sequences of items that start one row are one sequence, if behind either no further item
starts. -/
theorem Sequence.delimited {α : Type} {phrase : List TokenKind → α → Prop}
    {starts : TokenKind → Bool} (hphrase : Delimited phrase)
    (hhead : ∀ {row item}, phrase row item → ∃ kind rest, row = kind :: rest ∧ starts kind = true)
    {rest others : List TokenKind} (hrest : ∃ kind row, rest = kind :: row ∧ starts kind = false)
    (hothers : ∃ kind row, others = kind :: row ∧ starts kind = false) {first : List TokenKind}
    {left : List α} (hleft : Sequence phrase first left) {second : List TokenKind} {right : List α}
    (hright : Sequence phrase second right) (h : first ++ rest = second ++ others) :
    left = right ∧ rest = others := by
  obtain ⟨middle, list, hlist, rfl, rfl⟩ := hleft.strip hphrase hhead hothers hright h
  cases hlist with
  | nil => exact ⟨(List.append_nil left).symm, rfl⟩
  | cons head tail =>
      obtain ⟨kind, row, rfl, hstarts⟩ := hhead head
      obtain ⟨_, _, hrow, hstops⟩ := hrest
      obtain ⟨rfl, -⟩ := List.cons.inj hrow
      simp [hstarts] at hstops

/-- Two blocks with one row are one block. -/
theorem BlockPhrase.unique {row : List TokenKind} {left right : Block} (hleft : BlockPhrase row left)
    (hright : BlockPhrase row right) : left = right := by
  obtain ⟨hconstants, hvars, hstatements⟩ := hleft
  generalize hrow : TokenKind.beginWord :: _ = row at hright
  obtain ⟨hconstants', hvars', hstatements'⟩ := hright
  have hrow := List.tail_eq_of_cons_eq hrow
  obtain ⟨rfl, hrow⟩ := hconstants.delimited constantPhrase_delimited
    (constant_spec Position.none).head (head_behind_constants hvars hstatements)
    (head_behind_constants hvars' hstatements') hconstants' hrow
  obtain ⟨rfl, hrow⟩ := hvars.delimited variablePhrase_delimited (variable_spec Position.none).head
    (head_behind_vars hstatements) (head_behind_vars hstatements') hvars' hrow
  obtain ⟨rfl, -⟩ := hstatements.delimited statementPhrase_delimited
    (statement_spec Position.none).head ⟨_, _, rfl, rfl⟩ ⟨_, _, rfl, rfl⟩ hstatements' hrow
  rfl

end PlZero.Source

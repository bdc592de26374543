import PlZero.Proofs.Attempt
import PlZero.Proofs.Naming

/-! What the reader makes of an expression. The functions of the reader carry proofs that they use
tokens up; their views forget these, and a few equations say how the view of one level goes back to the
next tighter one. Main statements: what is read is a phrase of the grammar whose names may be used, and
every such phrase is read. -/

namespace PlZero.Source

open PlZero.Attempt

variable {finish : Position} {table : SymbolTable}

/-- What was read and what is left, without the proof that something was used up. -/
def Parsed.view {α : Type} {tokens : List Token} (parsed : Parsed α tokens) : α × List Token :=
  (parsed.value, parsed.rest)

theorem view_eq_ok_iff {ε α : Type} {tokens rest : List Token} {value : α}
    {attempt : Except ε (Parsed α tokens)} : attempt.map Parsed.view = .ok (value, rest) ↔
      ∃ shorter, attempt = .ok ⟨value, rest, shorter⟩ := by
  constructor
  · intro h
    obtain ⟨⟨_, _, shorter⟩, hattempt, hview⟩ := map_eq_ok_iff.mp h
    obtain ⟨rfl, rfl⟩ := Prod.mk.inj hview
    exact ⟨shorter, hattempt⟩
  · rintro ⟨shorter, rfl⟩
    rfl

namespace Rank

/-- The level of the chains of a rank. -/
def level : Rank → Level
  | sum => .expression
  | product => .term

/-- The level of the parts that a rank joins. -/
def below : Rank → Level
  | sum => .term
  | product => .factor

theorem operator?_eq_some_iff {rank : Rank} {kind : TokenKind} {operator : BinaryOperator} :
    rank.operator? kind = some operator ↔ kind = operator.mark ∧ operator.rank = rank := by
  constructor
  · intro h
    cases rank <;> cases kind <;> cases h <;> exact ⟨rfl, rfl⟩
  · rintro ⟨rfl, rfl⟩
    cases operator <;> rfl

end Rank

theorem sign?_eq_some_iff {kind : TokenKind} {sign : Sign} :
    sign? kind = some sign ↔ kind = sign.mark := by
  constructor
  · intro h
    cases kind <;> cases h <;> rfl
  · rintro rfl
    cases sign <;> rfl

/-- Reads an expression of a level. -/
def read (finish : Position) (table : SymbolTable) (level : Level) (tokens : List Token) :
    Except Fault (Expression × List Token) :=
  match level with
  | .expression => (chain finish table .sum tokens).map Parsed.view
  | .term => (chain finish table .product tokens).map Parsed.view
  | .factor => (factor finish table tokens).map Parsed.view
  | .operand => (operand finish table tokens).map Parsed.view

/-- Reads the operators and parts of a rank that follow `left`. -/
def extend (finish : Position) (table : SymbolTable) (rank : Rank) (left : Expression)
    (tokens : List Token) : Except Fault (Expression × List Token) :=
  (links finish table rank left (nextToken finish tokens :: tokens) tokens
    (Nat.lt_succ_self _)).map Parsed.view

/-- The list that a chain started with only bounds what is left of it. -/
theorem view_links (rank : Rank) (left : Expression) (tokens whole other : List Token)
    (hwhole : tokens.length < whole.length) (hother : tokens.length < other.length) :
    (links finish table rank left whole tokens hwhole).map Parsed.view =
      (links finish table rank left other tokens hother).map Parsed.view := by
  induction hlength : tokens.length using Nat.strong_induction_on generalizing left tokens with
  | _ length ih =>
      cases tokens with
      | nil =>
          rw [links, links]
          rfl
      | cons token rest =>
          rw [links, links]
          cases rank.operator? token.kind with
          | none => rfl
          | some operator =>
              cases part finish table rank rest with
              | error fault => rfl
              | ok parsed =>
                  obtain ⟨right, remainder, hshorter⟩ := parsed
                  refine ih remainder.length ?_ _ remainder _ _ rfl
                  rw [← hlength, List.length_cons]
                  omega

theorem view_part (rank : Rank) (tokens : List Token) :
    (part finish table rank tokens).map Parsed.view = read finish table rank.below tokens := by
  cases rank <;> rw [part] <;> rfl

theorem read_chain (rank : Rank) (tokens : List Token) :
    read finish table rank.level tokens =
      read finish table rank.below tokens >>= fun found => extend finish table rank found.1 found.2 := by
  have hchain : read finish table rank.level tokens =
      (chain finish table rank tokens).map Parsed.view := by cases rank <;> rfl
  rw [hchain, ← view_part, chain]
  cases part finish table rank tokens with
  | error fault => rfl
  | ok parsed => exact view_links rank _ _ _ _ _ _

theorem extend_nil (rank : Rank) (left : Expression) :
    extend finish table rank left [] = .ok (left, []) := by
  rw [extend, links]
  rfl

theorem extend_stop {rank : Rank} {token : Token} (left : Expression) (rest : List Token)
    (hstop : rank.operator? token.kind = none) :
    extend finish table rank left (token :: rest) = .ok (left, token :: rest) := by
  rw [extend, links]
  simp only [hstop]
  rfl

theorem extend_join {rank : Rank} {token : Token} (operator : BinaryOperator) (left : Expression)
    (rest : List Token) (hrank : operator.rank = rank) (htoken : token.kind = operator.mark) :
    extend finish table rank left (token :: rest) =
      read finish table rank.below rest >>= fun found =>
        extend finish table rank (.binary operator left found.1) found.2 := by
  have hoperator : rank.operator? token.kind = some operator :=
    Rank.operator?_eq_some_iff.mpr ⟨htoken, hrank⟩
  rw [extend, links, ← view_part]
  simp only [hoperator]
  cases part finish table rank rest with
  | error fault => rfl
  | ok parsed => exact view_links _ _ _ _ _ _ _

theorem read_factor_unsigned {tokens : List Token}
    (hsign : ∀ token rest, tokens = token :: rest → sign? token.kind = none) :
    read finish table .factor tokens = read finish table .operand tokens := by
  cases tokens with
  | nil =>
      rw [read, factor]
      rfl
  | cons token rest =>
      rw [read, factor]
      simp only [hsign token rest rfl]
      rfl

theorem read_factor_signed {token : Token} (sign : Sign) (rest : List Token)
    (htoken : token.kind = sign.mark) :
    read finish table .factor (token :: rest) =
      (read finish table .operand rest).map fun found => (.signed sign found.1, found.2) := by
  rw [read, factor]
  simp only [sign?_eq_some_iff.mpr htoken, read]
  cases operand finish table rest with
  | error fault => rfl
  | ok parsed => rfl

theorem expect_eq_ok_iff {place : Place} {tokens rest : List Token} :
    (expect finish place tokens).map Parsed.rest = .ok rest ↔
      ∃ token, tokens = token :: rest ∧ token.kind = place.wanted := by
  cases tokens with
  | nil => simp [expect, Except.map]
  | cons token others =>
      by_cases hkind : token.kind = place.wanted
      · simp only [expect, if_pos hkind, Except.map, Except.ok.injEq, List.cons.injEq]
        constructor
        · rintro rfl
          exact ⟨token, ⟨rfl, rfl⟩, hkind⟩
        · rintro ⟨_, ⟨rfl, rfl⟩, _⟩
          rfl
      · simp only [expect, if_neg hkind, Except.map, List.cons.injEq]
        constructor
        · intro h
          cases h
        · rintro ⟨_, ⟨rfl, rfl⟩, h⟩
          exact absurd h hkind

theorem read_operand_literal {token : Token} {value : Int32} (rest : List Token)
    (htoken : token.kind = .integer value) :
    read finish table .operand (token :: rest) = .ok (.literal value, rest) := by
  obtain ⟨kind, position⟩ := token
  subst htoken
  rw [read, operand]
  rfl

theorem read_operand_name {token : Token} {used : String} (rest : List Token)
    (htoken : token.kind = .identifier used) (husable : table.Usable used) :
    read finish table .operand (token :: rest) = .ok (.name used, rest) := by
  obtain ⟨kind, position⟩ := token
  obtain ⟨cls, hclass, hvalue⟩ := husable
  subst htoken
  rw [read, operand]
  simp only [hclass]
  cases cls with
  | uninitialized => exact absurd rfl hvalue
  | initialized => rfl
  | constant => rfl

theorem read_operand_group {token : Token} (rest : List Token) (htoken : token.kind = .openParen) :
    read finish table .operand (token :: rest) =
      read finish table .expression rest >>= fun found =>
        (expect finish .groupEnd found.2).map fun closed => (found.1, closed.rest) := by
  obtain ⟨kind, position⟩ := token
  subst htoken
  change (operand finish table _).map Parsed.view = (chain finish table .sum rest).map Parsed.view >>= _
  rw [operand]
  cases chain finish table .sum rest with
  | error fault => rfl
  | ok parsed =>
      simp only [Except.map, Parsed.view, ok_bind]
      cases expect finish .groupEnd parsed.rest with
      | error fault => rfl
      | ok closed => rfl

/-- An operand that is read is a literal, a name that may be used, or a group. -/
theorem read_operand_cases {tokens rest : List Token} {tree : Expression}
    (h : read finish table .operand tokens = .ok (tree, rest)) :
    (∃ token value, tokens = token :: rest ∧ token.kind = .integer value ∧ tree = .literal value) ∨
    (∃ token used, tokens = token :: rest ∧ token.kind = .identifier used ∧ tree = .name used ∧
      table.Usable used) ∨
    (∃ token inner close, tokens = token :: inner ∧ token.kind = .openParen ∧
      close.kind = .closeParen ∧ read finish table .expression inner = .ok (tree, close :: rest)) := by
  rcases tokens with _ | ⟨⟨kind, position⟩, others⟩
  · rw [read, operand] at h
    cases h
    all_goals simp
  cases kind with
  | integer value =>
      rw [read_operand_literal others rfl] at h
      cases h
      exact Or.inl ⟨_, value, rfl, rfl, rfl⟩
  | identifier used =>
      rw [read, operand] at h
      cases hclass : table.class? used with
      | none => simp [hclass, Except.map] at h
      | some cls =>
          cases cls with
          | uninitialized => simp [hclass, Except.map] at h
          | initialized =>
              simp only [hclass, Except.map, Parsed.view, Except.ok.injEq, Prod.mk.injEq] at h
              obtain ⟨rfl, rfl⟩ := h
              exact Or.inr (Or.inl ⟨_, used, rfl, rfl, rfl, _, hclass, by decide⟩)
          | constant =>
              simp only [hclass, Except.map, Parsed.view, Except.ok.injEq, Prod.mk.injEq] at h
              obtain ⟨rfl, rfl⟩ := h
              exact Or.inr (Or.inl ⟨_, used, rfl, rfl, rfl, _, hclass, by decide⟩)
  | openParen =>
      rw [read_operand_group others rfl, bind_eq_ok_iff] at h
      obtain ⟨found, hfound, hclose⟩ := h
      obtain ⟨closed, hclosed, hresult⟩ := map_eq_ok_iff.mp hclose
      cases hresult
      obtain ⟨close, hrest, hkind⟩ := expect_eq_ok_iff.mp (map_eq_ok_iff.mpr ⟨closed, hclosed, rfl⟩)
      refine Or.inr (Or.inr ⟨_, others, close, rfl, rfl, hkind, ?_⟩)
      rw [hfound, ← hrest]
  | _ =>
      rw [read, operand] at h
      · cases h
      all_goals simp

/-- No operator of the rank stands at the head of the tokens. -/
def Ends (rank : Rank) (tokens : List Token) : Prop :=
  ∀ token rest, tokens = token :: rest → rank.operator? token.kind = none

theorem ends_cons {rank : Rank} {token : Token} {rest : List Token} :
    Ends rank (token :: rest) ↔ rank.operator? token.kind = none := by
  constructor
  · intro h
    exact h token rest rfl
  · rintro h _ _ ⟨⟩
    exact h

/-- Where a chain does not end an operator of its rank comes next. -/
theorem exists_operator {rank : Rank} {tokens : List Token} (hends : ¬Ends rank tokens) :
    ∃ token others, ∃ operator : BinaryOperator,
      tokens = token :: others ∧ operator.rank = rank ∧ token.kind = operator.mark := by
  simp only [Ends, not_forall] at hends
  obtain ⟨token, others, htokens, hsome⟩ := hends
  obtain ⟨operator, hoperator⟩ := Option.ne_none_iff_exists'.mp hsome
  obtain ⟨htoken, hrank⟩ := Rank.operator?_eq_some_iff.mp hoperator
  exact ⟨token, others, operator, htokens, hrank, htoken⟩

theorem extend_of_ends {rank : Rank} {left : Expression} {tokens : List Token}
    (hends : Ends rank tokens) : extend finish table rank left tokens = .ok (left, tokens) := by
  cases tokens with
  | nil => exact extend_nil rank left
  | cons token rest => exact extend_stop left rest (hends token rest rfl)

theorem operator?_mark_eq_none {rank : Rank} {operator : BinaryOperator}
    (hrank : operator.rank ≠ rank) : rank.operator? operator.mark = none := by
  rw [Option.eq_none_iff_forall_ne_some]
  intro other h
  obtain ⟨hmark, hother⟩ := Rank.operator?_eq_some_iff.mp h
  refine hrank ?_
  cases operator <;> cases other <;> first | exact hother | cases hmark

/-- An operand starts with no sign. -/
theorem Phrase.operand_head {row : List TokenKind} {tree : Expression}
    (h : Phrase .operand row tree) : ∃ kind rest, row = kind :: rest ∧ sign? kind = none := by
  cases h with
  | literal value => exact ⟨_, _, rfl, rfl⟩
  | name used => exact ⟨_, _, rfl, rfl⟩
  | group inner => exact ⟨_, _, rfl, rfl⟩

/-- What the reader does behind a phrase of a level: a chain looks for further operators. -/
def resume (finish : Position) (table : SymbolTable) (level : Level) (tree : Expression)
    (rest : List Token) : Except Fault (Expression × List Token) :=
  match level with
  | .expression => extend finish table .sum tree rest
  | .term => extend finish table .product tree rest
  | _ => .ok (tree, rest)

/-- The reader takes a phrase as a whole and goes on behind it. The induction is on the phrase, which
groups to the left as the loops of the reader do: what `resume` says of the left part is where the loop
stands when it meets the operator. -/
theorem Phrase.read_append {level : Level} {row : List TokenKind} {tree : Expression}
    (h : Phrase level row tree) (hcovers : table.Covers tree) :
    ∀ used rest, kinds used = row → (level = .expression → Ends .product rest) →
      read finish table level (used ++ rest) = resume finish table level tree rest := by
  induction h with
  | literal value =>
      intro used rest hused _
      obtain ⟨token, _, rfl, htoken, hnil⟩ := List.map_eq_cons_iff.mp hused
      rw [List.map_eq_nil_iff.mp hnil]
      exact read_operand_literal rest htoken
  | name name =>
      intro used rest hused _
      obtain ⟨token, _, rfl, htoken, hnil⟩ := List.map_eq_cons_iff.mp hused
      rw [List.map_eq_nil_iff.mp hnil]
      exact read_operand_name rest htoken (hcovers name (List.mem_singleton.mpr rfl))
  | group inner ih =>
      intro used rest hused _
      obtain ⟨token, _, rfl, htoken, htail⟩ := List.map_eq_cons_iff.mp hused
      obtain ⟨body, last, rfl, hbody, hlast⟩ := List.map_eq_append_iff.mp htail
      obtain ⟨close, _, rfl, hclose, hnil⟩ := List.map_eq_cons_iff.mp hlast
      have hends : ∀ rank, Ends rank (close :: rest) := by
        intro rank
        rw [ends_cons, hclose]
        cases rank <;> rfl
      have hexpect : (expect finish .groupEnd (close :: rest)).map Parsed.rest = .ok rest :=
        expect_eq_ok_iff.mpr ⟨close, rfl, hclose⟩
      obtain ⟨closed, hclosed, hrest⟩ := map_eq_ok_iff.mp hexpect
      have hbodyread : read finish table .expression (body ++ close :: rest) =
          .ok (_, close :: rest) :=
        (ih hcovers body _ hbody fun _ => hends .product).trans (extend_of_ends (hends .sum))
      rw [List.map_eq_nil_iff.mp hnil, List.cons_append, List.append_assoc,
        read_operand_group _ htoken]
      simp only [List.singleton_append, hbodyread, ok_bind, hclosed, Except.map, hrest]
      rfl
  | unsigned inner ih =>
      intro used rest hused _
      obtain ⟨kind, others, hrow, hsign⟩ := inner.operand_head
      obtain ⟨token, more, rfl, htoken, _⟩ := List.map_eq_cons_iff.mp (hused.trans hrow)
      rw [read_factor_unsigned]
      · exact ih hcovers _ rest hused nofun
      · rintro _ _ ⟨⟩
        rw [htoken]
        exact hsign
  | signed sign inner ih =>
      intro used rest hused _
      obtain ⟨token, more, rfl, htoken, hmore⟩ := List.map_eq_cons_iff.mp hused
      rw [List.cons_append, read_factor_signed sign _ htoken, ih hcovers more rest hmore nofun]
      rfl
  | lone inner ih =>
      intro used rest hused _
      rw [show Level.term = Rank.product.level from rfl, read_chain]
      rw [show Rank.product.below = Level.factor from rfl, ih hcovers used rest hused nofun]
      rfl
  | product operator hrank head tail ihhead ihtail =>
      intro used rest hused _
      obtain ⟨first, others, rfl, hfirst, hothers⟩ := List.map_eq_append_iff.mp hused
      obtain ⟨token, second, rfl, htoken, hsecond⟩ := List.map_eq_cons_iff.mp hothers
      have hleft := ihhead (fun name hname => hcovers name (List.mem_append_left _ hname)) first
        (token :: second ++ rest) hfirst nofun
      have hright := ihtail (fun name hname => hcovers name (List.mem_append_right _ hname)) second
        rest hsecond nofun
      rw [List.append_assoc, hleft, resume, List.cons_append,
        extend_join operator _ _ hrank htoken]
      rw [show Rank.product.below = Level.factor from rfl, hright]
      rfl
  | single inner ih =>
      intro used rest hused hends
      have hterm := (ih hcovers used rest hused nofun).trans (extend_of_ends (hends rfl))
      rw [show Level.expression = Rank.sum.level from rfl, read_chain]
      rw [show Rank.sum.below = Level.term from rfl, hterm]
      rfl
  | sum operator hrank head tail ihhead ihtail =>
      intro used rest hused hends
      obtain ⟨first, others, rfl, hfirst, hothers⟩ := List.map_eq_append_iff.mp hused
      obtain ⟨token, second, rfl, htoken, hsecond⟩ := List.map_eq_cons_iff.mp hothers
      have hproduct : Ends .product (token :: (second ++ rest)) := by
        rw [ends_cons, htoken]
        exact operator?_mark_eq_none (by rw [hrank]; decide)
      have hleft := ihhead (fun name hname => hcovers name (List.mem_append_left _ hname)) first
        (token :: second ++ rest) hfirst fun _ => hproduct
      have hright := (ihtail (fun name hname => hcovers name (List.mem_append_right _ hname)) second
        rest hsecond nofun).trans (extend_of_ends (hends rfl))
      rw [List.append_assoc, hleft, resume, List.cons_append,
        extend_join operator _ _ hrank htoken]
      rw [show Rank.sum.below = Level.term from rfl, hright]
      rfl

/-- An expression with nothing behind it that could belong to it is read as a whole. -/
theorem Phrase.read_expression {row : List TokenKind} {tree : Expression}
    (h : Phrase .expression row tree) (hcovers : table.Covers tree) {used rest : List Token}
    (hused : kinds used = row) (hends : ∀ rank, Ends rank rest) :
    read finish table .expression (used ++ rest) = .ok (tree, rest) :=
  (h.read_append hcovers used rest hused fun _ => hends .product).trans
    (extend_of_ends (hends .sum))

/-! ### What is read is a phrase -/

theorem read_shorter {level : Level} {tokens rest : List Token} {tree : Expression}
    (h : read finish table level tokens = .ok (tree, rest)) : rest.length < tokens.length := by
  have hview : ∀ attempt : Except Fault (Parsed Expression tokens),
      attempt.map Parsed.view = .ok (tree, rest) → rest.length < tokens.length := by
    intro attempt hattempt
    obtain ⟨hshorter, _⟩ := view_eq_ok_iff.mp hattempt
    exact hshorter
  cases level <;> exact hview _ h

/-- Whatever is read from the tokens at the level is a phrase of it whose names may be used. -/
def SoundAt (finish : Position) (table : SymbolTable) (level : Level) (tokens : List Token) : Prop :=
  ∀ tree rest, read finish table level tokens = .ok (tree, rest) →
    ∃ used, tokens = used ++ rest ∧ Phrase level (kinds used) tree ∧ table.Covers tree

theorem soundAt_operand {tokens : List Token}
    (hinner : ∀ inner, inner.length < tokens.length → SoundAt finish table .expression inner) :
    SoundAt finish table .operand tokens := by
  intro tree rest h
  rcases read_operand_cases h with ⟨token, value, rfl, htoken, rfl⟩ |
    ⟨token, name, rfl, htoken, rfl, husable⟩ | ⟨token, inner, close, rfl, htoken, hclose, hread⟩
  · refine ⟨[token], rfl, ?_, nofun⟩
    rw [kinds_cons, htoken]
    exact .literal value
  · refine ⟨[token], rfl, ?_, ?_⟩
    · rw [kinds_cons, htoken]
      exact .name name
    · intro used hused
      rw [List.mem_singleton.mp hused]
      exact husable
  · obtain ⟨body, rfl, hphrase, hcovers⟩ := hinner inner (by simp) tree _ hread
    refine ⟨token :: (body ++ [close]), by simp, ?_, hcovers⟩
    rw [kinds_cons, kinds_append, kinds_cons, htoken, hclose]
    exact .group hphrase

theorem soundAt_factor {tokens : List Token}
    (hoperand : ∀ inner, inner.length ≤ tokens.length → SoundAt finish table .operand inner) :
    SoundAt finish table .factor tokens := by
  intro tree rest h
  by_cases hsigned : ∃ token others sign, tokens = token :: others ∧ token.kind = Sign.mark sign
  · obtain ⟨token, others, sign, rfl, htoken⟩ := hsigned
    rw [read_factor_signed sign others htoken] at h
    obtain ⟨⟨inner, left⟩, hread, hresult⟩ := map_eq_ok_iff.mp h
    cases hresult
    obtain ⟨used, rfl, hphrase, hcovers⟩ := hoperand others (by simp) inner left hread
    refine ⟨token :: used, rfl, ?_, hcovers⟩
    rw [kinds_cons, htoken]
    exact .signed sign hphrase
  · rw [read_factor_unsigned] at h
    · obtain ⟨used, hused, hphrase, hcovers⟩ := hoperand tokens le_rfl tree rest h
      exact ⟨used, hused, .unsigned hphrase, hcovers⟩
    · intro token others htokens
      rw [Option.eq_none_iff_forall_ne_some]
      intro sign hsign
      exact hsigned ⟨token, others, sign, htokens, sign?_eq_some_iff.mp hsign⟩

/-- The parts of a chain are phrases of the next tighter level, so the chain is one of its own. -/
theorem Phrase.join {rank : Rank} {first second : List TokenKind} {left right : Expression}
    {operator : BinaryOperator} (hrank : operator.rank = rank) (head : Phrase rank.level first left)
    (tail : Phrase rank.below second right) :
    Phrase rank.level (first ++ operator.mark :: second) (.binary operator left right) := by
  cases rank with
  | sum => exact .sum operator hrank head tail
  | product => exact .product operator hrank head tail

theorem Phrase.ofBelow {rank : Rank} {row : List TokenKind} {tree : Expression}
    (h : Phrase rank.below row tree) : Phrase rank.level row tree := by
  cases rank with
  | sum => exact .single h
  | product => exact .lone h

theorem extend_sound {rank : Rank} {row : List TokenKind} {left tree : Expression}
    {tokens rest : List Token}
    (hbelow : ∀ inner, inner.length < tokens.length → SoundAt finish table rank.below inner)
    (hleft : Phrase rank.level row left) (hcovers : table.Covers left)
    (h : extend finish table rank left tokens = .ok (tree, rest)) :
    ∃ used, tokens = used ++ rest ∧ Phrase rank.level (row ++ kinds used) tree ∧
      table.Covers tree := by
  induction hlength : tokens.length using Nat.strong_induction_on generalizing tokens left row with
  | _ length ih =>
      by_cases hends : Ends rank tokens
      · rw [extend_of_ends hends] at h
        cases h
        exact ⟨[], rfl, by simpa using hleft, hcovers⟩
      · obtain ⟨token, others, operator, rfl, hrank, htoken⟩ := exists_operator hends
        rw [extend_join operator left others hrank htoken, bind_eq_ok_iff] at h
        obtain ⟨⟨right, remainder⟩, hright, hmore⟩ := h
        change extend finish table rank (.binary operator left right) remainder = _ at hmore
        have hshorter : remainder.length < others.length := read_shorter hright
        obtain ⟨part, rfl, hpart, hnames⟩ := hbelow others (by simp) right remainder hright
        have hjoined := hleft.join hrank hpart
        have hall : table.Covers (.binary operator left right) := by
          intro name hname
          rcases List.mem_append.mp hname with h | h
          · exact hcovers name h
          · exact hnames name h
        obtain ⟨used, rfl, hphrase, hresult⟩ := ih remainder.length
          (by rw [← hlength, List.length_cons]; omega)
          (fun inner hinner => hbelow inner (by rw [List.length_cons]; omega)) hjoined hall hmore rfl
        refine ⟨token :: (part ++ used), by simp, ?_, hresult⟩
        rw [kinds_cons, kinds_append, htoken]
        simpa using hphrase

theorem soundAt_chain (rank : Rank) {tokens : List Token}
    (hbelow : ∀ inner, inner.length ≤ tokens.length → SoundAt finish table rank.below inner) :
    SoundAt finish table rank.level tokens := by
  intro tree rest h
  rw [read_chain, bind_eq_ok_iff] at h
  obtain ⟨⟨left, others⟩, hleft, hmore⟩ := h
  change extend finish table rank left others = _ at hmore
  have hshorter : others.length < tokens.length := read_shorter hleft
  obtain ⟨part, rfl, hpart, hcovers⟩ := hbelow tokens le_rfl left others hleft
  obtain ⟨used, rfl, hphrase, hresult⟩ := extend_sound
    (fun inner hinner => hbelow inner (by omega)) hpart.ofBelow hcovers hmore
  refine ⟨part ++ used, by simp, ?_, hresult⟩
  rw [kinds_append]
  exact hphrase

/-- The induction that the reader follows. It is on the number of tokens: a group goes back to an
expression of fewer tokens, and every other level to the next tighter one. -/
@[elab_as_elim] theorem level_induction {motive : Level → List Token → Prop}
    (operand : ∀ tokens, (∀ inner, inner.length < tokens.length → motive .expression inner) →
      motive .operand tokens)
    (factor : ∀ tokens, (∀ inner, inner.length ≤ tokens.length → motive .operand inner) →
      motive .factor tokens)
    (chain : ∀ (rank : Rank) tokens,
      (∀ inner, inner.length ≤ tokens.length → motive rank.below inner) → motive rank.level tokens)
    (level : Level) (tokens : List Token) : motive level tokens := by
  induction hlength : tokens.length using Nat.strong_induction_on generalizing level tokens with
  | _ length ih =>
      have hoperand : ∀ inner, inner.length ≤ tokens.length → motive .operand inner := by
        intro inner hle
        exact operand inner fun body hbody => ih body.length (by omega) .expression body rfl
      have hfactor : ∀ inner, inner.length ≤ tokens.length → motive .factor inner := by
        intro inner hle
        exact factor inner fun body hbody => hoperand body (by omega)
      have hterm : ∀ inner, inner.length ≤ tokens.length → motive .term inner := by
        intro inner hle
        exact chain .product inner fun body hbody => hfactor body (by omega)
      cases level with
      | expression => exact chain .sum tokens hterm
      | term => exact hterm tokens le_rfl
      | factor => exact hfactor tokens le_rfl
      | operand => exact hoperand tokens le_rfl

/-- What the reader takes for a phrase of a level is one. -/
theorem soundAt_level (level : Level) (tokens : List Token) : SoundAt finish table level tokens := by
  refine level_induction ?_ ?_ ?_ level tokens
  · intro tokens hinner
    exact soundAt_operand hinner
  · intro tokens hoperand
    exact soundAt_factor hoperand
  · intro rank tokens hbelow
    exact soundAt_chain rank hbelow

end PlZero.Source

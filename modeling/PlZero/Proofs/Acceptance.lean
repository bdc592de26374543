import PlZero.Proofs.Items

/-! What the reader makes of a block. A loop of items reads the longest sequence of them, so a block is
read exactly when it is one by the grammar and its items are allowed where they stand. Main statement:
tokens are accepted exactly when they are a block that keeps the rules on names. -/

namespace PlZero.Source

open PlZero.Attempt SymbolTable

/-- No item starts at the head of the tokens. -/
def Stops (starts : TokenKind → Bool) (tokens : List Token) : Prop :=
  ∀ token rest, tokens = token :: rest → starts token.kind = false

theorem stops_of_kinds {starts : TokenKind → Bool} {tokens : List Token}
    (h : ∃ kind row, kinds tokens = kind :: row ∧ starts kind = false) : Stops starts tokens := by
  rintro token rest rfl
  obtain ⟨kind, row, hkinds, hkind⟩ := h
  obtain ⟨rfl, -⟩ := List.cons.inj hkinds
  exact hkind

section Loop

variable {α : Type} {starts : TokenKind → Bool} {reader : ItemReader α}
  {phrase : List TokenKind → α → Prop} {allows : SymbolTable → α → Prop}
  {after : SymbolTable → α → SymbolTable}

theorem items_of_stops {table : SymbolTable} {found : List α} {tokens : List Token}
    (hstops : Stops starts tokens) :
    items starts reader table found tokens = .ok (found.reverse, table, tokens) := by
  cases tokens with
  | nil => rw [items]
  | cons token rest => rw [items, if_neg (by rw [hstops token rest rfl]; decide)]

theorem items_step {table declared : SymbolTable} {found : List α} {token : Token}
    {others rest : List Token} {item : α} (hstart : starts token.kind = true)
    (hread : (reader table (token :: others)).map Parsed.view = .ok ((item, declared), rest)) :
    items starts reader table found (token :: others) =
      items starts reader declared (item :: found) rest := by
  obtain ⟨shorter, hread⟩ := view_eq_ok_iff.mp hread
  rw [items, if_pos hstart]
  simp only [hread]

/-- A loop stops, fails at an item, or reads one and goes on. -/
@[elab_as_elim] theorem items_induction
    {motive : SymbolTable → List α → List Token → Except Rejection (List α × SymbolTable × List Token) →
      Prop}
    (stop : ∀ table found tokens, Stops starts tokens →
      motive table found tokens (.ok (found.reverse, table, tokens)))
    (fail : ∀ table found token others rejection, starts token.kind = true →
      reader table (token :: others) = .error rejection →
      motive table found (token :: others) (.error rejection))
    (step : ∀ table found token others item declared rest, starts token.kind = true →
      (reader table (token :: others)).map Parsed.view = .ok ((item, declared), rest) →
      motive declared (item :: found) rest (items starts reader declared (item :: found) rest) →
      motive table found (token :: others) (items starts reader declared (item :: found) rest))
    (table : SymbolTable) (found : List α) (tokens : List Token) :
    motive table found tokens (items starts reader table found tokens) := by
  induction hlength : tokens.length using Nat.strong_induction_on generalizing tokens table found with
  | _ length ih =>
      by_cases hstops : Stops starts tokens
      · rw [items_of_stops hstops]
        exact stop table found tokens hstops
      · simp only [Stops, not_forall, Bool.not_eq_false] at hstops
        obtain ⟨token, others, rfl, hstart⟩ := hstops
        cases hread : (reader table (token :: others)).map Parsed.view with
        | error rejection =>
            have hfailed := map_eq_error_iff.mp hread
            rw [items, if_pos hstart, hfailed]
            exact fail table found token others rejection hstart hfailed
        | ok parsed =>
            obtain ⟨⟨item, declared⟩, rest⟩ := parsed
            obtain ⟨hshorter, -⟩ := view_eq_ok_iff.mp hread
            rw [items_step hstart hread]
            exact step table found token others item declared rest hstart hread
              (ih rest.length (hlength ▸ hshorter) declared (item :: found) rest rfl)

/-- A loop that ends has read a sequence of items, each allowed where it stands, and stands where no
further item starts. -/
theorem ItemSpec.items_sound (spec : ItemSpec starts reader phrase allows after)
    {table declared : SymbolTable} {found result : List α} {tokens rest : List Token}
    (h : items starts reader table found tokens = .ok (result, declared, rest)) :
    ∃ list used, result = found.reverse ++ list ∧ tokens = used ++ rest ∧
      Sequence phrase (kinds used) list ∧ Admits allows after table list ∧
      declared = list.foldl after table ∧ Stops starts rest := by
  revert h
  refine items_induction ?_ ?_ ?_ table found tokens
  · intro table found tokens hstops h
    cases h
    exact ⟨[], [], by simp, rfl, .nil, trivial, rfl, hstops⟩
  · intro table found token others rejection _ _ h
    cases h
  · intro table found token others item next remainder hstart hread ih h
    obtain ⟨first, hfirst, hphrase, hallows, rfl⟩ := spec.sound hstart hread
    obtain ⟨list, used, rfl, rfl, hsequence, hadmits, rfl, hstops⟩ := ih h
    refine ⟨item :: list, first ++ used, by simp, ?_, ?_, ⟨hallows, hadmits⟩, rfl, hstops⟩
    · rw [hfirst, List.append_assoc]
    · rw [kinds_append]
      exact .cons hphrase hsequence

/-- A loop reads a sequence of allowed items up to where no further item starts. -/
theorem ItemSpec.items_complete (spec : ItemSpec starts reader phrase allows after)
    {row : List TokenKind} {list : List α} (h : Sequence phrase row list) {rest : List Token}
    (hstops : Stops starts rest) :
    ∀ (used : List Token) (table : SymbolTable) (found : List α), kinds used = row →
      Admits allows after table list →
      items starts reader table found (used ++ rest) =
        .ok (found.reverse ++ list, list.foldl after table, rest) := by
  induction h with
  | nil =>
      intro used table found hused _
      rw [kinds_eq_nil_iff.mp hused, List.nil_append, items_of_stops hstops]
      simp
  | cons head tail ih =>
      intro used table found hused hadmits
      obtain ⟨first, others, rfl, rfl, hothers⟩ := kinds_eq_append_iff.mp hused
      obtain ⟨kind, more, hrow, hstart⟩ := spec.head head
      obtain ⟨position, first, rfl, -⟩ := kinds_eq_cons_iff.mp hrow
      have hread := spec.complete (others ++ rest) head hadmits.1
      rw [List.cons_append] at hread
      rw [List.append_assoc, List.cons_append, items_step hstart hread,
        ih others _ _ hothers hadmits.2]
      simp

end Loop

/-- The names of a block with the classes that they have at its end. -/
def Block.table (block : Block) : SymbolTable :=
  block.statements.foldl afterStatement (declared block.constants block.vars)

/-- If all parts of a sequence start with kinds of a sort, so does what it stands before. -/
theorem Sequence.head_append {α : Type} {phrase : List TokenKind → α → Prop} {sort : TokenKind → Prop}
    {row : List TokenKind} {list : List α} (h : Sequence phrase row list)
    (hpart : ∀ row item, phrase row item → ∃ kind rest, row = kind :: rest ∧ sort kind)
    {more : List TokenKind} (hmore : ∃ kind rest, more = kind :: rest ∧ sort kind) :
    ∃ kind rest, row ++ more = kind :: rest ∧ sort kind := by
  cases h with
  | nil => exact hmore
  | cons head tail =>
      obtain ⟨kind, rest, rfl, hkind⟩ := hpart _ _ head
      exact ⟨kind, _, rfl, hkind⟩

theorem StatementPhrase.head {row : List TokenKind} {statement : Statement}
    (h : StatementPhrase row statement) : ∃ kind rest, row = kind :: rest ∧
      (kind == .constWord) = false ∧ (kind == .varWord) = false := by
  cases h <;> exact ⟨_, _, rfl, rfl, rfl⟩

theorem VariablePhrase.head {row : List TokenKind} {declared : Variable}
    (h : VariablePhrase row declared) :
    ∃ kind rest, row = kind :: rest ∧ (kind == .constWord) = false := by
  cases h <;> exact ⟨_, _, rfl, rfl⟩

section Boundaries

variable {second third : List TokenKind} {vars : List Variable} {statements : List Statement}

theorem statements_head (hstatements : Sequence StatementPhrase third statements) :
    ∃ kind rest, third ++ [.endWord] = kind :: rest ∧
      (kind == .constWord) = false ∧ (kind == .varWord) = false :=
  hstatements.head_append (fun _ _ => StatementPhrase.head) ⟨.endWord, [], rfl, rfl, rfl⟩

/-- No variable starts where the statements of a block do. -/
theorem head_behind_vars (hstatements : Sequence StatementPhrase third statements) :
    ∃ kind rest, third ++ [.endWord] = kind :: rest ∧ (kind == .varWord) = false := by
  obtain ⟨kind, rest, hrow, -, hkind⟩ := statements_head hstatements
  exact ⟨kind, rest, hrow, hkind⟩

/-- No constant starts where the variables of a block do. -/
theorem head_behind_constants (hvars : Sequence VariablePhrase second vars)
    (hstatements : Sequence StatementPhrase third statements) :
    ∃ kind rest, second ++ (third ++ [.endWord]) = kind :: rest ∧ (kind == .constWord) = false := by
  obtain ⟨kind, rest, hrow, hkind, -⟩ := statements_head hstatements
  exact hvars.head_append (fun _ _ => VariablePhrase.head) ⟨kind, rest, hrow, hkind⟩

end Boundaries

theorem block_sound {finish : Position} {tokens : List Token} {tree : Block} {table : SymbolTable}
    (h : block finish tokens = .ok (tree, table)) :
    BlockPhrase (kinds tokens) tree ∧ tree.Allowed ∧ table = tree.table := by
  obtain ⟨⟨_, rest₁, _⟩, hbegin, h⟩ := bind_eq_ok_iff.mp h
  obtain ⟨⟨constants, table₁, rest₂⟩, hconstants, h⟩ := bind_eq_ok_iff.mp h
  obtain ⟨⟨vars, table₂, rest₃⟩, hvars, h⟩ := bind_eq_ok_iff.mp h
  obtain ⟨⟨statements, table₃, rest₄⟩, hstatements, h⟩ := bind_eq_ok_iff.mp h
  obtain ⟨⟨_, rest₅, _⟩, hend, h⟩ := bind_eq_ok_iff.mp h
  cases rest₅ with
  | cons token rest => cases h
  | nil =>
      cases h
      obtain ⟨first, rfl⟩ := expect_eq_ok (rejecting_eq_ok_iff.mp hbegin)
      obtain ⟨last, rfl⟩ := expect_eq_ok (rejecting_eq_ok_iff.mp hend)
      obtain ⟨_, used₁, rfl, rfl, hsequence₁, hadmits₁, rfl, -⟩ :=
        (constant_spec finish).items_sound hconstants
      obtain ⟨_, used₂, rfl, rfl, hsequence₂, hadmits₂, rfl, -⟩ :=
        (variable_spec finish).items_sound hvars
      obtain ⟨_, used₃, rfl, rfl, hsequence₃, hadmits₃, rfl, -⟩ :=
        (statement_spec finish).items_sound hstatements
      refine ⟨?_, ⟨hadmits₁, hadmits₂, hadmits₃⟩, rfl⟩
      simp only [kinds_cons, kinds_append, kinds_nil]
      exact .mk hsequence₁ hsequence₂ hsequence₃

theorem block_complete (finish : Position) {tokens : List Token} {tree : Block}
    (h : BlockPhrase (kinds tokens) tree) (hallowed : tree.Allowed) :
    block finish tokens = .ok (tree, tree.table) := by
  generalize hrow : kinds tokens = row at h
  obtain ⟨hsequence₁, hsequence₂, hsequence₃⟩ := h
  obtain ⟨hadmits₁, hadmits₂, hadmits₃⟩ := hallowed
  simp only [kinds_eq_cons_iff, kinds_eq_append_iff, kinds_eq_nil_iff] at hrow
  obtain ⟨start, _, rfl, used₁, _, rfl, rfl, used₂, _, rfl, rfl, used₃, _, rfl, rfl, last, _, rfl,
    rfl⟩ := hrow
  have hstops₁ : Stops (· == .constWord) (used₂ ++ (used₃ ++ [⟨.endWord, last⟩])) :=
    stops_of_kinds (by simpa using head_behind_constants hsequence₂ hsequence₃)
  have hstops₂ : Stops (· == .varWord) (used₃ ++ [⟨.endWord, last⟩]) :=
    stops_of_kinds (by simpa using head_behind_vars hsequence₃)
  have hstops₃ : Stops (· != .endWord) [⟨.endWord, last⟩] := by
    rintro token rest ⟨⟩
    rfl
  have hconstants := (constant_spec finish).items_complete hsequence₁ hstops₁ used₁ .empty [] rfl
    hadmits₁
  have hvars := (variable_spec finish).items_complete hsequence₂ hstops₂ used₂ _ [] rfl hadmits₂
  have hstatements := (statement_spec finish).items_complete hsequence₃ hstops₃ used₃ _ [] rfl
    hadmits₃
  rw [block]
  simp only [expect, Place.wanted, rejecting, ok_bind, if_true, hconstants]
  rw [show List.foldl afterConstant .empty _ = declared _ [] from rfl, hvars]
  simp only [ok_bind]
  rw [show List.foldl afterVariable (declared _ []) _ = declared _ _ from rfl, hstatements]
  rfl

/-! ### Analysis -/

theorem analyze_sound {tokens : List Token} {code : Machine.Code}
    (h : (analyze tokens).result = .ok code) :
    ∃ tree, BlockPhrase (kinds (sentence tokens)) tree ∧ tree.WellNamed ∧ code = tree.code ∧
      (analyze tokens).table = tree.table := by
  rw [analyze] at h ⊢
  cases hblock : block (finish tokens) (sentence tokens) with
  | error rejection =>
      simp only [hblock] at h
      cases h
  | ok parsed =>
      obtain ⟨tree, table⟩ := parsed
      simp only [hblock, Except.ok.injEq] at h
      obtain ⟨hphrase, hallowed, htable⟩ := block_sound hblock
      exact ⟨tree, hphrase, Block.allowed_iff_wellNamed.mp hallowed, h.symm, htable⟩

theorem analyze_complete {tokens : List Token} {tree : Block}
    (h : BlockPhrase (kinds (sentence tokens)) tree) (hnames : tree.WellNamed) :
    analyze tokens = ⟨tree.table, .ok tree.code⟩ := by
  rw [analyze, block_complete (finish tokens) h (Block.allowed_iff_wellNamed.mpr hnames)]

/-- Tokens are accepted exactly when those before the first end of input are a block of the grammar
that keeps the rules on names. -/
theorem analyze_accepts_iff (tokens : List Token) :
    (∃ code, (analyze tokens).result = .ok code) ↔
      ∃ tree, BlockPhrase (kinds (sentence tokens)) tree ∧ tree.WellNamed := by
  constructor
  · rintro ⟨code, h⟩
    obtain ⟨tree, hphrase, hnames, -⟩ := analyze_sound h
    exact ⟨tree, hphrase, hnames⟩
  · rintro ⟨tree, hphrase, hnames⟩
    exact ⟨tree.code, by rw [analyze_complete hphrase hnames]⟩

end PlZero.Source

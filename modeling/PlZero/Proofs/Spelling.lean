import PlZero.Proofs.CompilerCorrectness
import PlZero.Proofs.Layout

/-! Source text that is spelled out from tokens. A token that is spelled with a blank behind it is
scanned as that token, so a block that is spelled token by token compiles to its code. -/

namespace PlZero.Source

open PlZero.Text PlZero.Attempt

/-- How a token may be spelled: an integer by its digits, a word by its letters, and a mark by its
sign. -/
inductive Spells : List Char → TokenKind → Prop where
  | number {digits : List Char} (hnonempty : digits ≠ []) (hdigits : digits.all isDigit = true)
      (hvalue : digitsValue digits ≤ maxLiteral) :
      Spells digits (.integer (Int32.ofNat (digitsValue digits)))
  | word {first : Char} {parts : List Char} (hfirst : isLetter first = true)
      (hparts : parts.all isWordPart = true) :
      Spells (first :: parts) (TokenKind.ofWord (String.ofList (first :: parts)))
  | mark {sign : Char} {kind : TokenKind} (hkind : TokenKind.ofMark? sign = some kind) :
      Spells [sign] kind

theorem Spells.exists_run {spelling : List Char} {kind : TokenKind} (h : Spells spelling kind) :
    ∃ run : RunKind, run.IsRun (ofChars spelling) ∧ run.Denotes (ofChars spelling) (.ok kind) := by
  cases h with
  | number hnonempty hdigits hvalue =>
      have hdenotes := Lexeme.denotes_number spelling
      rw [Lexeme.token, if_pos hvalue] at hdenotes
      exact ⟨.number, RunKind.isRun_number hnonempty (List.all_eq_true.mp hdigits), hdenotes⟩
  | @word first parts hfirst hparts =>
      have hisRun := RunKind.isRun_word hfirst (List.all_eq_true.mp hparts)
      exact ⟨.word, hisRun, Lexeme.denotes_word (first :: parts)⟩
  | @mark sign kind hkind =>
      have hisRun : RunKind.mark.IsRun [.char sign] :=
        ⟨Option.isSome_iff_exists.mpr ⟨kind, hkind⟩, List.forall_mem_nil _⟩
      exact ⟨.mark, hisRun, .sign hkind⟩

/-- A token that is spelled with a space behind it. -/
theorem Spells.isSpelled {spelling : List Char} {kind : TokenKind} (h : Spells spelling kind) :
    Entry.IsSpelled ⟨kind, spelling, [' ']⟩ := by
  obtain ⟨run, hisRun, hdenotes⟩ := h.exists_run
  obtain rfl := hdenotes.run_eq
  exact ⟨hisRun, hdenotes, List.forall_mem_singleton.mpr rfl⟩

theorem Spells.ne_endOfInput {spelling : List Char} {kind : TokenKind} (h : Spells spelling kind) :
    kind ≠ .endOfInput :=
  h.isSpelled.denotes.ne_endOfInput

/-- Tokens with their spellings. -/
abbrev Spelling := List (List Char × TokenKind)

namespace Spelling

/-- The text with a space behind each token. -/
def text (row : Spelling) : List Char :=
  row.flatMap fun token => token.1 ++ [' ']

/-- The kinds of the tokens. -/
def kinds (row : Spelling) : List TokenKind :=
  row.map Prod.snd

/-- Every token is spelled as it may be. -/
def IsValid (row : Spelling) : Prop :=
  ∀ token ∈ row, Spells token.1 token.2

/-- The tokens with the spaces behind them. -/
def entries (row : Spelling) : List Entry :=
  row.map fun token => ⟨token.2, token.1, [' ']⟩

theorem text_entries (row : Spelling) : Entry.text row.entries = row.text :=
  List.flatMap_map _ _ row

theorem isSpelled_entries {row : Spelling} (h : row.IsValid) :
    ∀ entry ∈ row.entries, entry.IsSpelled :=
  List.forall_mem_map.mpr fun token htoken => (h token htoken).isSpelled

theorem map_kind_entries (row : Spelling) : row.entries.map Entry.kind = row.kinds :=
  List.map_map

theorem parts_entries (row : Spelling) : row.entries.IsChain Entry.Parts := by
  refine (List.pairwise_map.mpr (List.pairwise_of_forall fun left right hblanks => ?_)).isChain
  cases hblanks

/-- A text that is spelled out has the tokens that it was spelled from. -/
theorem tokenize_text {row : Spelling} (h : row.IsValid) : ∃ tokens,
    tokenize (encodeChars row.text) = .ok tokens ∧ Source.kinds (sentence tokens) = row.kinds := by
  obtain ⟨tokens, finish, hkinds, htokens⟩ := Entry.tokenize_text (List.forall_mem_nil _)
    (isSpelled_entries h) row.parts_entries
  rw [map_kind_entries] at hkinds
  rw [List.nil_append, text_entries] at htokens
  refine ⟨_, htokens, ?_⟩
  have hall : ∀ token ∈ tokens, (token.kind != .endOfInput) = true := by
    intro token htoken
    have hkind : token.kind ∈ row.kinds := hkinds ▸ List.mem_map_of_mem htoken
    obtain ⟨spelled, hspelled, hkind⟩ := List.mem_map.mp hkind
    rw [bne_iff_ne, ← hkind]
    exact (h spelled hspelled).ne_endOfInput
  rw [sentence, List.takeWhile_append_of_pos hall]
  simpa using hkinds

/-- A block that is spelled out is the block of its text. -/
theorem isTreeOf_text {row : Spelling} (h : row.IsValid) {tree : Block}
    (hphrase : BlockPhrase row.kinds tree) : IsTreeOf (encodeChars row.text) tree := by
  obtain ⟨tokens, htokens, hkinds⟩ := tokenize_text h
  exact ⟨tokens, htokens, hkinds ▸ hphrase⟩

/-! ### Blocks -/

theorem isValid_nil : IsValid [] :=
  List.forall_mem_nil _

theorem IsValid.append {first second : Spelling} (hfirst : first.IsValid) (hsecond : second.IsValid) :
    IsValid (first ++ second) :=
  List.forall_mem_append.mpr ⟨hfirst, hsecond⟩

theorem isValid_singleton {token : List Char × TokenKind} (h : Spells token.1 token.2) :
    IsValid [token] :=
  List.forall_mem_singleton.mpr h

theorem isValid_flatMap {α : Type} {spelling : α → Spelling} {items : List α}
    (h : ∀ item ∈ items, (spelling item).IsValid) : IsValid (items.flatMap spelling) := by
  intro token htoken
  obtain ⟨item, hitem, htoken⟩ := List.mem_flatMap.mp htoken
  exact h item hitem token htoken

theorem kinds_append (first second : Spelling) :
    kinds (first ++ second) = first.kinds ++ second.kinds :=
  List.map_append

/-- Parts that are spelled one behind the other are a sequence. -/
theorem sequence_flatMap {α β : Type} {part : List TokenKind → β → Prop} {spelling : α → Spelling}
    {meaning : α → β} {items : List α}
    (h : ∀ item ∈ items, part (spelling item).kinds (meaning item)) :
    Sequence part (kinds (items.flatMap spelling)) (items.map meaning) := by
  induction items with
  | nil => exact .nil
  | cons item rest ih =>
      rw [List.flatMap_cons, kinds_append, List.map_cons]
      exact .cons (h item List.mem_cons_self)
        (ih fun other hother => h other (List.mem_cons_of_mem _ hother))

/-- The spelling of a block whose parts are spelled out. -/
def enclose (constants vars statements : Spelling) : Spelling :=
  [(['b', 'e', 'g', 'i', 'n'], .beginWord)] ++ (constants ++ (vars ++ (statements ++
    [(['e', 'n', 'd'], .endWord)])))

theorem IsValid.enclose {constants vars statements : Spelling} (hconstants : constants.IsValid)
    (hvars : vars.IsValid) (hstatements : statements.IsValid) :
    (enclose constants vars statements).IsValid :=
  (isValid_singleton (.word rfl rfl)).append
    (hconstants.append (hvars.append (hstatements.append (isValid_singleton (.word rfl rfl)))))

theorem blockPhrase_enclose {constants vars statements : Spelling} {tree : Block}
    (hconstants : Sequence ConstantPhrase constants.kinds tree.constants)
    (hvars : Sequence VariablePhrase vars.kinds tree.vars)
    (hstatements : Sequence StatementPhrase statements.kinds tree.statements) :
    BlockPhrase (enclose constants vars statements).kinds tree := by
  rw [enclose, kinds_append, kinds_append, kinds_append, kinds_append]
  exact .mk hconstants hvars hstatements

end Spelling

/-- The code of a well-named block is what its text compiles to. -/
theorem IsTreeOf.compile {text : Bytes} {tree : Block} (h : IsTreeOf text tree)
    (hnames : tree.WellNamed) : compile text = .ok tree.code := by
  obtain ⟨tokens, htokens, hphrase⟩ := h
  rw [Source.compile, htokens, ok_bind, analyze_complete hphrase hnames]

end PlZero.Source

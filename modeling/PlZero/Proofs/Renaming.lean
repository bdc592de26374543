import PlZero.Proofs.Acceptance
import PlZero.Proofs.Pairing

/-! Names and positions do not matter to the code. Blocks that differ in their names only have the same
code, since names that correspond stand at the same place among the declared ones. So renaming the
identifiers of a token list one to one, or moving its tokens about, changes neither the code nor the
kind of fault nor the token that the fault points to. -/

namespace PlZero.Source

open PlZero.Attempt PlZero.Text

namespace Pairing

variable {pair : Pairing}

/-- Names that correspond stand at the same place. -/
theorem idxOf_eq {names names' : List String} (h : List.Forall₂ pair.same names names')
    {name name' : String} (hname : pair.same name name') : names.idxOf name = names'.idxOf name' := by
  induction h with
  | nil => rfl
  | @cons first first' rest rest' hfirst hrest ih =>
      have hbeq : (first == name) = (first' == name') := by
        rw [Bool.eq_iff_iff, beq_iff_eq, beq_iff_eq]
        exact eq_iff hfirst hname
      rw [List.idxOf_cons, List.idxOf_cons, hbeq, ih]

theorem flatMap_eq {α β : Type} {related : α → α → Prop} {change change' : α → List β}
    (hchange : ∀ left right, related left right → change left = change' right) {items items' : List α}
    (h : List.Forall₂ related items items') : items.flatMap change = items'.flatMap change' := by
  induction h with
  | nil => rfl
  | cons hhead hrest ih => rw [List.flatMap_cons, List.flatMap_cons, hchange _ _ hhead, ih]

section Slots

variable {slot slot' : String → Int32}
  (hslot : ∀ name name', pair.same name name' → slot name = slot' name')

include hslot

theorem Trees.code_eq {left right : Expression} (h : pair.Trees left right) :
    left.code slot = right.code slot' := by
  induction h with
  | literal value => rfl
  | name h => rw [Expression.code, Expression.code, hslot _ _ h]
  | signed sign h ih => rw [Expression.code, Expression.code, ih]
  | binary operator hleft hright ihleft ihright =>
      rw [Expression.code, Expression.code, ihleft, ihright]

theorem Variables.code_eq {left right : Variable} (h : pair.Variables left right) :
    left.code slot = right.code slot' := by
  obtain ⟨name, initial⟩ := left
  obtain ⟨name', initial'⟩ := right
  obtain ⟨-, hinitial⟩ := h
  cases hinitial with
  | none => rfl
  | some hvalue => exact Trees.code_eq hslot hvalue

theorem Statements.code_eq {left right : Statement} (h : pair.Statements left right) :
    left.code slot = right.code slot' := by
  cases h with
  | assign htarget hvalue =>
      rw [Statement.code, Statement.code, Trees.code_eq hslot hvalue, hslot _ _ htarget]
  | print hvalue => rw [Statement.code, Statement.code, Trees.code_eq hslot hvalue]
  | empty => rfl

end Slots

theorem Blocks.names {left right : Block} (h : pair.Blocks left right) :
    List.Forall₂ pair.same left.names right.names :=
  List.rel_append (List.rel_map (fun _ _ hconstant => hconstant.1) h.constants)
    (List.rel_map (fun _ _ hdeclared => hdeclared.1) h.vars)

theorem Blocks.code_eq {left right : Block} (h : pair.Blocks left right) : left.code = right.code := by
  have hslot : ∀ name name', pair.same name name' → left.slot name = right.slot name' := by
    intro name name' hname
    rw [Block.slot, Block.slot, idxOf_eq h.names hname]
  have hconstant : ∀ first second, pair.Constants first second → first.code = second.code := by
    intro first second hsame
    rw [Constant.code, Constant.code, hsame.2]
  have hvars := flatMap_eq (fun first second => @Variables.code_eq pair _ _ hslot first second) h.vars
  have hstatements :=
    flatMap_eq (fun first second => @Statements.code_eq pair _ _ hslot first second) h.statements
  rw [Block.code, Block.code, flatMap_eq hconstant h.constants, hvars, hstatements]

theorem rows_sentence {tokens tokens' : List Token} (h : pair.Rows tokens tokens') :
    pair.Rows (sentence tokens) (sentence tokens') := by
  induction h with
  | nil => exact .nil
  | @cons token token' rest rest' hhead hrest ih =>
      have hkind := hhead.kind.congr (· != .endOfInput) fun _ _ => rfl
      unfold sentence at ih ⊢
      rw [List.takeWhile_cons, List.takeWhile_cons, hkind]
      split
      · exact .cons hhead ih
      · exact .nil

theorem rel_find? {tokens tokens' : List Token} (h : pair.Rows tokens tokens') :
    Option.Rel pair.Heads (tokens.find? fun token => token.kind == .endOfInput)
      (tokens'.find? fun token => token.kind == .endOfInput) := by
  induction h with
  | nil => exact .none
  | @cons token token' rest rest' hhead hrest ih =>
      have hkind := hhead.kind.congr (· == .endOfInput) fun _ _ => rfl
      rw [List.find?_cons, List.find?_cons, hkind]
      split
      · exact .some hhead
      · exact ih

theorem rel_getLast? {tokens tokens' : List Token} (h : pair.Rows tokens tokens') :
    Option.Rel pair.Heads tokens.getLast? tokens'.getLast? := by
  have hhead {row row' : List Token} (hrow : pair.Rows row row') :
      Option.Rel pair.Heads row.head? row'.head? := by
    cases hrow with
    | nil => exact .none
    | cons hhead hrest => exact .some hhead
  rw [List.getLast?_eq_head?_reverse, List.getLast?_eq_head?_reverse]
  exact hhead (List.rel_reverse h)

/-- Where two rows end, unless they are empty. -/
theorem place_finish {tokens tokens' : List Token} (h : pair.Rows tokens tokens')
    (hnonempty : tokens ≠ []) : pair.place (finish tokens) (finish tokens') := by
  have hfind := rel_find? h
  have hlast := rel_getLast? h
  rw [List.getLast?_eq_some_getLast hnonempty] at hlast
  unfold finish
  rw [List.getLast?_eq_some_getLast hnonempty]
  generalize tokens.find? (fun token => token.kind == .endOfInput) = found at hfind ⊢
  generalize tokens'.find? (fun token => token.kind == .endOfInput) = found' at hfind ⊢
  generalize tokens'.getLast? = last' at hlast ⊢
  cases hfind with
  | some hhead => exact hhead.position
  | none =>
      cases hlast with
      | some hhead => exact hhead.position

theorem agree_analyze {tokens tokens' : List Token} (h : pair.Rows tokens tokens')
    (hplace : pair.place (finish tokens) (finish tokens')) :
    Agree pair.Faults Eq (analyze tokens).result (analyze tokens').result ∧
      pair.Tables (analyze tokens).table (analyze tokens').table := by
  have hblock := agree_block hplace (rows_sentence h)
  unfold analyze
  generalize block (finish tokens) (sentence tokens) = attempt at hblock ⊢
  generalize block (finish tokens') (sentence tokens') = attempt' at hblock ⊢
  cases hblock with
  | ok hparsed => exact ⟨.ok hparsed.1.code_eq, hparsed.2⟩
  | error hrejection => exact ⟨.error hrejection.fault, hrejection.table⟩

end Pairing

/-! ### Renaming -/

/-- The kind with its name changed. -/
def TokenKind.rename (change : String → String) : TokenKind → TokenKind
  | identifier name => identifier (change name)
  | kind => kind

/-- The symbol with its name changed. -/
def Symbol.rename (change : String → String) (symbol : Symbol) : Symbol :=
  { symbol with name := change symbol.name }

/-- The names that occur in tokens. -/
def identifiers (tokens : List Token) : Set String :=
  {name | .identifier name ∈ kinds tokens}

/-- The positions are those of two tokens with the same index, or no position for two empty lists. -/
def SamePlace (first second : List Token) (left right : Position) : Prop :=
  (∃ index : Nat, first[index]?.map Token.position = some left ∧
    second[index]?.map Token.position = some right) ∨
  (first = [] ∧ second = [] ∧ left = .none ∧ right = .none)

section Renaming

variable {change : String → String} {first second : List Token}

/-- The names of the first list correspond to the changed names. -/
def Pairing.renaming (hinjective : Set.InjOn change (identifiers first)) (second : List Token) :
    Pairing where
  place := SamePlace first second
  same name name' := name ∈ identifiers first ∧ name' = change name
  unique := by
    constructor
    · rintro left right _ ⟨hleft, rfl⟩ ⟨hright, heq⟩
      exact hinjective hleft hright heq
    · rintro _ _ _ ⟨-, rfl⟩ ⟨-, rfl⟩
      rfl

variable (hinjective : Set.InjOn change (identifiers first))

theorem kinds_renaming {kind : TokenKind} (hkind : kind ∈ kinds first) :
    (Pairing.renaming hinjective second).Kinds kind (kind.rename change) := by
  cases kind with
  | identifier name => exact .name ⟨hkind, rfl⟩
  | _ => exact .plain nofun

theorem rows_renaming (hkinds : kinds second = (kinds first).map (TokenKind.rename change)) :
    (Pairing.renaming hinjective second).Rows first second := by
  have hlength : first.length = second.length := by
    simpa [kinds] using (congrArg List.length hkinds).symm
  refine List.forall₂_iff_get.mpr ⟨hlength, fun index hfirst hsecond => ⟨?_, ?_⟩⟩
  · have hkind : (second.get ⟨index, hsecond⟩).kind =
        (first.get ⟨index, hfirst⟩).kind.rename change := by
      have hget := congrArg (·[index]?) hkinds
      simpa [kinds, hfirst, hsecond] using hget
    rw [hkind]
    exact kinds_renaming hinjective (List.mem_map_of_mem (List.get_mem first ⟨index, hfirst⟩))
  · exact Or.inl ⟨index, by simp [hfirst], by simp [hsecond]⟩

theorem symbols_renaming {table table' : SymbolTable}
    (h : (Pairing.renaming hinjective second).Tables table table') :
    table'.symbols = table.symbols.map (Symbol.rename change) := by
  have hentries : table'.entries = table.entries.map fun entry => (change entry.1, entry.2) := by
    obtain ⟨entries⟩ := table
    obtain ⟨entries'⟩ := table'
    change List.Forall₂ _ entries entries' at h
    change entries' = entries.map _
    induction h with
    | nil => rfl
    | cons hentry hrest ih =>
        obtain ⟨⟨-, hname⟩, hcls⟩ := hentry
        rw [ih, List.map_cons, ← hname, hcls]
  rw [SymbolTable.symbols, SymbolTable.symbols, hentries]
  apply List.ext_getElem
  · simp
  · intro index hindex hindex'
    simp [Symbol.rename]

end Renaming

/-- Analysis depends only on the kinds of tokens, the values of integers and on which names coincide.
Tokens that are renamed one to one have the same code, or a fault of the same kind at the same token,
and their symbols are the renamed ones. So texts with such tokens have the same code. -/
theorem analyze_rename {change : String → String} {first second : List Token}
    (hinjective : Set.InjOn change (identifiers first))
    (hkinds : kinds second = (kinds first).map (TokenKind.rename change)) :
    Agree (fun left right : Fault => left.kind = right.kind ∧
          SamePlace first second left.position right.position) Eq
        (analyze first).result (analyze second).result ∧
      (analyze second).table.symbols = (analyze first).table.symbols.map (Symbol.rename change) ∧
      ∀ text text' code, tokenize text = .ok first → tokenize text' = .ok second →
        (compile text = .ok code ↔ compile text' = .ok code) := by
  have hrows := rows_renaming hinjective hkinds
  have hplace : SamePlace first second (finish first) (finish second) := by
    by_cases hempty : first = []
    · subst hempty
      obtain rfl : second = [] := kinds_eq_nil_iff.mp hkinds
      exact Or.inr ⟨rfl, rfl, rfl, rfl⟩
    · exact Pairing.place_finish hrows hempty
  obtain ⟨hresult, htable⟩ := Pairing.agree_analyze hrows hplace
  refine ⟨hresult.mono (fun _ _ hfault => ⟨hfault.kind, hfault.position⟩) fun _ _ hcode => hcode,
    symbols_renaming hinjective htable, ?_⟩
  intro text text' code htext htext'
  rw [compile, compile, htext, htext', ok_bind, ok_bind]
  exact hresult.eq_ok_iff

/-- A block on one line that declares a variable. -/
def declaration (name : String) (line : Int) : List Token :=
  [⟨.beginWord, ⟨0, line, 1⟩⟩, ⟨.varWord, ⟨6, line, 7⟩⟩, ⟨.identifier name, ⟨10, line, 11⟩⟩,
    ⟨.semicolon, ⟨11, line, 12⟩⟩, ⟨.endWord, ⟨13, line, 14⟩⟩]

theorem analyze_rename_declaration :
    (analyze (declaration "y" 7)).result = .ok [.of .literal 0] ∧
      (analyze (declaration "y" 7)).table.symbols = [⟨"y", .uninitialized, 0⟩] := by
  have hfirst : analyze (declaration "x" 1) = ⟨⟨[("x", .uninitialized)]⟩, .ok [.of .literal 0]⟩ := by
    have hphrase : BlockPhrase (kinds (sentence (declaration "x" 1))) ⟨[], [⟨"x", none⟩], []⟩ :=
      .mk .nil (.cons (.bare "x") .nil) .nil
    have hallowed : Block.Allowed ⟨[], [⟨"x", none⟩], []⟩ :=
      ⟨trivial, ⟨⟨rfl, nofun⟩, trivial⟩, trivial⟩
    rw [analyze, block_complete _ hphrase hallowed]
    rfl
  have hinjective : Set.InjOn (fun _ => "y") (identifiers (declaration "x" 1)) := by
    have honly : ∀ name ∈ identifiers (declaration "x" 1), name = "x" := by
      simp [identifiers, declaration]
    intro left hleft right hright _
    rw [honly left hleft, honly right hright]
  obtain ⟨hresult, hsymbols, -⟩ :=
    @analyze_rename (fun _ => "y") (declaration "x" 1) (declaration "y" 7) hinjective rfl
  rw [hfirst] at hresult hsymbols
  exact ⟨hresult.eq_ok_iff.mp rfl, hsymbols⟩

end PlZero.Source

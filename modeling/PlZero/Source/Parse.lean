import PlZero.Source.Fault
import PlZero.Source.Tree

/-! Reading a block from tokens, in one pass from left to right with one token of look-ahead:

    block      = 'begin' { constant } { variable } { statement } 'end'
    constant   = 'const' IDENTIFIER '=' [ '+' | '-' ] INTEGER ';'
    variable   = 'var' IDENTIFIER [ '=' expression ] ';'
    statement  = IDENTIFIER '=' expression ';' | 'print' '(' expression ')' ';' | ';'
    expression = term { ( '+' | '-' ) term }
    term       = factor { ( '*' | '/' ) factor }
    factor     = [ '+' | '-' ] ( IDENTIFIER | INTEGER | '(' expression ')' )

Names are checked against the symbol table as they are met, so the fault that is reported is the first
in reading order, be it of syntax or of naming. -/

namespace PlZero.Source

/-- What was read from the head of `tokens`, and the tokens behind it. -/
structure Parsed (α : Type) (tokens : List Token) where
  value : α
  rest : List Token
  shorter : rest.length < tokens.length

/-- The token at the head of a list, which is the end of input at `finish` when there is none. -/
def nextToken (finish : Position) : List Token → Token
  | [] => ⟨.endOfInput, finish⟩
  | token :: _ => token

/-- The fault that the token at the head of a list causes. -/
def blame (finish : Position) (tokens : List Token) (cause : TokenKind → Cause) : Fault :=
  let token := nextToken finish tokens
  ⟨cause token.kind, token.position⟩

/-- Reads the token that belongs at a place. -/
def expect (finish : Position) (place : Place) (tokens : List Token) :
    Except Fault (Parsed Unit tokens) :=
  match tokens with
  | [] => .error (blame finish [] (.unexpected place))
  | token :: rest =>
    if token.kind = place.wanted then .ok ⟨(), rest, by simp⟩
    else .error (blame finish (token :: rest) (.unexpected place))

/-- Reads the identifier of a declaration, with its position. -/
def declaredName (finish : Position) (tokens : List Token) :
    Except Fault (Parsed (String × Position) tokens) :=
  match tokens with
  | ⟨.identifier name, position⟩ :: rest => .ok ⟨(name, position), rest, by simp⟩
  | _ => .error (blame finish tokens .identifierMissing)

/-- The ranks of operators: those that join terms to a sum, and those that join factors to a
product. -/
inductive Rank where
  | sum
  | product
  deriving DecidableEq, Repr

namespace Rank

/-- The operator of a rank that a token stands for. -/
def operator? : Rank → TokenKind → Option BinaryOperator
  | sum, .plus => some .add
  | sum, .minus => some .subtract
  | product, .times => some .multiply
  | product, .divide => some .divide
  | _, _ => none

/-- How many steps a rank is above the factors. -/
def height : Rank → Nat
  | sum => 2
  | product => 0

end Rank

/-- The sign that a token stands for. -/
def sign? : TokenKind → Option Sign
  | .plus => some .plus
  | .minus => some .minus
  | _ => none

mutual

/-- Reads parts joined by operators of a rank. -/
def chain (finish : Position) (table : SymbolTable) (rank : Rank) (tokens : List Token) :
    Except Fault (Parsed Expression tokens) :=
  match part finish table rank tokens with
  | .error fault => .error fault
  | .ok ⟨left, rest, _⟩ => links finish table rank left tokens rest (by assumption)
  termination_by (tokens.length, rank.height + 4)

/-- Reads the operators and parts that follow `left`, which was read from the head of `whole`. -/
def links (finish : Position) (table : SymbolTable) (rank : Rank) (left : Expression)
    (whole tokens : List Token) (shorter : tokens.length < whole.length) :
    Except Fault (Parsed Expression whole) :=
  match tokens with
  | [] => .ok ⟨left, [], shorter⟩
  | token :: rest =>
    match rank.operator? token.kind with
    | none => .ok ⟨left, token :: rest, shorter⟩
    | some operator =>
      match part finish table rank rest with
      | .error fault => .error fault
      | .ok ⟨right, remainder, _⟩ =>
        links finish table rank (.binary operator left right) whole remainder
          (by simp only [List.length_cons] at shorter; omega)
  termination_by (tokens.length, 0)

/-- Reads a part of a chain: a term of a sum, or a factor of a product. -/
def part (finish : Position) (table : SymbolTable) (rank : Rank) (tokens : List Token) :
    Except Fault (Parsed Expression tokens) :=
  match rank with
  | .sum => chain finish table .product tokens
  | .product => factor finish table tokens
  termination_by (tokens.length, rank.height + 3)
  decreasing_by
    · exact Prod.Lex.right _ (by decide)
    · exact Prod.Lex.right _ (by decide)

/-- Reads an operand with an optional sign. -/
def factor (finish : Position) (table : SymbolTable) (tokens : List Token) :
    Except Fault (Parsed Expression tokens) :=
  match tokens with
  | [] => operand finish table []
  | token :: rest =>
    match sign? token.kind with
    | none => operand finish table (token :: rest)
    | some sign =>
      match operand finish table rest with
      | .error fault => .error fault
      | .ok ⟨value, remainder, _⟩ =>
        .ok ⟨.signed sign value, remainder, by simp only [List.length_cons]; omega⟩
  termination_by (tokens.length, 2)

/-- Reads a name that may be used, an integer, or an expression in parentheses. -/
def operand (finish : Position) (table : SymbolTable) (tokens : List Token) :
    Except Fault (Parsed Expression tokens) :=
  match tokens with
  | ⟨.identifier name, position⟩ :: rest =>
    match table.class? name with
    | none => .error ⟨.undefinedReference name, position⟩
    | some .uninitialized => .error ⟨.uninitializedReference name, position⟩
    | some _ => .ok ⟨.name name, rest, by simp⟩
  | ⟨.integer value, _⟩ :: rest => .ok ⟨.literal value, rest, by simp⟩
  | ⟨.openParen, _⟩ :: rest =>
    match chain finish table .sum rest with
    | .error fault => .error fault
    | .ok ⟨inner, close, _⟩ =>
      match expect finish .groupEnd close with
      | .error fault => .error fault
      | .ok ⟨_, remainder, _⟩ =>
        .ok ⟨inner, remainder, by simp only [List.length_cons]; omega⟩
  | _ => .error (blame finish tokens .operandMissing)
  termination_by (tokens.length, 1)

end

/-- Reads an expression. -/
def expression (finish : Position) (table : SymbolTable) (tokens : List Token) :
    Except Fault (Parsed Expression tokens) :=
  chain finish table .sum tokens

/-- A fault, with the names declared before it. -/
structure Rejection where
  fault : Fault
  table : SymbolTable

/-- A fault that was met with the given names declared. -/
def rejecting {α : Type} (table : SymbolTable) : Except Fault α → Except Rejection α
  | .ok value => .ok value
  | .error fault => .error ⟨fault, table⟩

/-- Declares the name of a declaration; one that is already declared is a fault at its position. -/
def declareName (table : SymbolTable) (name : String) (position : Position) (cls : SymbolClass) :
    Except Rejection SymbolTable :=
  match table.class? name with
  | some earlier => .error ⟨⟨.redeclaration name earlier, position⟩, table⟩
  | none => .ok ⟨table.entries ++ [(name, cls)]⟩

/-- Reads the value of a constant. -/
def constantValue (finish : Position) (name : String) (tokens : List Token) :
    Except Fault (Parsed Int32 tokens) :=
  match tokens with
  | ⟨.integer value, _⟩ :: rest => .ok ⟨value, rest, by simp⟩
  | ⟨.plus, _⟩ :: ⟨.integer value, _⟩ :: rest =>
    .ok ⟨Sign.plus.apply value, rest, by simp only [List.length_cons]; omega⟩
  | ⟨.minus, _⟩ :: ⟨.integer value, _⟩ :: rest =>
    .ok ⟨Sign.minus.apply value, rest, by simp only [List.length_cons]; omega⟩
  | ⟨.plus, _⟩ :: rest => .error (blame finish rest (.constantValueMissing name))
  | ⟨.minus, _⟩ :: rest => .error (blame finish rest (.constantValueMissing name))
  | _ => .error (blame finish tokens (.constantValueMissing name))

/-- Reads a constant, keyword first. -/
def constant (finish : Position) (table : SymbolTable) (tokens : List Token) :
    Except Rejection (Parsed (Constant × SymbolTable) tokens) := do
  let ⟨(name, position), rest₁, _⟩ ← rejecting table (declaredName finish tokens.tail)
  let ⟨_, rest₂, _⟩ ← rejecting table (expect finish .beforeValue rest₁)
  let ⟨value, rest₃, _⟩ ← rejecting table (constantValue finish name rest₂)
  let declared ← declareName table name position .constant
  let ⟨_, rest₄, _⟩ ← rejecting declared (expect finish .afterDeclaration rest₃)
  return ⟨(⟨name, value⟩, declared), rest₄, by have := tokens.length_tail; omega⟩

/-- Reads a variable, keyword first. -/
def variableDeclaration (finish : Position) (table : SymbolTable) (tokens : List Token) :
    Except Rejection (Parsed (Variable × SymbolTable) tokens) := do
  let ⟨(name, position), rest₁, _⟩ ← rejecting table (declaredName finish tokens.tail)
  match expect finish .beforeValue rest₁ with
  | .ok ⟨_, rest₂, _⟩ =>
    let ⟨value, rest₃, _⟩ ← rejecting table (expression finish table rest₂)
    let declared ← declareName table name position .initialized
    let ⟨_, rest₄, _⟩ ← rejecting declared (expect finish .afterDeclaration rest₃)
    return ⟨(⟨name, some value⟩, declared), rest₄, by have := tokens.length_tail; omega⟩
  | .error _ =>
    let declared ← declareName table name position .uninitialized
    let ⟨_, rest₂, _⟩ ← rejecting declared (expect finish .afterDeclaration rest₁)
    return ⟨(⟨name, none⟩, declared), rest₂, by have := tokens.length_tail; omega⟩

/-- Reads an assignment behind its target, which must be a declared variable. -/
def assignment (finish : Position) (table : SymbolTable) (name : String) (position : Position)
    (tokens : List Token) : Except Rejection (Parsed (Statement × SymbolTable) tokens) := do
  match table.class? name with
  | some .constant => throw ⟨⟨.assignToConstant name, position⟩, table⟩
  | none => throw ⟨⟨.assignToUndefined name, position⟩, table⟩
  | some _ =>
    let ⟨_, rest₁, _⟩ ← rejecting table (expect finish .beforeValue tokens)
    let ⟨value, rest₂, _⟩ ← rejecting table (expression finish table rest₁)
    let ⟨_, rest₃, _⟩ ← rejecting table (expect finish .afterStatement rest₂)
    return ⟨(.assign name value, table.markInitialized name), rest₃, by omega⟩

/-- Reads a print statement behind its keyword. -/
def printing (finish : Position) (table : SymbolTable) (tokens : List Token) :
    Except Rejection (Parsed (Statement × SymbolTable) tokens) := do
  let ⟨_, rest₁, _⟩ ← rejecting table (expect finish .printStart tokens)
  let ⟨value, rest₂, _⟩ ← rejecting table (expression finish table rest₁)
  let ⟨_, rest₃, _⟩ ← rejecting table (expect finish .groupEnd rest₂)
  let ⟨_, rest₄, _⟩ ← rejecting table (expect finish .afterStatement rest₃)
  return ⟨(.print value, table), rest₄, by omega⟩

/-- Reads one statement. -/
def statement (finish : Position) (table : SymbolTable) (tokens : List Token) :
    Except Rejection (Parsed (Statement × SymbolTable) tokens) :=
  match tokens with
  | ⟨.identifier name, position⟩ :: rest => do
    let ⟨value, remainder, _⟩ ← assignment finish table name position rest
    return ⟨value, remainder, by simp only [List.length_cons]; omega⟩
  | ⟨.printWord, _⟩ :: rest => do
    let ⟨value, remainder, _⟩ ← printing finish table rest
    return ⟨value, remainder, by simp only [List.length_cons]; omega⟩
  | ⟨.semicolon, _⟩ :: rest => return ⟨(.empty, table), rest, by simp⟩
  | _ => throw ⟨blame finish tokens .invalidStatement, table⟩

/-- What reads one item of a block with the names declared before it, and gives those declared behind
it. -/
abbrev ItemReader (α : Type) :=
  SymbolTable → (tokens : List Token) → Except Rejection (Parsed (α × SymbolTable) tokens)

/-- Reads items as long as the next token may start one; `found` holds those before, the latest
first. -/
def items {α : Type} (starts : TokenKind → Bool) (read : ItemReader α) (table : SymbolTable)
    (found : List α) (tokens : List Token) :
    Except Rejection (List α × SymbolTable × List Token) :=
  match tokens with
  | [] => .ok (found.reverse, table, [])
  | token :: rest =>
    if starts token.kind then
      match read table (token :: rest) with
      | .error rejection => .error rejection
      | .ok ⟨(value, declared), remainder, _⟩ =>
        items starts read declared (value :: found) remainder
    else .ok (found.reverse, table, token :: rest)
  termination_by tokens.length
  decreasing_by assumption

/-- Reads a block that fills the whole list, with the table of its names. Its statements go on up to the
end of the block or of the input. -/
def block (finish : Position) (tokens : List Token) : Except Rejection (Block × SymbolTable) := do
  let ⟨_, rest₁, _⟩ ← rejecting .empty (expect finish .blockStart tokens)
  let (constants, table₁, rest₂) ← items (· == .constWord) (constant finish) .empty [] rest₁
  let (vars, table₂, rest₃) ← items (· == .varWord) (variableDeclaration finish) table₁ [] rest₂
  let (statements, table₃, rest₄) ← items (· != .endWord) (statement finish) table₂ [] rest₃
  let ⟨_, rest₅, _⟩ ← rejecting table₃ (expect finish .blockEnd rest₄)
  match rest₅ with
  | [] => return (⟨constants, vars, statements⟩, table₃)
  | _ => throw ⟨blame finish rest₅ (.unexpected .afterBlock), table₃⟩

end PlZero.Source

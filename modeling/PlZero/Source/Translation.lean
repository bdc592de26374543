import PlZero.Source.Parse

/-! Translation in one pass. A translation goes over a list of tokens, with at most one token to take
back, and puts out the code of what it reads as it reads it: operands first, and an operator once both of
its sides are there. Its functions call each other; each of them is given a depth to which calls may nest,
and has no result if that is not enough. -/

namespace PlZero.Source

open PlZero.Machine

/-- A translation under way: the tokens and the number of those that are consumed, whether the latest of
them can be taken back, the declared names, and the code so far. -/
structure Translation where
  tokens : List Token
  next : Nat := 0
  canReturn : Bool := false
  table : SymbolTable := .empty
  code : Code := []
  deriving DecidableEq, Repr

namespace Translation

/-- What a translation comes to, if the depth is enough: the state behind it, or a fault. -/
abbrev Attempt := ExceptT Fault Option

/-- The depth is not enough. -/
def tooDeep : Attempt Translation :=
  ExceptT.mk none

/-- The next token. Behind the last one there is an end of input in the same place. -/
def peek (state : Translation) : Token :=
  match state.tokens[state.next]? with
  | some token => token
  | none => ⟨.endOfInput, (state.tokens.getLast?.map Token.position).getD Position.none⟩

/-- Consumes the next token. -/
def advance (state : Translation) : Translation :=
  if state.next < state.tokens.length then { state with next := state.next + 1, canReturn := true }
  else { state with canReturn := false }

/-- Takes the token that was consumed last back; this goes one step only. -/
def takeBack (state : Translation) : Translation :=
  if state.canReturn then { state with next := state.next - 1, canReturn := false } else state

/-- Puts out an instruction. -/
def emit (state : Translation) (instruction : Instruction) : Translation :=
  { state with code := state.code ++ [instruction] }

/-- The fault that the next token causes. -/
def blame (state : Translation) (cause : TokenKind → Cause) : Fault :=
  ⟨cause state.peek.kind, state.peek.position⟩

/-- Consumes the token that belongs at a place. -/
def expect (state : Translation) (place : Place) : Attempt Translation :=
  if state.peek.kind = place.wanted then pure state.advance
  else throw (state.blame (.unexpected place))

/-- Puts out the factor of a sign. -/
def emitSign (state : Translation) (sign : Sign) : Translation :=
  (state.emit (.of .literal sign.factor)).emit (.of .multiply)

/-- Translates the use of a name. -/
def use (state : Translation) (name : String) (position : Position) : Attempt Translation :=
  match state.table.lookup? name with
  | none => throw ⟨.undefinedReference name, position⟩
  | some symbol =>
    if symbol.cls = .uninitialized then throw ⟨.uninitializedReference name, position⟩
    else pure (state.emit (.of .load symbol.slot))

/-- Translates an operand of one token. -/
def single (state : Translation) : Attempt Translation :=
  let token := state.peek
  let after := state.advance
  match token.kind with
  | .identifier name => after.use name token.position
  | .integer value => pure (after.emit (.of .literal value))
  | _ => throw (after.takeBack.blame .operandMissing)

mutual

/-- Translates parts joined by operators of a rank. -/
def chain : Nat → Rank → Translation → Attempt Translation
  | 0, _, _ => tooDeep
  | depth + 1, rank, state => do
    let after ← part depth rank state
    links depth rank after

/-- Translates the operators and parts that follow. -/
def links : Nat → Rank → Translation → Attempt Translation
  | 0, _, _ => tooDeep
  | depth + 1, rank, state =>
    match rank.operator? state.peek.kind with
    | none => pure state
    | some operator => do
      let after ← part depth rank state.advance
      links depth rank (after.emit (.of operator.operation))

/-- Translates a part of a chain: a term of a sum, or a factor of a product. -/
def part : Nat → Rank → Translation → Attempt Translation
  | 0, _, _ => tooDeep
  | depth + 1, .sum, state => chain depth .product state
  | depth + 1, .product, state => factor depth state

/-- Translates an operand with an optional sign. -/
def factor : Nat → Translation → Attempt Translation
  | 0, _ => tooDeep
  | depth + 1, state =>
    match sign? state.peek.kind with
    | none => operand depth state
    | some sign => do
      let after ← operand depth state.advance
      pure (after.emitSign sign)

/-- Translates a name, an integer, or an expression in parentheses. -/
def operand : Nat → Translation → Attempt Translation
  | 0, _ => tooDeep
  | depth + 1, state =>
    if state.peek.kind = .openParen then do
      let inner ← chain depth .sum state.advance
      inner.expect .groupEnd
    else state.single

end

end Translation

end PlZero.Source

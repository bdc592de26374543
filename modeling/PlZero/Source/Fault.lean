import PlZero.Source.Symbol
import PlZero.Source.Token

/-! Compile faults: what can be wrong with a source text. A fault is a cause at a position; the cause
determines its kind, the category of the kind and the detail of the message. -/

namespace PlZero.Source

open PlZero.Text

/-- The phase of compilation that a kind of fault belongs to. -/
inductive Category where
  | lexical
  | syntactic
  | semantic
  deriving DecidableEq, Repr

namespace Category

def describe : Category → String
  | lexical => "lexical"
  | syntactic => "syntactic"
  | semantic => "semantic"

/-- The text of the category with a number, counted from 0 in the order of the constructors. -/
def describeNumber : Int → String
  | 0 => lexical.describe
  | 1 => syntactic.describe
  | 2 => semantic.describe
  | number => "Category(" ++ showInt number ++ ")"

end Category

/-- The kinds of compile faults. -/
inductive FaultKind where
  | unknownToken
  | literalOverflow
  | beginMissing
  | endMissing
  | trailingInput
  | identifierMissing
  | equalSignMissing
  | constantValueMissing
  | declarationSemicolonMissing
  | statementSemicolonMissing
  | invalidStatement
  | leftParenMissing
  | rightParenMissing
  | operandMissing
  | redeclaration
  | assignToConstant
  | assignToUndefined
  | undefinedReference
  | uninitializedReference
  deriving DecidableEq, Repr

namespace FaultKind

def describe : FaultKind → String
  | unknownToken => "unknown token"
  | literalOverflow => "integer literal overflow"
  | beginMissing => "'begin' missing"
  | endMissing => "'end' missing"
  | trailingInput => "input after 'end'"
  | identifierMissing => "identifier missing in declaration"
  | equalSignMissing => "'=' missing"
  | constantValueMissing => "constant value missing"
  | declarationSemicolonMissing => "';' missing after declaration"
  | statementSemicolonMissing => "';' missing after statement"
  | invalidStatement => "invalid statement"
  | leftParenMissing => "'(' missing"
  | rightParenMissing => "')' missing"
  | operandMissing => "expression operand missing"
  | redeclaration => "redeclaration"
  | assignToConstant => "assignment to constant"
  | assignToUndefined => "assignment to undefined name"
  | undefinedReference => "reference to undefined name"
  | uninitializedReference => "reference to uninitialized variable"

def category : FaultKind → Category
  | unknownToken | literalOverflow => .lexical
  | redeclaration | assignToConstant | assignToUndefined | undefinedReference
  | uninitializedReference => .semantic
  | _ => .syntactic

/-- All kinds, in the order of their numbers, which start at 1. -/
def all : List FaultKind :=
  [unknownToken, literalOverflow, beginMissing, endMissing, trailingInput, identifierMissing,
    equalSignMissing, constantValueMissing, declarationSemicolonMissing, statementSemicolonMissing,
    invalidStatement, leftParenMissing, rightParenMissing, operandMissing, redeclaration,
    assignToConstant, assignToUndefined, undefinedReference, uninitializedReference]

/-- The kind with a number. -/
def ofNumber? (number : Int) : Option FaultKind :=
  if number < 1 then none else all[(number - 1).toNat]?

/-- The text of the kind with a number. -/
def describeNumber (number : Int) : String :=
  match ofNumber? number with
  | some kind => kind.describe
  | none => "ErrorKind(" ++ showInt number ++ ")"

/-- The category of a kind's number; numbers below the kinds count as lexical, numbers above them as
semantic. -/
def categoryOfNumber (number : Int) : Category :=
  if number ≤ 2 then .lexical
  else if number ≤ 14 then .syntactic
  else .semantic

end FaultKind

/-- The places of a block that call for one particular token. -/
inductive Place where
  | blockStart
  | blockEnd
  | afterBlock
  | beforeValue
  | afterDeclaration
  | afterStatement
  | printStart
  | groupEnd
  deriving DecidableEq, Repr

namespace Place

/-- The token that belongs at a place. -/
def wanted : Place → TokenKind
  | blockStart => .beginWord
  | blockEnd => .endWord
  | afterBlock => .endOfInput
  | beforeValue => .equals
  | afterDeclaration => .semicolon
  | afterStatement => .semicolon
  | printStart => .openParen
  | groupEnd => .closeParen

/-- The kind of fault when another token stands at a place. -/
def kind : Place → FaultKind
  | blockStart => .beginMissing
  | blockEnd => .endMissing
  | afterBlock => .trailingInput
  | beforeValue => .equalSignMissing
  | afterDeclaration => .declarationSemicolonMissing
  | afterStatement => .statementSemicolonMissing
  | printStart => .leftParenMissing
  | groupEnd => .rightParenMissing

end Place

/-- What is wrong, with what a message says about it. -/
inductive Cause where
  | strayText (run : List Glyph)
  | literalOverflow (digits : List Char)
  | unexpected (place : Place) (found : TokenKind)
  | identifierMissing (found : TokenKind)
  | constantValueMissing (name : String) (found : TokenKind)
  | invalidStatement (found : TokenKind)
  | operandMissing (found : TokenKind)
  | redeclaration (name : String) (earlier : SymbolClass)
  | assignToConstant (name : String)
  | assignToUndefined (name : String)
  | undefinedReference (name : String)
  | uninitializedReference (name : String)
  deriving DecidableEq, Repr

/-- The largest value of an integer literal. -/
def maxLiteral : Nat := 2147483647

namespace Cause

def kind : Cause → FaultKind
  | strayText _ => .unknownToken
  | literalOverflow _ => .literalOverflow
  | unexpected place _ => place.kind
  | identifierMissing _ => .identifierMissing
  | constantValueMissing _ _ => .constantValueMissing
  | invalidStatement _ => .invalidStatement
  | operandMissing _ => .operandMissing
  | redeclaration _ _ => .redeclaration
  | assignToConstant _ => .assignToConstant
  | assignToUndefined _ => .assignToUndefined
  | undefinedReference _ => .undefinedReference
  | uninitializedReference _ => .uninitializedReference

/-- The expectation or the offending text. -/
def detail : Cause → String
  | strayText run => quoteGlyphs run
  | literalOverflow digits => String.ofList digits ++ " exceeds " ++ showNat maxLiteral
  | unexpected place found => "expected " ++ place.wanted.describe ++ ", got " ++ found.describe
  | identifierMissing found => "expected identifier, got " ++ found.describe
  | constantValueMissing name found =>
    "expected unsigned integer for " ++ quote name ++ ", got " ++ found.describe
  | invalidStatement found => "expected assignment, 'print' or ';', got " ++ found.describe
  | operandMissing found => "expected identifier, integer or '(', got " ++ found.describe
  | redeclaration name earlier => quote name ++ " already declared as " ++ earlier.describe
  | assignToConstant name => quote name ++ " is a constant"
  | assignToUndefined name => quote name ++ " is not declared"
  | undefinedReference name => quote name ++ " is not declared"
  | uninitializedReference name => quote name ++ " is used before assignment"

/-- The kind and, after a colon, the detail. -/
def describe (cause : Cause) : String :=
  cause.kind.describe ++ ": " ++ cause.detail

end Cause

/-- A cause at a place in the source. -/
structure Fault where
  cause : Cause
  position : Position
  deriving DecidableEq, Repr

namespace Fault

def kind (fault : Fault) : FaultKind :=
  fault.cause.kind

def category (fault : Fault) : Category :=
  fault.kind.category

/-- The category, the kind and the detail, without the place. -/
def summary (fault : Fault) : String :=
  fault.category.describe ++ " error: " ++ fault.cause.describe

def message (fault : Fault) : String :=
  "line " ++ showInt fault.position.line ++ ", column " ++ showInt fault.position.column ++ ": "
    ++ fault.summary

end Fault

end PlZero.Source

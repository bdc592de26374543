import PlZero.Editor.Cursor
import PlZero.Source.Compile

/-! A document under an editor: its text with what compiling it tells, and the questions that can be
asked about the word at a cursor. -/

namespace PlZero.Editor

open PlZero.Text PlZero.Source

/-- A declaration found by its keyword, with the value if it is a constant. -/
structure Declaration where
  name : String
  position : Position
  constant : Option Int32
  deriving DecidableEq, Repr

/-- The value that the tokens behind a constant's name give it; zero if they give none. -/
def givenValue : List Token → Int32
  | ⟨.equals, _⟩ :: ⟨.integer value, _⟩ :: _ => value
  | ⟨.equals, _⟩ :: ⟨.minus, _⟩ :: ⟨.integer value, _⟩ :: _ => Sign.minus.apply value
  | ⟨.equals, _⟩ :: ⟨.plus, _⟩ :: ⟨.integer value, _⟩ :: _ => Sign.plus.apply value
  | _ => 0

/-- The declaration that a keyword opens. -/
def declarationAt (keyword : TokenKind) : List Token → Option Declaration
  | ⟨.identifier name, position⟩ :: rest =>
    match keyword with
    | .constWord => some ⟨name, position, some (givenValue rest)⟩
    | .varWord => some ⟨name, position, none⟩
    | _ => none
  | _ => none

/-- Everything that looks like a declaration, in order. -/
def declarations : List Token → List Declaration
  | [] => []
  | token :: rest =>
    match declarationAt token.kind rest with
    | some declaration => declaration :: declarations rest
    | none => declarations rest

/-- The documentation of the reserved words, in alphabetical order. -/
def keywordNotes : List (String × String) :=
  [("begin", "Opens the program block."),
    ("const", "`const NAME = [+|-]INTEGER;` declares a constant."),
    ("end", "Closes the program block."),
    ("print", "`print(EXPR);` writes the value followed by a newline."),
    ("var", "`var NAME [= EXPR];` declares a variable. Without an initializer the variable must be assigned before use.")]

/-- A text with what compiling it tells: its tokens, unless it does not scan, the symbols declared,
and the first fault. -/
structure Document where
  text : Bytes
  tokens : List Token
  table : SymbolTable
  fault : Option Fault

/-- What an editor offers to insert. -/
structure Completion where
  label : String
  cls : Option SymbolClass
  deriving DecidableEq, Repr

structure Diagnostic where
  span : Span
  message : String
  deriving DecidableEq, Repr

namespace Document

def read (text : Bytes) : Document :=
  match tokenize text with
  | .error fault => ⟨text, [], .empty, some fault⟩
  | .ok tokens =>
    let analysis := analyze tokens
    match analysis.result with
    | .ok _ => ⟨text, tokens, analysis.table, none⟩
    | .error fault => ⟨text, tokens, analysis.table, some fault⟩

/-- The word at a cursor. -/
def wordAt (document : Document) (cursor : Cursor) : String :=
  String.ofList ((cursor.word document.text).map fun byte => Char.ofNat byte.toNat)

/-- The part of the word at a cursor that stands before it. -/
def stemAt (document : Document) (cursor : Cursor) : String :=
  String.ofList ((cursor.stem document.text).map fun byte => Char.ofNat byte.toNat)

/-- The first declaration of a name. -/
def declaration? (document : Document) (name : String) : Option Declaration :=
  (declarations document.tokens).find? fun declaration => declaration.name == name

/-- The fault, at the lexeme where it stands. -/
def diagnostics (document : Document) : List Diagnostic :=
  match document.fault with
  | none => []
  | some fault =>
    let length := lexemeLength document.text fault.position.offset.toNat
    [⟨.at fault.position length, fault.summary⟩]

/-- What is told about a symbol. -/
def describeSymbol (document : Document) (symbol : Symbol) : String :=
  "**" ++ symbol.name ++ "**: " ++ symbol.cls.describe ++ ", slot " ++ showInt symbol.slot.toInt
    ++ match document.declaration? symbol.name with
      | none => ""
      | some declaration =>
        (match declaration.constant with
          | some value =>
            "\n\n`const " ++ symbol.name ++ " = " ++ showInt value.toInt ++ "`"
          | none => "")
          ++ "\n\nDeclared at line " ++ showInt declaration.position.line ++ "."

/-- What is told about a word: the note on a reserved word, or what a symbol is. -/
def hover? (document : Document) (word : String) : Option String :=
  match keywordNotes.lookup word with
  | some note => some ("**" ++ word ++ "**\n\n" ++ note)
  | none =>
    (document.table.symbols.find? fun symbol => symbol.name == word).map document.describeSymbol

/-- The reserved words and the symbols that start with a stem. -/
def completions (document : Document) (stem : String) : List Completion :=
  let starts := fun (name : String) => stem.toList.isPrefixOf name.toList
  ((keywordNotes.map Prod.fst).filter starts).map (fun word => ⟨word, none⟩)
    ++ (document.table.symbols.filter fun symbol => starts symbol.name).map fun symbol =>
      ⟨symbol.name, some symbol.cls⟩

/-- The span of an identifier. -/
def spanOf (name : String) (position : Position) : Span :=
  .at position name.length

/-- Where a word is declared. -/
def definition? (document : Document) (word : String) : Option Span :=
  (document.declaration? word).map fun declaration => spanOf word declaration.position

/-- Where a word is used, its declaration included or not. -/
def references (document : Document) (word : String) (withDeclaration : Bool) : List Span :=
  let declared := (document.declaration? word).map Declaration.position
  document.tokens.filterMap fun token =>
    if token.kind = .identifier word ∧ (withDeclaration ∨ declared ≠ some token.position) then
      some (spanOf word token.position)
    else none

end Document

end PlZero.Editor

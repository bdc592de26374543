import PlZero.Source.Parse
import PlZero.Source.Scan

/-! Compilation: tokens are analysed into code and a symbol table, and a source text is compiled by
scanning it first. Nothing behind the first end of input counts, and a list without one ends where its
last token stands. -/

namespace PlZero.Source

open PlZero.Text PlZero.Machine

/-- The tokens before the first end of input. -/
def sentence (tokens : List Token) : List Token :=
  tokens.takeWhile fun token => token.kind != .endOfInput

/-- The place where the input ends. -/
def finish (tokens : List Token) : Position :=
  match tokens.find? fun token => token.kind == .endOfInput with
  | some token => token.position
  | none => (tokens.getLast?.map Token.position).getD Position.none

/-- What analysing tokens comes to: the names declared, and the code or the first fault. -/
structure Analysis where
  table : SymbolTable
  result : Except Fault Code

/-- Analyses a list of tokens. -/
def analyze (tokens : List Token) : Analysis :=
  match block (finish tokens) (sentence tokens) with
  | .ok (program, table) => ⟨table, .ok program.code⟩
  | .error rejection => ⟨rejection.table, .error rejection.fault⟩

/-- An analyzer serves one list of tokens after the other; it keeps the names that the latest of them
declared. -/
structure Analyzer where
  latest : SymbolTable := .empty

namespace Analyzer

/-- Analyses a list of tokens, with nothing declared by the lists before it. -/
def analyze (_ : Analyzer) (tokens : List Token) : Except Fault Code × Analyzer :=
  let analysis := Source.analyze tokens
  (analysis.result, ⟨analysis.table⟩)

/-- The symbols of the latest list of tokens, in slot order. -/
def symbols (analyzer : Analyzer) : List Symbol :=
  analyzer.latest.symbols

end Analyzer

/-- The code of a source text, or the first fault in it. -/
def compile (text : Bytes) : Except Fault Code := do
  let tokens ← tokenize text
  (analyze tokens).result

end PlZero.Source

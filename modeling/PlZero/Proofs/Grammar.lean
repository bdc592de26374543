import Mathlib
import PlZero.Source.Compile

/-! The grammar of the source language as relations between rows of token kinds and syntax trees, and
the rules on names that a block keeps beside it. Nothing here refers to the reader: what it accepts is
compared with these relations elsewhere. -/

namespace PlZero.Source

/-- The kinds of tokens; positions play no part in the grammar. -/
def kinds (tokens : List Token) : List TokenKind :=
  tokens.map Token.kind

@[simp] theorem kinds_nil : kinds [] = [] := rfl

@[simp] theorem kinds_cons (token : Token) (rest : List Token) :
    kinds (token :: rest) = token.kind :: kinds rest := rfl

@[simp] theorem kinds_append (left right : List Token) :
    kinds (left ++ right) = kinds left ++ kinds right :=
  List.map_append

theorem kinds_eq_nil_iff {tokens : List Token} : kinds tokens = [] ↔ tokens = [] :=
  List.map_eq_nil_iff

theorem kinds_eq_cons_iff {tokens : List Token} {kind : TokenKind} {row : List TokenKind} :
    kinds tokens = kind :: row ↔
      ∃ position rest, tokens = ⟨kind, position⟩ :: rest ∧ kinds rest = row := by
  constructor
  · intro h
    obtain ⟨⟨_, position⟩, rest, rfl, rfl, hrest⟩ := List.map_eq_cons_iff.mp h
    exact ⟨position, rest, rfl, hrest⟩
  · rintro ⟨position, rest, rfl, rfl⟩
    rfl

theorem kinds_eq_append_iff {tokens : List Token} {first second : List TokenKind} :
    kinds tokens = first ++ second ↔
      ∃ left right, tokens = left ++ right ∧ kinds left = first ∧ kinds right = second :=
  List.map_eq_append_iff

/-- How a sign is spelled. -/
def Sign.mark : Sign → TokenKind
  | plus => .plus
  | minus => .minus

/-- How an operator is spelled. -/
def BinaryOperator.mark : BinaryOperator → TokenKind
  | add => .plus
  | subtract => .minus
  | multiply => .times
  | divide => .divide

theorem BinaryOperator.isArithmetic_operation (operator : BinaryOperator) :
    operator.operation.isArithmetic = true := by
  cases operator <;> rfl

/-- The rank of an operator: multiplication and division bind tighter. -/
def BinaryOperator.rank : BinaryOperator → Rank
  | add => .sum
  | subtract => .sum
  | multiply => .product
  | divide => .product

/-- The levels of an expression, from the loosest to the tightest. -/
inductive Level where
  | expression
  | term
  | factor
  | operand
  deriving DecidableEq, Repr

/-- The row of kinds is an expression of the level, and the tree is its syntax tree. Operators of one
level group to the left, and a sign belongs to the one operand behind it. -/
inductive Phrase : Level → List TokenKind → Expression → Prop where
  | literal (value : Int32) : Phrase .operand [.integer value] (.literal value)
  | name (used : String) : Phrase .operand [.identifier used] (.name used)
  | group {row : List TokenKind} {tree : Expression} (inner : Phrase .expression row tree) :
      Phrase .operand (.openParen :: (row ++ [.closeParen])) tree
  | unsigned {row : List TokenKind} {tree : Expression} (inner : Phrase .operand row tree) :
      Phrase .factor row tree
  | signed {row : List TokenKind} {tree : Expression} (sign : Sign)
      (inner : Phrase .operand row tree) : Phrase .factor (sign.mark :: row) (.signed sign tree)
  | lone {row : List TokenKind} {tree : Expression} (inner : Phrase .factor row tree) :
      Phrase .term row tree
  | product {first second : List TokenKind} {left right : Expression} (operator : BinaryOperator)
      (hrank : operator.rank = .product) (head : Phrase .term first left)
      (tail : Phrase .factor second right) :
      Phrase .term (first ++ operator.mark :: second) (.binary operator left right)
  | single {row : List TokenKind} {tree : Expression} (inner : Phrase .term row tree) :
      Phrase .expression row tree
  | sum {first second : List TokenKind} {left right : Expression} (operator : BinaryOperator)
      (hrank : operator.rank = .sum) (head : Phrase .expression first left)
      (tail : Phrase .term second right) :
      Phrase .expression (first ++ operator.mark :: second) (.binary operator left right)

/-- The row is the declaration of a constant. -/
inductive ConstantPhrase : List TokenKind → Constant → Prop where
  | unsigned (name : String) (value : Int32) :
      ConstantPhrase [.constWord, .identifier name, .equals, .integer value, .semicolon]
        ⟨name, value⟩
  | signed (name : String) (sign : Sign) (value : Int32) :
      ConstantPhrase [.constWord, .identifier name, .equals, sign.mark, .integer value, .semicolon]
        ⟨name, sign.apply value⟩

/-- The row is the declaration of a variable. -/
inductive VariablePhrase : List TokenKind → Variable → Prop where
  | bare (name : String) : VariablePhrase [.varWord, .identifier name, .semicolon] ⟨name, none⟩
  | initialized {row : List TokenKind} {tree : Expression} (name : String)
      (value : Phrase .expression row tree) :
      VariablePhrase (.varWord :: .identifier name :: .equals :: (row ++ [.semicolon]))
        ⟨name, some tree⟩

/-- The row is a statement. -/
inductive StatementPhrase : List TokenKind → Statement → Prop where
  | assign {row : List TokenKind} {tree : Expression} (target : String)
      (value : Phrase .expression row tree) :
      StatementPhrase (.identifier target :: .equals :: (row ++ [.semicolon])) (.assign target tree)
  | print {row : List TokenKind} {tree : Expression} (value : Phrase .expression row tree) :
      StatementPhrase (.printWord :: .openParen :: (row ++ [.closeParen, .semicolon])) (.print tree)
  | empty : StatementPhrase [.semicolon] .empty

/-- The row is a number of parts, one behind the other. -/
inductive Sequence {α : Type} (part : List TokenKind → α → Prop) : List TokenKind → List α → Prop where
  | nil : Sequence part [] []
  | cons {first rest : List TokenKind} {item : α} {items : List α} (head : part first item)
      (tail : Sequence part rest items) : Sequence part (first ++ rest) (item :: items)

/-- The row is a block: constants, then variables, then statements. -/
inductive BlockPhrase : List TokenKind → Block → Prop where
  | mk {first second third : List TokenKind} {constants : List Constant} {vars : List Variable}
      {statements : List Statement} (declared : Sequence ConstantPhrase first constants)
      (followed : Sequence VariablePhrase second vars)
      (body : Sequence StatementPhrase third statements) :
      BlockPhrase (.beginWord :: (first ++ (second ++ (third ++ [.endWord]))))
        ⟨constants, vars, statements⟩

/-- The names that an expression uses. -/
def Expression.names : Expression → List String
  | literal _ => []
  | name used => [used]
  | signed _ operand => operand.names
  | binary _ left right => left.names ++ right.names

/-- The names that the expression of a statement uses; the target of an assignment is none of them. -/
def Statement.names : Statement → List String
  | assign _ value => value.names
  | print value => value.names
  | empty => []

/-- A constant of the block has the name. -/
def Block.HasConstant (block : Block) (name : String) : Prop :=
  ∃ constant ∈ block.constants, constant.name = name

/-- The rules on names: what a block declares and what it uses where. -/
structure Block.WellNamed (block : Block) : Prop where
  distinct : block.names.Nodup
  initializers : ∀ (before : List Variable) (declared : Variable) (after : List Variable)
    (value : Expression), block.vars = before ++ declared :: after → declared.initial = some value →
      ∀ used ∈ value.names, block.HasConstant used ∨
        ∃ earlier ∈ before, earlier.name = used ∧ earlier.initial.isSome
  targets : ∀ (target : String) (value : Expression), .assign target value ∈ block.statements →
    (∃ declared ∈ block.vars, declared.name = target) ∧ ¬block.HasConstant target
  uses : ∀ (before : List Statement) (statement : Statement) (after : List Statement),
    block.statements = before ++ statement :: after → ∀ used ∈ statement.names,
      block.HasConstant used ∨ ∃ declared ∈ block.vars, declared.name = used ∧
        (declared.initial.isSome ∨ ∃ value, .assign used value ∈ before)

end PlZero.Source

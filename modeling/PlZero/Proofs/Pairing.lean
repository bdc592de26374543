import PlZero.Proofs.Items

/-! Two readings side by side. Two lists of tokens that differ in their names and positions only, with
names that coincide in one list where they do in the other, are read alike: to trees and tables that
differ in the names only, or to faults of one kind at corresponding places. -/

namespace PlZero.Source

open PlZero.Attempt

/-- Which positions and which names of two readings correspond. A name corresponds to one name only. -/
structure Pairing where
  place : Position → Position → Prop
  same : String → String → Prop
  unique : Relator.BiUnique same

namespace Pairing

variable (pair : Pairing)

/-- Two kinds that are the same but for a name. -/
inductive Kinds : TokenKind → TokenKind → Prop where
  | name {left right : String} (h : pair.same left right) : Kinds (.identifier left) (.identifier right)
  | plain {kind : TokenKind} (h : ∀ name, kind ≠ .identifier name) : Kinds kind kind

structure Heads (left right : Token) : Prop where
  kind : pair.Kinds left.kind right.kind
  position : pair.place left.position right.position

abbrev Rows : List Token → List Token → Prop :=
  List.Forall₂ pair.Heads

/-- Two faults of one kind at corresponding places. -/
structure Faults (left right : Fault) : Prop where
  kind : left.kind = right.kind
  position : pair.place left.position right.position

/-- Two tables with corresponding names of the same classes. -/
def Tables (left right : SymbolTable) : Prop :=
  List.Forall₂ (fun entry other => pair.same entry.1 other.1 ∧ entry.2 = other.2)
    left.entries right.entries

structure Rejections (left right : Rejection) : Prop where
  fault : pair.Faults left.fault right.fault
  table : pair.Tables left.table right.table

inductive Trees : Expression → Expression → Prop where
  | literal (value : Int32) : Trees (.literal value) (.literal value)
  | name {left right : String} (h : pair.same left right) : Trees (.name left) (.name right)
  | signed (sign : Sign) {left right : Expression} (h : Trees left right) :
      Trees (.signed sign left) (.signed sign right)
  | binary (operator : BinaryOperator) {left left' right right' : Expression} (hleft : Trees left left')
      (hright : Trees right right') : Trees (.binary operator left right) (.binary operator left' right')

/-- Two expressions that were read, with the rows behind them. -/
def Readings (left right : Expression × List Token) : Prop :=
  pair.Trees left.1 right.1 ∧ pair.Rows left.2 right.2

def Constants (left right : Constant) : Prop :=
  pair.same left.name right.name ∧ left.value = right.value

def Variables (left right : Variable) : Prop :=
  pair.same left.name right.name ∧ Option.Rel pair.Trees left.initial right.initial

inductive Statements : Statement → Statement → Prop where
  | assign {target target' : String} {value value' : Expression} (htarget : pair.same target target')
      (hvalue : pair.Trees value value') : Statements (.assign target value) (.assign target' value')
  | print {value value' : Expression} (hvalue : pair.Trees value value') :
      Statements (.print value) (.print value')
  | empty : Statements .empty .empty

structure Blocks (left right : Block) : Prop where
  constants : List.Forall₂ pair.Constants left.constants right.constants
  vars : List.Forall₂ pair.Variables left.vars right.vars
  statements : List.Forall₂ pair.Statements left.statements right.statements

/-- What two item readers take: items that correspond, with tables and rows behind them. -/
def Items {α : Type} (values : α → α → Prop) {tokens tokens' : List Token}
    (left : Parsed (α × SymbolTable) tokens) (right : Parsed (α × SymbolTable) tokens') : Prop :=
  values left.value.1 right.value.1 ∧ pair.Tables left.value.2 right.value.2 ∧
    pair.Rows left.rest right.rest

end Pairing

variable {pair : Pairing} {finish finish' : Position} {table table' : SymbolTable}
  {tokens tokens' : List Token}

namespace Pairing

theorem eq_iff {left left' right right' : String} (hleft : pair.same left left')
    (hright : pair.same right right') : left = right ↔ left' = right' := by
  constructor
  · rintro rfl
    exact pair.unique.2 hleft hright
  · rintro rfl
    exact pair.unique.1 hleft hright

theorem tables_empty : pair.Tables .empty .empty :=
  List.Forall₂.nil

section Tables

variable {name name' : String} (h : pair.Tables table table') (hname : pair.same name name')

include h hname

theorem Tables.class?_eq : table.class? name = table'.class? name' := by
  obtain ⟨entries⟩ := table
  obtain ⟨entries'⟩ := table'
  change List.Forall₂ _ entries entries' at h
  change entries.lookup name = entries'.lookup name'
  induction h with
  | nil => rfl
  | @cons entry other rest rest' hentry hrest ih =>
      obtain ⟨hfirst, hcls⟩ := hentry
      rw [List.lookup_cons, List.lookup_cons, ih, hcls]
      have hbeq : (name == entry.1) = (name' == other.1) := by
        rw [Bool.eq_iff_iff, beq_iff_eq, beq_iff_eq]
        exact eq_iff hname hfirst
      rw [hbeq]

theorem Tables.add (cls : SymbolClass) : pair.Tables (table.add name cls) (table'.add name' cls) :=
  List.rel_append h (.cons ⟨hname, rfl⟩ .nil)

theorem Tables.markInitialized :
    pair.Tables (table.markInitialized name) (table'.markInitialized name') := by
  refine List.rel_map ?_ h
  rintro ⟨first, cls⟩ ⟨first', _⟩ ⟨hfirst, rfl⟩
  have hbeq : (first == name) = (first' == name') := by
    rw [Bool.eq_iff_iff, beq_iff_eq, beq_iff_eq]
    exact eq_iff hfirst hname
  dsimp only
  rw [hbeq]
  split
  · exact ⟨hfirst, rfl⟩
  · exact ⟨hfirst, rfl⟩

end Tables

/-- What does not look at names does not tell the kinds apart. -/
theorem Kinds.congr {kind kind' : TokenKind} (h : pair.Kinds kind kind') {β : Type}
    (look : TokenKind → β)
    (hlook : ∀ left right, look (.identifier left) = look (.identifier right)) :
    look kind = look kind' := by
  cases h with
  | name hname => exact hlook _ _
  | plain hplain => rfl

theorem Kinds.eq_wanted_iff {kind kind' : TokenKind} (h : pair.Kinds kind kind') (place : Place) :
    kind = place.wanted ↔ kind' = place.wanted := by
  rw [← decide_eq_decide]
  exact h.congr (fun kind => decide (kind = place.wanted)) (by cases place <;> exact fun _ _ => rfl)

theorem Kinds.operator?_eq {kind kind' : TokenKind} (h : pair.Kinds kind kind') (rank : Rank) :
    rank.operator? kind = rank.operator? kind' :=
  h.congr rank.operator? (by cases rank <;> exact fun _ _ => rfl)

section Tokens

variable (hplace : pair.place finish finish') (h : pair.Rows tokens tokens')

include hplace h

theorem heads_nextToken : pair.Heads (nextToken finish tokens) (nextToken finish' tokens') := by
  cases h with
  | nil => exact ⟨.plain nofun, hplace⟩
  | cons hhead hrest => exact hhead

theorem faults_blame (cause cause' : TokenKind → Cause)
    (hcause : ∀ kind kind', (cause kind).kind = (cause' kind').kind) :
    pair.Faults (blame finish tokens cause) (blame finish' tokens' cause') :=
  ⟨hcause _ _, (heads_nextToken hplace h).position⟩

theorem agree_expect (place : Place) :
    Agree pair.Faults (fun left right => pair.Rows left.rest right.rest) (expect finish place tokens)
      (expect finish' place tokens') := by
  have hblame := faults_blame hplace h (.unexpected place) (.unexpected place) fun _ _ => rfl
  cases h with
  | nil => exact .error hblame
  | @cons token token' rest rest' hhead hrest =>
      have hwanted := hhead.kind.eq_wanted_iff place
      rw [expect, expect]
      by_cases hkind : token.kind = place.wanted
      · rw [if_pos hkind, if_pos (hwanted.mp hkind)]
        exact .ok hrest
      · rw [if_neg hkind, if_neg fun hother => hkind (hwanted.mpr hother)]
        exact .error hblame

omit hplace in
theorem rows_tail : pair.Rows tokens.tail tokens'.tail := by
  cases h with
  | nil => exact .nil
  | cons hhead hrest => exact hrest

theorem agree_declaredName :
    Agree pair.Faults (fun left right => pair.same left.value.1 right.value.1 ∧
        pair.place left.value.2 right.value.2 ∧ pair.Rows left.rest right.rest)
      (declaredName finish tokens) (declaredName finish' tokens') := by
  have hblame := faults_blame hplace h .identifierMissing .identifierMissing fun _ _ => rfl
  cases h with
  | nil => exact .error hblame
  | @cons token token' rest rest' hhead hrest =>
      obtain ⟨kind, position⟩ := token
      obtain ⟨kind', position'⟩ := token'
      obtain ⟨hkind, hposition⟩ := hhead
      cases hkind with
      | name hname => exact .ok ⟨hname, hposition, hrest⟩
      | plain hplain =>
          cases kind with
          | identifier name => exact absurd rfl (hplain name)
          | _ => exact .error hblame

end Tokens

/-! ### Phrases -/

/-- The readings of two rows at a level correspond. -/
def ReadsAlike (pair : Pairing) (finish finish' : Position) (table table' : SymbolTable) (level : Level)
    (tokens tokens' : List Token) : Prop :=
  Agree pair.Faults pair.Readings (read finish table level tokens)
    (read finish' table' level tokens')

theorem readsAlike_operand (hplace : pair.place finish finish') (htable : pair.Tables table table')
    (h : pair.Rows tokens tokens')
    (hinner : ∀ inner inner', inner.length < tokens.length → pair.Rows inner inner' →
      pair.ReadsAlike finish finish' table table' .expression inner inner') :
    pair.ReadsAlike finish finish' table table' .operand tokens tokens' := by
  have hblame := faults_blame hplace h .operandMissing .operandMissing fun _ _ => rfl
  unfold ReadsAlike
  cases h with
  | nil =>
      rw [read, read, operand, operand]
      · exact .error hblame
      all_goals (intros; injections)
  | @cons token token' rest rest' hhead hrest =>
      obtain ⟨kind, position⟩ := token
      obtain ⟨kind', position'⟩ := token'
      obtain ⟨hkind, hposition⟩ := hhead
      cases hkind with
      | @name used used' hname =>
          rw [read, read, operand, operand, htable.class?_eq hname]
          cases table'.class? used' with
          | none => exact .error ⟨rfl, hposition⟩
          | some cls =>
              cases cls with
              | uninitialized => exact .error ⟨rfl, hposition⟩
              | initialized => exact .ok ⟨.name hname, hrest⟩
              | constant => exact .ok ⟨.name hname, hrest⟩
      | plain hplain =>
          cases kind with
          | identifier name => exact absurd rfl (hplain name)
          | integer value =>
              rw [read_operand_literal rest rfl, read_operand_literal rest' rfl]
              exact .ok ⟨.literal value, hrest⟩
          | openParen =>
              rw [read_operand_group rest rfl, read_operand_group rest' rfl]
              refine (hinner rest rest' (by simp) hrest).bind fun found found' hfound => ?_
              exact agree_map_iff.mpr ((agree_expect hplace hfound.2 .groupEnd).mono
                (fun _ _ hfault => hfault) fun _ _ hbehind => ⟨hfound.1, hbehind⟩)
          | _ =>
              rw [read, read, operand, operand]
              · exact .error hblame
              all_goals (intros; injections)

theorem readsAlike_factor (h : pair.Rows tokens tokens')
    (hoperand : ∀ inner inner', inner.length ≤ tokens.length → pair.Rows inner inner' →
      pair.ReadsAlike finish finish' table table' .operand inner inner') :
    pair.ReadsAlike finish finish' table table' .factor tokens tokens' := by
  unfold ReadsAlike
  cases h with
  | nil =>
      rw [read_factor_unsigned (by simp), read_factor_unsigned (by simp)]
      exact hoperand [] [] le_rfl .nil
  | @cons token token' rest rest' hhead hrest =>
      cases hsign : sign? token.kind with
      | none =>
          rw [read_factor_unsigned, read_factor_unsigned]
          · exact hoperand _ _ le_rfl (.cons hhead hrest)
          · rintro _ _ ⟨⟩
            rw [← hhead.kind.congr sign? fun _ _ => rfl, hsign]
          · rintro _ _ ⟨⟩
            exact hsign
      | some sign =>
          have hsign' := (hhead.kind.congr sign? fun _ _ => rfl).symm.trans hsign
          rw [read_factor_signed sign rest (sign?_eq_some_iff.mp hsign),
            read_factor_signed sign rest' (sign?_eq_some_iff.mp hsign')]
          exact agree_map_iff.mpr ((hoperand rest rest' (by simp) hrest).mono
            (fun _ _ hfault => hfault) fun _ _ hfound => ⟨.signed sign hfound.1, hfound.2⟩)

/-- The loops over the operators of a rank take the same steps in both readings. -/
theorem agree_extend {rank : Rank} {left left' : Expression} (hleft : pair.Trees left left')
    (h : pair.Rows tokens tokens')
    (hbelow : ∀ inner inner', inner.length < tokens.length → pair.Rows inner inner' →
      pair.ReadsAlike finish finish' table table' rank.below inner inner') :
    Agree pair.Faults pair.Readings (extend finish table rank left tokens)
      (extend finish' table' rank left' tokens') := by
  induction hlength : tokens.length using Nat.strong_induction_on
    generalizing tokens tokens' left left' with
  | _ length ih =>
      cases h with
      | nil =>
          rw [extend_nil, extend_nil]
          exact .ok ⟨hleft, .nil⟩
      | @cons token token' rest rest' hhead hrest =>
          cases hoperator : rank.operator? token.kind with
          | none =>
              have hoperator' := (hhead.kind.operator?_eq rank).symm.trans hoperator
              rw [extend_stop left rest hoperator, extend_stop left' rest' hoperator']
              exact .ok ⟨hleft, .cons hhead hrest⟩
          | some operator =>
              have hoperator' := (hhead.kind.operator?_eq rank).symm.trans hoperator
              obtain ⟨htoken, hrank⟩ := Rank.operator?_eq_some_iff.mp hoperator
              obtain ⟨htoken', -⟩ := Rank.operator?_eq_some_iff.mp hoperator'
              rw [extend_join operator left rest hrank htoken,
                extend_join operator left' rest' hrank htoken']
              -- Behind the right part fewer tokens are left, so the loops go on by induction.
              have hright := (hbelow rest rest' (by simp) hrest).and_of_ok fun _ => read_shorter
              refine hright.bind fun found found' hfound => ?_
              obtain ⟨⟨htree, hbehind⟩, hshorter⟩ := hfound
              have hlengths : found.2.length < rest.length ∧ length = rest.length + 1 :=
                ⟨hshorter, hlength.symm⟩
              refine ih found.2.length (by omega) (.binary operator hleft htree) hbehind ?_ rfl
              intro inner inner' hinner
              exact hbelow inner inner' (by rw [hlength]; omega)

theorem readsAlike_chain (rank : Rank) (h : pair.Rows tokens tokens')
    (hbelow : ∀ inner inner', inner.length ≤ tokens.length → pair.Rows inner inner' →
      pair.ReadsAlike finish finish' table table' rank.below inner inner') :
    pair.ReadsAlike finish finish' table table' rank.level tokens tokens' := by
  unfold ReadsAlike
  rw [read_chain, read_chain]
  have hleft := (hbelow tokens tokens' le_rfl h).and_of_ok fun _ => read_shorter
  refine hleft.bind fun found found' hfound => ?_
  obtain ⟨⟨htree, hbehind⟩, hshorter⟩ := hfound
  have hle : found.2.length < tokens.length := hshorter
  exact agree_extend htree hbehind fun inner inner' hinner => hbelow inner inner' (by omega)

/-- Phrases of a level are read alike. -/
theorem readsAlike_level (hplace : pair.place finish finish') (htable : pair.Tables table table')
    (level : Level) (tokens : List Token) : ∀ tokens', pair.Rows tokens tokens' →
      pair.ReadsAlike finish finish' table table' level tokens tokens' := by
  refine level_induction ?_ ?_ ?_ level tokens
  · intro tokens hinner tokens' h
    exact readsAlike_operand hplace htable h fun inner inner' hshorter =>
      hinner inner hshorter inner'
  · intro tokens hoperand tokens' h
    exact readsAlike_factor h fun inner inner' hle => hoperand inner hle inner'
  · intro rank tokens hbelow tokens' h
    exact readsAlike_chain rank h fun inner inner' hle => hbelow inner hle inner'

theorem agree_expression (hplace : pair.place finish finish') (htable : pair.Tables table table')
    (h : pair.Rows tokens tokens') :
    Agree pair.Faults (fun left right => pair.Trees left.value right.value ∧
        pair.Rows left.rest right.rest)
      (expression finish table tokens) (expression finish' table' tokens') :=
  agree_map_iff.mp (readsAlike_level hplace htable .expression tokens tokens' h)

theorem agree_rejecting {α β : Type} {good : α → β → Prop} {first : Except Fault α}
    {second : Except Fault β} (htable : pair.Tables table table')
    (h : Agree pair.Faults good first second) :
    Agree pair.Rejections good (rejecting table first) (rejecting table' second) := by
  cases h with
  | ok h => exact .ok h
  | error h => exact .error ⟨h, htable⟩

theorem agree_declareName {name name' : String} {position position' : Position}
    (htable : pair.Tables table table') (hname : pair.same name name')
    (hposition : pair.place position position') (cls : SymbolClass) :
    Agree pair.Rejections pair.Tables (declareName table name position cls)
      (declareName table' name' position' cls) := by
  rw [declareName, declareName, htable.class?_eq hname]
  cases table'.class? name' with
  | some earlier => exact .error ⟨⟨rfl, hposition⟩, htable⟩
  | none => exact .ok (htable.add hname cls)

theorem agree_constantValue (hplace : pair.place finish finish') (h : pair.Rows tokens tokens')
    (name name' : String) :
    Agree pair.Faults (fun left right => left.value = right.value ∧ pair.Rows left.rest right.rest)
      (constantValue finish name tokens) (constantValue finish' name' tokens') := by
  have hblame {row row' : List Token} (hrow : pair.Rows row row') :=
    faults_blame hplace hrow (.constantValueMissing name) (.constantValueMissing name') fun _ _ => rfl
  cases h with
  | nil => exact .error (hblame .nil)
  | @cons token token' rest rest' hhead hrest =>
      have hrows : pair.Rows (token :: rest) (token' :: rest') := .cons hhead hrest
      obtain ⟨kind, position⟩ := token
      obtain ⟨kind', position'⟩ := token'
      cases hhead.kind with
      | name hname => exact .error (hblame hrows)
      | plain hplain =>
          cases kind with
          | identifier name => exact absurd rfl (hplain name)
          | integer value => exact .ok ⟨rfl, hrest⟩
          | plus | minus =>
              cases hrest with
              | nil => exact .error (hblame .nil)
              | @cons second second' behind behind' hsecond hbehind =>
                  have hrest : pair.Rows (second :: behind) (second' :: behind') :=
                    .cons hsecond hbehind
                  obtain ⟨kind, position⟩ := second
                  obtain ⟨kind', position'⟩ := second'
                  cases hsecond.kind with
                  | name hname => exact .error (hblame hrest)
                  | plain hplain =>
                      cases kind with
                      | identifier name => exact absurd rfl (hplain name)
                      | integer value => exact .ok ⟨rfl, hbehind⟩
                      | _ => exact .error (hblame hrest)
          | _ => exact .error (hblame hrows)

section Readers

variable (hplace : pair.place finish finish') (htable : pair.Tables table table')
  (h : pair.Rows tokens tokens')

include hplace htable h

theorem agree_constant : Agree pair.Rejections (pair.Items pair.Constants)
    (constant finish table tokens) (constant finish' table' tokens') := by
  refine (agree_rejecting htable (agree_declaredName hplace (rows_tail h))).bind ?_
  rintro ⟨⟨name, position⟩, rest₁, _⟩ ⟨⟨name', position'⟩, rest₁', _⟩ ⟨hname, hposition, hrest₁⟩
  refine (agree_rejecting htable (agree_expect hplace hrest₁ .beforeValue)).bind ?_
  rintro ⟨_, rest₂, _⟩ ⟨_, rest₂', _⟩ hrest₂
  refine (agree_rejecting htable (agree_constantValue hplace hrest₂ name name')).bind ?_
  rintro ⟨value, rest₃, _⟩ ⟨_, rest₃', _⟩ ⟨rfl, hrest₃⟩
  refine (agree_declareName htable hname hposition .constant).bind fun declared declared' hdeclared => ?_
  refine (agree_rejecting hdeclared (agree_expect hplace hrest₃ .afterDeclaration)).bind ?_
  rintro ⟨_, rest₄, _⟩ ⟨_, rest₄', _⟩ hrest₄
  exact .ok ⟨⟨hname, rfl⟩, hdeclared, hrest₄⟩

theorem agree_variableDeclaration : Agree pair.Rejections (pair.Items pair.Variables)
    (variableDeclaration finish table tokens) (variableDeclaration finish' table' tokens') := by
  refine (agree_rejecting htable (agree_declaredName hplace (rows_tail h))).bind ?_
  rintro ⟨⟨name, position⟩, rest₁, _⟩ ⟨⟨name', position'⟩, rest₁', _⟩ ⟨hname, hposition, hrest₁⟩
  -- Whether an initial value follows is seen from the next token, which is alike in both rows.
  have hequals := agree_expect hplace hrest₁ .beforeValue
  dsimp only at hrest₁ hequals ⊢
  generalize expect finish .beforeValue rest₁ = attempt at hequals ⊢
  generalize expect finish' .beforeValue rest₁' = attempt' at hequals ⊢
  cases hequals with
  | @ok parsed parsed' hrest₂ =>
      obtain ⟨_, rest₂, _⟩ := parsed
      obtain ⟨_, rest₂', _⟩ := parsed'
      refine (agree_rejecting htable (agree_expression hplace htable hrest₂)).bind ?_
      rintro ⟨value, rest₃, _⟩ ⟨value', rest₃', _⟩ ⟨hvalue, hrest₃⟩
      refine (agree_declareName htable hname hposition .initialized).bind
        fun declared declared' hdeclared => ?_
      refine (agree_rejecting hdeclared (agree_expect hplace hrest₃ .afterDeclaration)).bind ?_
      rintro ⟨_, rest₄, _⟩ ⟨_, rest₄', _⟩ hrest₄
      exact .ok ⟨⟨hname, .some hvalue⟩, hdeclared, hrest₄⟩
  | error _ =>
      refine (agree_declareName htable hname hposition .uninitialized).bind
        fun declared declared' hdeclared => ?_
      refine (agree_rejecting hdeclared (agree_expect hplace hrest₁ .afterDeclaration)).bind ?_
      rintro ⟨_, rest₂, _⟩ ⟨_, rest₂', _⟩ hrest₂
      exact .ok ⟨⟨hname, .none⟩, hdeclared, hrest₂⟩

theorem agree_assignment {name name' : String} (hname : pair.same name name')
    {position position' : Position} (hposition : pair.place position position') :
    Agree pair.Rejections (pair.Items pair.Statements) (assignment finish table name position tokens)
      (assignment finish' table' name' position' tokens') := by
  rw [assignment, assignment, htable.class?_eq hname]
  cases table'.class? name' with
  | none => exact .error ⟨⟨rfl, hposition⟩, htable⟩
  | some cls =>
      cases cls with
      | constant => exact .error ⟨⟨rfl, hposition⟩, htable⟩
      | initialized | uninitialized =>
          refine (agree_rejecting htable (agree_expect hplace h .beforeValue)).bind ?_
          rintro ⟨_, rest₁, _⟩ ⟨_, rest₁', _⟩ hrest₁
          refine (agree_rejecting htable (agree_expression hplace htable hrest₁)).bind ?_
          rintro ⟨value, rest₂, _⟩ ⟨value', rest₂', _⟩ ⟨hvalue, hrest₂⟩
          refine (agree_rejecting htable (agree_expect hplace hrest₂ .afterStatement)).bind ?_
          rintro ⟨_, rest₃, _⟩ ⟨_, rest₃', _⟩ hrest₃
          exact .ok ⟨.assign hname hvalue, htable.markInitialized hname, hrest₃⟩

theorem agree_printing : Agree pair.Rejections (pair.Items pair.Statements)
    (printing finish table tokens) (printing finish' table' tokens') := by
  refine (agree_rejecting htable (agree_expect hplace h .printStart)).bind ?_
  rintro ⟨_, rest₁, _⟩ ⟨_, rest₁', _⟩ hrest₁
  refine (agree_rejecting htable (agree_expression hplace htable hrest₁)).bind ?_
  rintro ⟨value, rest₂, _⟩ ⟨value', rest₂', _⟩ ⟨hvalue, hrest₂⟩
  refine (agree_rejecting htable (agree_expect hplace hrest₂ .groupEnd)).bind ?_
  rintro ⟨_, rest₃, _⟩ ⟨_, rest₃', _⟩ hrest₃
  refine (agree_rejecting htable (agree_expect hplace hrest₃ .afterStatement)).bind ?_
  rintro ⟨_, rest₄, _⟩ ⟨_, rest₄', _⟩ hrest₄
  exact .ok ⟨.print hvalue, htable, hrest₄⟩

theorem agree_statement : Agree pair.Rejections (pair.Items pair.Statements)
    (statement finish table tokens) (statement finish' table' tokens') := by
  have hblame : pair.Rejections ⟨blame finish tokens .invalidStatement, table⟩
      ⟨blame finish' tokens' .invalidStatement, table'⟩ :=
    ⟨faults_blame hplace h .invalidStatement .invalidStatement fun _ _ => rfl, htable⟩
  cases h with
  | nil => exact .error hblame
  | @cons token token' rest rest' hhead hrest =>
      obtain ⟨kind, position⟩ := token
      obtain ⟨kind', position'⟩ := token'
      obtain ⟨hkind, hposition⟩ := hhead
      cases hkind with
      | name hname =>
          refine (agree_assignment hplace htable hrest hname hposition).bind ?_
          rintro ⟨value, remainder, _⟩ ⟨value', remainder', _⟩ hitem
          exact .ok hitem
      | plain hplain =>
          cases kind with
          | identifier name => exact absurd rfl (hplain name)
          | printWord =>
              refine (agree_printing hplace htable hrest).bind ?_
              rintro ⟨value, remainder, _⟩ ⟨value', remainder', _⟩ hitem
              exact .ok hitem
          | semicolon => exact .ok ⟨.empty, htable, hrest⟩
          | _ => exact .error hblame

end Readers

/-- Loops over items take the same steps in both readings. -/
theorem agree_items {α : Type} {values : α → α → Prop} {starts : TokenKind → Bool}
    {reader reader' : ItemReader α}
    (hstarts : ∀ left right, starts (.identifier left) = starts (.identifier right))
    (hreader : ∀ {table table' : SymbolTable} {tokens tokens' : List Token},
      pair.Tables table table' → pair.Rows tokens tokens' →
        Agree pair.Rejections (pair.Items values) (reader table tokens) (reader' table' tokens'))
    {found found' : List α} (hfound : List.Forall₂ values found found')
    (htable : pair.Tables table table') (h : pair.Rows tokens tokens') :
    Agree pair.Rejections (fun left right => List.Forall₂ values left.1 right.1 ∧
        pair.Tables left.2.1 right.2.1 ∧ pair.Rows left.2.2 right.2.2)
      (items starts reader table found tokens) (items starts reader' table' found' tokens') := by
  induction hlength : tokens.length using Nat.strong_induction_on
    generalizing tokens tokens' table table' found found' with
  | _ length ih =>
      have hdone : Agree pair.Rejections (fun left right => List.Forall₂ values left.1 right.1 ∧
            pair.Tables left.2.1 right.2.1 ∧ pair.Rows left.2.2 right.2.2)
          (.ok (found.reverse, table, tokens)) (.ok (found'.reverse, table', tokens')) :=
        .ok ⟨List.rel_reverse hfound, htable, h⟩
      have hread := hreader htable h
      cases h with
      | nil =>
          rw [items, items]
          exact hdone
      | @cons token token' rest rest' hhead hrest =>
          rw [items, items, hhead.kind.congr starts hstarts]
          by_cases hstart : starts token'.kind = true
          · rw [if_pos hstart, if_pos hstart]
            generalize reader table (token :: rest) = attempt at hread ⊢
            generalize reader' table' (token' :: rest') = attempt' at hread ⊢
            cases hread with
            | error hrejection => exact .error hrejection
            | @ok left right hitem =>
                obtain ⟨⟨value, declared⟩, remainder, hshorter⟩ := left
                obtain ⟨⟨value', declared'⟩, remainder', hshorter'⟩ := right
                obtain ⟨hvalue, hdeclared, hremainder⟩ := hitem
                exact ih remainder.length (hlength ▸ hshorter) (.cons hvalue hfound) hdeclared hremainder
                  rfl
          · rw [if_neg hstart, if_neg hstart]
            exact hdone

theorem agree_block (hplace : pair.place finish finish') (h : pair.Rows tokens tokens') :
    Agree pair.Rejections (fun left right => pair.Blocks left.1 right.1 ∧ pair.Tables left.2 right.2)
      (block finish tokens) (block finish' tokens') := by
  refine (agree_rejecting tables_empty (agree_expect hplace h .blockStart)).bind ?_
  rintro ⟨_, rest₁, _⟩ ⟨_, rest₁', _⟩ hrest₁
  refine (agree_items (fun _ _ => rfl) (agree_constant hplace) .nil tables_empty hrest₁).bind ?_
  rintro ⟨constants, table₁, rest₂⟩ ⟨constants', table₁', rest₂'⟩ ⟨hconstants, htable₁, hrest₂⟩
  refine (agree_items (fun _ _ => rfl) (agree_variableDeclaration hplace) .nil htable₁ hrest₂).bind ?_
  rintro ⟨vars, table₂, rest₃⟩ ⟨vars', table₂', rest₃'⟩ ⟨hvars, htable₂, hrest₃⟩
  refine (agree_items (fun _ _ => rfl) (agree_statement hplace) .nil htable₂ hrest₃).bind ?_
  rintro ⟨statements, table₃, rest₄⟩ ⟨statements', table₃', rest₄'⟩ ⟨hstatements, htable₃, hrest₄⟩
  refine (agree_rejecting htable₃ (agree_expect hplace hrest₄ .blockEnd)).bind ?_
  rintro ⟨_, rest₅, _⟩ ⟨_, rest₅', _⟩ hrest₅
  have hblame := faults_blame hplace hrest₅ (.unexpected .afterBlock) (.unexpected .afterBlock)
    fun _ _ => rfl
  dsimp only at hrest₅ hblame ⊢
  cases hrest₅ with
  | nil => exact .ok ⟨⟨hconstants, hvars, hstatements⟩, htable₃⟩
  | cons hhead hrest => exact .error ⟨hblame, htable₃⟩

end Pairing

end PlZero.Source

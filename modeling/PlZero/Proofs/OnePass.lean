import PlZero.Proofs.Reading
import PlZero.Proofs.SymbolHistory
import PlZero.Source.Translation

/-! Translation in one pass and reading into a tree come to the same. What a state of the translation
goes on with is the list of tokens ahead; reading from it gives a tree and what is left, and the
translation puts out the code of the tree and stands before what is left. So the translation of an
expression always comes to an end. -/

namespace PlZero.Source

open PlZero.Machine PlZero.Attempt

namespace SymbolTable

/-- The slots of the declared names. -/
def slotOf (table : SymbolTable) (name : String) : Int32 :=
  (table.slot? name).getD 0

variable {table : SymbolTable} {name : String}

theorem exists_slot (h : name ∈ table.names) :
    ∃ index < table.size, table.slot? name = some (Int32.ofNat index) := by
  obtain ⟨index, hindex⟩ := Option.ne_none_iff_exists'.mp
    (mt List.idxOf?_eq_none_iff.mp (not_not_intro h))
  obtain ⟨hplace, -⟩ := List.idxOf?_eq_some_iff.mp hindex
  refine ⟨index, ?_, ?_⟩
  · rwa [size_eq_length_names]
  · rw [slot?, hindex, Option.map_some]

theorem lookup?_of_class? {cls : SymbolClass} (h : table.class? name = some cls) :
    table.lookup? name = some ⟨name, cls, table.slotOf name⟩ := by
  obtain ⟨index, -, hslot⟩ := exists_slot (mem_names_of_class? h)
  rw [lookup?, h, hslot, slotOf, hslot]
  rfl

theorem slotOf_inside (hsmall : table.size ≤ 2 ^ 31) (hname : name ∈ table.names) :
    0 ≤ (table.slotOf name).toInt ∧ (table.slotOf name).toInt < table.size := by
  obtain ⟨index, hindex, hslot⟩ := exists_slot hname
  rw [slotOf, hslot, Option.getD_some, Int32.toInt_ofNat_of_lt (by omega)]
  omega

end SymbolTable

namespace Translation

variable {state : Translation}

/-- The tokens that are not consumed. -/
def ahead (state : Translation) : List Token :=
  state.tokens.drop state.next

/-- The place where the tokens end. -/
def finish (state : Translation) : Position :=
  (state.tokens.getLast?.map Token.position).getD Position.none

/-- A translation that consumed tokens up to those that are left, and put out code on the way. -/
def behind (state : Translation) (left : List Token) (emitted : Code) : Translation :=
  { state with
    next := state.tokens.length - left.length
    canReturn := true
    code := state.code ++ emitted }

/-- The state behind a tree that was read. -/
def behindTree (state : Translation) (found : Expression × List Token) : Translation :=
  state.behind found.2 (found.1.code state.table.slotOf)

theorem peek_eq (state : Translation) : state.peek = nextToken state.finish state.ahead := by
  have hhead : state.tokens[state.next]? = state.ahead.head? := by
    rw [ahead, List.head?_drop]
  rw [peek, hhead]
  cases state.ahead <;> rfl

theorem blame_eq (state : Translation) (cause : TokenKind → Cause) :
    state.blame cause = Source.blame state.finish state.ahead cause := by
  rw [blame, peek_eq, Source.blame]

theorem lt_of_ahead {token : Token} {rest : List Token} (h : state.ahead = token :: rest) :
    state.next < state.tokens.length ∧ rest.length = state.tokens.length - (state.next + 1) := by
  have hlength := congrArg List.length h
  rw [ahead, List.length_drop, List.length_cons] at hlength
  omega

theorem advance_of_ahead {token : Token} {rest : List Token} (h : state.ahead = token :: rest) :
    state.advance = state.behind rest [] := by
  obtain ⟨hnext, hrest⟩ := lt_of_ahead h
  have hcount : state.tokens.length - rest.length = state.next + 1 := by omega
  rw [advance, if_pos hnext, behind, hcount, List.append_nil]

theorem suffix_of_ahead {left : List Token} (h : left <:+ state.ahead) : left <:+ state.tokens :=
  h.trans (List.drop_suffix _ _)

theorem ahead_behind {left : List Token} (h : left <:+ state.tokens) (emitted : Code) :
    (state.behind left emitted).ahead = left :=
  (List.suffix_iff_eq_drop.mp h).symm

theorem behind_behind (state : Translation) (left later : List Token) (emitted more : Code) :
    (state.behind left emitted).behind later more = state.behind later (emitted ++ more) := by
  simp only [behind, List.append_assoc]

theorem emit_behind (state : Translation) (left : List Token) (emitted : Code)
    (instruction : Instruction) :
    (state.behind left emitted).emit instruction = state.behind left (emitted ++ [instruction]) := by
  simp only [behind, emit, List.append_assoc]

/-- A token that was consumed to no avail is the next one again. -/
theorem peek_takeBack_advance (state : Translation) : state.advance.takeBack.peek = state.peek := by
  rw [advance]
  split
  · rfl
  · rfl

theorem use_eq (state : Translation) (name : String) (position : Position) :
    (state.use name position).run = some (match state.table.class? name with
      | none => .error ⟨.undefinedReference name, position⟩
      | some .uninitialized => .error ⟨.uninitializedReference name, position⟩
      | some _ => .ok (state.emit (.of .load (state.table.slotOf name)))) := by
  rw [use]
  cases hclass : state.table.class? name with
  | none =>
      have hlookup : state.table.lookup? name = none := by
        rw [SymbolTable.lookup?, hclass]
      rw [hlookup]
      rfl
  | some cls =>
      rw [SymbolTable.lookup?_of_class? hclass]
      cases cls <;> rfl

theorem expect_eq (state : Translation) {place : Place} (hplace : place.wanted ≠ .endOfInput) :
    (state.expect place).run = some ((Source.expect state.finish place state.ahead).map fun closed =>
      state.behind closed.rest []) := by
  rw [expect, blame_eq, peek_eq]
  cases hahead : state.ahead with
  | nil =>
      rw [nextToken, if_neg hplace.symm]
      rfl
  | cons token rest =>
      rw [nextToken, Source.expect, advance_of_ahead hahead]
      by_cases hkind : token.kind = place.wanted
      · rw [if_pos hkind, if_pos hkind]
        rfl
      · rw [if_neg hkind, if_neg hkind]
        rfl

/-! ### Levels -/

/-- Translates an expression of a level, with calls nested to a depth. -/
def translate (depth : Nat) (level : Level) (state : Translation) : Attempt Translation :=
  match level with
  | .expression => chain depth .sum state
  | .term => chain depth .product state
  | .factor => factor depth state
  | .operand => operand depth state

/-- How deep calls nest before a token is consumed. -/
def callsAt : Level → Nat
  | .expression => 6
  | .term => 4
  | .factor => 2
  | .operand => 1

/-- From every state with the tokens ahead, the translation does what reading them says. Six calls for
each token, at most, are one within the other. -/
def Agrees (level : Level) (tokens : List Token) : Prop :=
  ∀ (state : Translation) (depth : Nat), state.ahead = tokens →
    6 * tokens.length + callsAt level ≤ depth → (translate depth level state).run =
      some ((read state.finish state.table level tokens).map state.behindTree)

theorem blame_takeBack_advance (state : Translation) (cause : TokenKind → Cause) :
    state.advance.takeBack.blame cause = Source.blame state.finish state.ahead cause := by
  rw [blame, peek_takeBack_advance, ← blame, blame_eq]

/-- What is left of the tokens ahead is their end. -/
theorem suffix_of_read {finish : Position} {table : SymbolTable} {level : Level}
    {tokens : List Token} {found : Expression × List Token}
    (h : read finish table level tokens = .ok found) : found.2 <:+ tokens := by
  obtain ⟨used, hused, -⟩ := soundAt_level level tokens found.1 found.2 h
  exact ⟨used, hused.symm⟩

/-- An operand that is no group is one token, or a fault. -/
theorem single_eq (state : Translation)
    (hopen : (nextToken state.finish state.ahead).kind ≠ .openParen) : state.single.run =
      some ((read state.finish state.table .operand state.ahead).map state.behindTree) := by
  have hblame := blame_takeBack_advance state .operandMissing
  rw [single, peek_eq]
  cases hahead : state.ahead with
  | nil =>
      rw [hahead] at hblame
      rw [nextToken, read, Source.operand, ← hblame]
      · rfl
      all_goals simp
  | cons token rest =>
      rw [hahead] at hblame hopen
      obtain ⟨kind, position⟩ := token
      rw [nextToken]
      dsimp only
      cases kind with
      | integer value =>
          rw [read_operand_literal rest rfl, advance_of_ahead hahead]
          dsimp only
          rw [emit_behind]
          rfl
      | identifier name =>
          have htable : (state.behind rest []).table = state.table := rfl
          dsimp only
          rw [use_eq, advance_of_ahead hahead, emit_behind, htable, read, Source.operand]
          cases state.table.class? name with
          | none => rfl
          | some cls => cases cls <;> rfl
      | openParen => exact absurd rfl hopen
      | _ =>
          rw [read, Source.operand, ← hblame]
          · rfl
          all_goals simp

theorem agrees_operand {tokens : List Token}
    (hinner : ∀ inner, inner.length < tokens.length → Agrees .expression inner) :
    Agrees .operand tokens := by
  rintro state depth rfl (hdepth : 6 * state.ahead.length + 1 ≤ depth)
  obtain ⟨depth, rfl⟩ := Nat.exists_eq_add_one_of_ne_zero (by omega : depth ≠ 0)
  rw [translate, operand, peek_eq]
  by_cases hopen : (nextToken state.finish state.ahead).kind = .openParen
  · rw [if_pos hopen]
    cases hahead : state.ahead with
    | nil =>
        rw [hahead] at hopen
        cases hopen
    | cons token rest =>
        rw [hahead] at hopen hinner hdepth
        have htoken : token.kind = .openParen := hopen
        have hsuffix : rest <:+ state.tokens := suffix_of_ahead (hahead ▸ List.suffix_cons _ _)
        have hroom : 6 * rest.length + 6 ≤ depth := by
          rw [List.length_cons] at hdepth
          omega
        have hgroup : (chain depth .sum (state.behind rest [])).run =
            some ((read state.finish state.table .expression rest).map
              (state.behind rest []).behindTree) :=
          hinner rest (by simp) _ depth (ahead_behind hsuffix []) hroom
        rw [read_operand_group rest htoken, advance_of_ahead hahead, ExceptT.run_bind, hgroup]
        cases hread : read state.finish state.table .expression rest with
        | error fault => rfl
        | ok found =>
            have hleft := (suffix_of_read hread).trans hsuffix
            change (((state.behind rest []).behindTree found).expect .groupEnd).run = _
            rw [behindTree, behind_behind, expect_eq _ (by decide), ahead_behind hleft, ok_bind]
            change some ((Source.expect state.finish .groupEnd found.2).map _) = _
            cases Source.expect state.finish .groupEnd found.2 with
            | error fault => rfl
            | ok closed =>
                simp only [Except.map, behind_behind, List.append_nil]
                rfl
  · rw [if_neg hopen]
    exact single_eq state hopen

theorem agrees_factor {tokens : List Token}
    (hoperand : ∀ inner, inner.length ≤ tokens.length → Agrees .operand inner) :
    Agrees .factor tokens := by
  rintro state depth rfl (hdepth : 6 * state.ahead.length + 2 ≤ depth)
  obtain ⟨depth, rfl⟩ := Nat.exists_eq_add_one_of_ne_zero (by omega : depth ≠ 0)
  rw [translate, factor, peek_eq]
  cases hsign : sign? (nextToken state.finish state.ahead).kind with
  | none =>
      rw [read_factor_unsigned]
      · exact hoperand _ le_rfl state depth rfl (Nat.le_of_succ_le_succ hdepth)
      · intro token rest hahead
        rwa [hahead] at hsign
  | some sign =>
      cases hahead : state.ahead with
      | nil =>
          rw [hahead] at hsign
          cases hsign
      | cons token rest =>
          have hsuffix : rest <:+ state.tokens := suffix_of_ahead (hahead ▸ List.suffix_cons _ _)
          have hroom : 6 * rest.length + 1 ≤ depth := by
            rw [hahead, List.length_cons] at hdepth
            omega
          have hvalue : (operand depth (state.behind rest [])).run =
              some ((read state.finish state.table .operand rest).map
                (state.behind rest []).behindTree) :=
            hoperand rest (by rw [hahead]; simp) _ depth (ahead_behind hsuffix []) hroom
          rw [hahead] at hsign
          have htoken : token.kind = sign.mark := sign?_eq_some_iff.mp hsign
          dsimp only
          rw [read_factor_signed sign rest htoken, advance_of_ahead hahead, ExceptT.run_bind, hvalue]
          cases read state.finish state.table .operand rest with
          | error fault => rfl
          | ok found =>
              change some (Except.ok (((state.behind rest []).behindTree found).emitSign sign)) = _
              simp only [Except.map, behindTree, behind_behind, emitSign, emit_behind,
                Expression.code, List.append_assoc]
              rfl

section Chain

variable {rank : Rank}

theorem part_eq (depth : Nat) (rank : Rank) (state : Translation) :
    part (depth + 1) rank state = translate depth rank.below state := by
  cases rank <;> rw [part] <;> rfl

theorem translate_level (depth : Nat) (rank : Rank) (state : Translation) :
    translate depth rank.level state = chain depth rank state := by
  cases rank <;> rfl

theorem callsAt_below (rank : Rank) : callsAt rank.level = callsAt rank.below + 2 := by
  cases rank <;> rfl

/-- The loop of a chain, from behind a tree that was read. The induction is on the tokens that are left,
as that of the reader's loop. -/
theorem links_behindTree (base : Translation) {found : Expression × List Token} {depth : Nat}
    (hsuffix : found.2 <:+ base.tokens)
    (hbelow : ∀ inner, inner.length < found.2.length → Agrees rank.below inner)
    (hdepth : 6 * found.2.length + 1 ≤ depth) : (links depth rank (base.behindTree found)).run =
      some ((extend base.finish base.table rank found.1 found.2).map base.behindTree) := by
  obtain ⟨left, tokens⟩ := found
  induction hlength : tokens.length using Nat.strong_induction_on generalizing left tokens depth with
  | _ length ih =>
      have hahead : (base.behindTree (left, tokens)).ahead = tokens := ahead_behind hsuffix _
      obtain ⟨depth, rfl⟩ := Nat.exists_eq_add_one_of_ne_zero (by omega : depth ≠ 0)
      rw [links, peek_eq, hahead]
      by_cases hends : Ends rank tokens
      · have hnone : rank.operator? (nextToken (base.behindTree (left, tokens)).finish tokens).kind =
            none := by
          cases tokens with
          | nil => cases rank <;> rfl
          | cons token rest => exact hends token rest rfl
        rw [extend_of_ends hends, hnone]
        rfl
      · obtain ⟨token, rest, operator, rfl, hrank, htoken⟩ := exists_operator hends
        have hoperator : rank.operator? token.kind = some operator :=
          Rank.operator?_eq_some_iff.mpr ⟨htoken, hrank⟩
        have hrest : rest <:+ base.tokens := (List.suffix_cons _ _).trans hsuffix
        have hcalls : callsAt rank.below ≤ 4 := by cases rank <;> decide
        have hroom : 6 * (rest.length + 1) + 1 ≤ depth + 1 := hdepth
        have hright : (part depth rank ((base.behindTree (left, token :: rest)).behind rest [])).run =
            some ((read base.finish base.table rank.below rest).map
              ((base.behindTree (left, token :: rest)).behind rest []).behindTree) := by
          obtain ⟨inner, rfl⟩ := Nat.exists_eq_add_one_of_ne_zero (by omega : depth ≠ 0)
          rw [part_eq]
          exact hbelow rest (by simp) _ inner (ahead_behind hrest []) (by omega)
        rw [nextToken, hoperator, advance_of_ahead hahead,
          extend_join operator left rest hrank htoken]
        dsimp only
        rw [ExceptT.run_bind, hright]
        cases hread : read base.finish base.table rank.below rest with
        | error fault => rfl
        | ok value =>
            obtain ⟨right, remainder⟩ := value
            have hshorter : remainder.length < rest.length := read_shorter hread
            have hjoined : ((((base.behindTree (left, token :: rest)).behind rest []).behindTree
                (right, remainder)).emit (.of operator.operation)) =
                  base.behindTree (.binary operator left right, remainder) := by
              simp only [behindTree, behind_behind, emit_behind, Expression.code, List.append_nil,
                List.append_assoc]
              rfl
            change (links depth rank _).run = some ((extend _ _ rank _ remainder).map _)
            rw [hjoined]
            refine ih remainder.length ?_ _ remainder ((suffix_of_read hread).trans hrest) ?_ ?_ rfl
            · rw [← hlength, List.length_cons]
              omega
            · intro inner (hinner : inner.length < remainder.length)
              exact hbelow inner (by rw [List.length_cons]; omega)
            · change 6 * remainder.length + 1 ≤ depth
              omega

theorem agrees_chain {tokens : List Token}
    (hbelow : ∀ inner, inner.length ≤ tokens.length → Agrees rank.below inner) :
    Agrees rank.level tokens := by
  rintro state depth rfl hdepth
  rw [callsAt_below] at hdepth
  obtain ⟨depth, rfl⟩ := Nat.exists_eq_add_one_of_ne_zero (by omega : depth ≠ 0)
  have hpart : (part depth rank state).run =
      some ((read state.finish state.table rank.below state.ahead).map state.behindTree) := by
    obtain ⟨inner, rfl⟩ := Nat.exists_eq_add_one_of_ne_zero (by omega : depth ≠ 0)
    rw [part_eq]
    exact hbelow _ le_rfl state inner rfl (by omega)
  rw [translate_level, chain, read_chain, ExceptT.run_bind, hpart]
  cases hread : read state.finish state.table rank.below state.ahead with
  | error fault => rfl
  | ok found =>
      have hshorter : found.2.length < state.ahead.length := read_shorter hread
      refine links_behindTree state (suffix_of_ahead (suffix_of_read hread)) ?_ (by omega)
      exact fun inner hinner => hbelow inner (by omega)

end Chain

/-- Whatever the state, the translation of a level comes to an end: where reading the tokens ahead finds
a fault it has that fault, and otherwise it stands behind the tree that is read, with the code of the
tree put out. -/
theorem translate_eq (level : Level) (state : Translation) {depth : Nat}
    (hdepth : 6 * state.ahead.length + 6 ≤ depth) : (translate depth level state).run =
      some ((read state.finish state.table level state.ahead).map state.behindTree) := by
  have hcalls : callsAt level ≤ 6 := by cases level <;> decide
  suffices hagrees : Agrees level state.ahead from hagrees state depth rfl (by omega)
  refine level_induction ?_ ?_ ?_ level state.ahead
  · intro tokens hinner
    exact agrees_operand hinner
  · intro tokens hoperand
    exact agrees_factor hoperand
  · intro rank tokens hbelow
    exact agrees_chain hbelow

end Translation

end PlZero.Source

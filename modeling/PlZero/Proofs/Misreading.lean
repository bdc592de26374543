import PlZero.Proofs.Continuation

/-! Where the reading of an expression goes wrong. The reader stops before the first token that no phrase
goes on with, or at a name that may not be used; what it has read before is the start of a phrase. -/

namespace PlZero.Source

open PlZero.Attempt Shape

/-- The causes that speak of the syntax. -/
def IsSyntactic (cause : TokenKind → Cause) : Prop :=
  ∀ found, (cause found).kind.category = .syntactic

/-- Why the table does not allow the use of a name. -/
inductive SymbolTable.Forbids (table : SymbolTable) (name : String) : Cause → Prop where
  | undefined (h : table.class? name = none) : Forbids table name (.undefinedReference name)
  | uninitialized (h : table.class? name = some .uninitialized) :
      Forbids table name (.uninitializedReference name)

/-- The reading of a phrase of the shape stopped with the fault behind `cut`: either no phrase goes on
with the token that comes next, or it is a name that may not be used where a name may stand. -/
inductive Misread (finish : Position) (table : SymbolTable) (shape : Shape) (cut : List Token) :
    List Token → Fault → Prop where
  | refused {rest : List Token} {cause : TokenKind → Cause} (hcause : IsSyntactic cause)
      (hviable : shape.Viable (kinds cut)) (hrefuses : shape.Refuses (kinds cut) (kinds rest).head?) :
      Misread finish table shape cut rest (blame finish rest cause)
  | forbidden {name : String} {position : Position} {more : List Token} {cause : Cause}
      (hcause : table.Forbids name cause) (hviable : shape.Viable (kinds cut ++ [.identifier name])) :
      Misread finish table shape cut (⟨.identifier name, position⟩ :: more) ⟨cause, position⟩

/-- The reading of a phrase of the shape from the tokens stopped with the fault. -/
def MisreadFrom (finish : Position) (table : SymbolTable) (shape : Shape) (tokens : List Token)
    (fault : Fault) : Prop :=
  ∃ cut rest, tokens = cut ++ rest ∧ Misread finish table shape cut rest fault

variable {finish : Position} {table : SymbolTable}

/-- What goes wrong in a part of a phrase goes wrong in the phrase. -/
theorem MisreadFrom.within {inner outer : Shape} {tokens : List Token} {fault : Fault}
    (h : MisreadFrom finish table inner tokens fault) (used : List Token)
    (hwithin : Within inner outer (kinds used) (kinds tokens).head?) :
    MisreadFrom finish table outer (used ++ tokens) fault := by
  obtain ⟨cut, rest, rfl, h⟩ := h
  refine ⟨used ++ cut, rest, (List.append_assoc ..).symm, ?_⟩
  rw [kinds_append] at hwithin
  cases h with
  | refused hcause hviable hrefuses =>
      refine .refused hcause ?_ ?_
      · rw [kinds_append]
        exact hwithin.viable hviable
      · rw [kinds_append]
        exact hwithin.refuses hrefuses
  | forbidden hcause hviable =>
      refine .forbidden hcause ?_
      rw [kinds_append, List.append_assoc]
      exact hwithin.viable hviable

theorem isSyntactic_unexpected (place : Place) : IsSyntactic (.unexpected place) := by
  intro found
  cases place <;> rfl

theorem expect_eq_error {place : Place} {tokens : List Token} {fault : Fault}
    (h : expect finish place tokens = .error fault) :
    fault = blame finish tokens (.unexpected place) ∧ (kinds tokens).head? ≠ some place.wanted := by
  cases tokens with
  | nil =>
      cases h
      exact ⟨rfl, nofun⟩
  | cons token rest =>
      rw [expect] at h
      split at h
      · cases h
      · rename_i hkind
        cases h
        exact ⟨rfl, fun hhead => hkind (Option.some.inj hhead)⟩

theorem closes_of_ends {rank : Rank} {tokens : List Token} (hends : Ends rank tokens) :
    ∀ kind ∈ (kinds tokens).head?, rank.operator? kind = none := by
  cases tokens with
  | nil => exact fun _ hkind => nomatch hkind
  | cons token rest =>
      rintro _ ⟨⟩
      exact hends token rest rfl

theorem extend_closes {rank : Rank} {left tree : Expression} {tokens rest : List Token}
    (hbelow : ∀ inner tree others, read finish table rank.below inner = .ok (tree, others) →
      rank.below.Closes (kinds others).head?)
    (hstart : rank.below.Closes (kinds tokens).head?)
    (h : extend finish table rank left tokens = .ok (tree, rest)) :
    rank.level.Closes (kinds rest).head? := by
  induction hlength : tokens.length using Nat.strong_induction_on generalizing tokens left with
  | _ length ih =>
      by_cases hends : Ends rank tokens
      · rw [extend_of_ends hends] at h
        cases h
        intro other hother
        rcases mem_ranks_level.mp hother with rfl | hother
        · exact closes_of_ends hends
        · exact hstart other hother
      · obtain ⟨token, others, operator, rfl, hrank, htoken⟩ := exists_operator hends
        rw [extend_join operator left others hrank htoken, bind_eq_ok_iff] at h
        obtain ⟨⟨right, remainder⟩, hright, hmore⟩ := h
        have hshorter : remainder.length < others.length := read_shorter hright
        refine ih remainder.length ?_ (hbelow _ _ _ hright) hmore rfl
        rw [← hlength, List.length_cons]
        omega

/-- The reader goes on with a phrase as long as it can. -/
theorem read_closes {level : Level} {tokens rest : List Token} {tree : Expression}
    (h : read finish table level tokens = .ok (tree, rest)) : level.Closes (kinds rest).head? := by
  have hchain : ∀ rank : Rank, (∀ inner tree others,
      read finish table rank.below inner = .ok (tree, others) →
        rank.below.Closes (kinds others).head?) → ∀ {inner tree others},
      read finish table rank.level inner = .ok (tree, others) →
        rank.level.Closes (kinds others).head? := by
    intro rank hbelow inner tree others hread
    rw [read_chain, bind_eq_ok_iff] at hread
    obtain ⟨⟨left, remainder⟩, hleft, hmore⟩ := hread
    exact extend_closes hbelow (hbelow _ _ _ hleft) hmore
  have hterm := @hchain .product fun _ _ _ _ => nofun
  cases level with
  | expression => exact hchain .sum (fun _ _ _ hread => hterm hread) h
  | term => exact hterm h
  | factor => exact nofun
  | operand => exact nofun

/-! ### Levels -/

/-- Whatever goes wrong in reading a phrase of the level goes wrong as a phrase of it does. -/
def Misreads (finish : Position) (table : SymbolTable) (level : Level) (tokens : List Token) : Prop :=
  ∀ fault, read finish table level tokens = .error fault →
    MisreadFrom finish table level.shape tokens fault

/-- An expression is misread, or the delimiter behind it is missing. -/
theorem misreadFrom_delimited {place : Place} {tokens : List Token} {fault : Fault}
    (hplace : place.wanted = .semicolon ∨ place.wanted = .closeParen) {tree : Expression}
    {rest : List Token} (hread : read finish table .expression tokens = .ok (tree, rest))
    (h : expect finish place rest = .error fault) :
    MisreadFrom finish table (expressionBefore place.wanted) tokens fault := by
  obtain ⟨rfl, hnext⟩ := expect_eq_error h
  obtain ⟨used, rfl, hphrase, -⟩ := soundAt_level .expression tokens tree rest hread
  refine ⟨used, rest, rfl, .refused (isSyntactic_unexpected place) ⟨[], tree, ?_⟩ ?_⟩
  · rwa [List.append_nil]
  · exact refuses_expressionBefore hplace hphrase (read_closes hread) hnext

theorem misreads_operand {tokens : List Token}
    (hinner : ∀ inner, inner.length < tokens.length → Misreads finish table .expression inner) :
    Misreads finish table .operand tokens := by
  have hmissing : (∀ kind ∈ (kinds tokens).head?, isOperandStart kind = false) →
      MisreadFrom finish table Level.operand.shape tokens (blame finish tokens .operandMissing) :=
    fun hnext => ⟨[], tokens, rfl, .refused (fun _ => rfl) viable_operand (refuses_operand hnext)⟩
  intro fault h
  rcases tokens with _ | ⟨⟨kind, position⟩, others⟩
  · rw [read, operand] at h
    · cases h
      exact hmissing (by simp)
    all_goals simp
  cases kind with
  | integer value =>
      rw [read_operand_literal others rfl] at h
      cases h
  | identifier name =>
      have hviable : Level.operand.shape.Viable [.identifier name] := ⟨[], _, .name name⟩
      rw [read, operand] at h
      cases hclass : table.class? name with
      | none =>
          simp only [hclass] at h
          cases h
          exact ⟨[], _, rfl, .forbidden (.undefined hclass) hviable⟩
      | some cls =>
          cases cls with
          | uninitialized =>
              simp only [hclass] at h
              cases h
              exact ⟨[], _, rfl, .forbidden (.uninitialized hclass) hviable⟩
          | _ =>
              simp only [hclass] at h
              cases h
  | openParen =>
      rw [read_operand_group others rfl] at h
      suffices hbefore : MisreadFrom finish table (expressionBefore .closeParen) others fault from
        hbefore.within [_] within_group
      rcases bind_eq_error_iff.mp h with hread | ⟨⟨tree, close⟩, hread, hclose⟩
      · exact (hinner others (by simp) fault hread).within [] (within_expressionBefore (.inr rfl))
      · exact misreadFrom_delimited (.inr rfl) hread (map_eq_error_iff.mp hclose)
  | _ =>
      rw [read, operand] at h
      · cases h
        refine hmissing ?_
        rintro _ ⟨⟩
        rfl
      all_goals simp

theorem misreads_factor {tokens : List Token}
    (hoperand : ∀ inner, inner.length ≤ tokens.length → Misreads finish table .operand inner) :
    Misreads finish table .factor tokens := by
  intro fault h
  by_cases hsigned : ∃ token others sign, tokens = token :: others ∧ token.kind = Sign.mark sign
  · obtain ⟨token, others, sign, rfl, htoken⟩ := hsigned
    rw [read_factor_signed sign others htoken, map_eq_error_iff] at h
    refine (hoperand others (by simp) fault h).within [token] ?_
    rw [kinds_cons, kinds_nil, htoken]
    exact within_sign sign
  · have hsign : ∀ token others, tokens = token :: others → sign? token.kind = none := by
      intro token others htokens
      rw [Option.eq_none_iff_forall_ne_some]
      intro sign hsign
      exact hsigned ⟨token, others, sign, htokens, sign?_eq_some_iff.mp hsign⟩
    rw [read_factor_unsigned hsign] at h
    refine (hoperand tokens le_rfl fault h).within [] (within_unsigned ?_)
    cases tokens with
    | nil => exact fun _ hkind => nomatch hkind
    | cons token others =>
        rintro _ ⟨⟩
        exact hsign token others rfl

/-- The induction is on the number of tokens; what stands before them is a chain already. -/
theorem misreadFrom_extend {rank : Rank} {acc tokens : List Token} {left : Expression} {fault : Fault}
    (hbelow : ∀ inner, inner.length < tokens.length → Misreads finish table rank.below inner)
    (hacc : Phrase rank.level (kinds acc) left)
    (h : extend finish table rank left tokens = .error fault) :
    MisreadFrom finish table rank.level.shape (acc ++ tokens) fault := by
  induction hlength : tokens.length using Nat.strong_induction_on generalizing tokens left acc with
  | _ length ih =>
      by_cases hends : Ends rank tokens
      · rw [extend_of_ends hends] at h
        cases h
      · obtain ⟨token, others, operator, rfl, hrank, htoken⟩ := exists_operator hends
        rw [extend_join operator left others hrank htoken] at h
        rcases bind_eq_error_iff.mp h with hright | ⟨⟨right, remainder⟩, hright, hmore⟩
        · have hpart := (hbelow others (by simp) fault hright).within (acc ++ [token]) (by
            rw [kinds_append, kinds_cons, htoken]
            exact within_link hacc hrank)
          rwa [List.append_assoc, List.singleton_append] at hpart
        · change extend finish table rank (.binary operator left right) remainder = _ at hmore
          have hshorter : remainder.length < others.length := read_shorter hright
          obtain ⟨part, rfl, hpart, -⟩ := soundAt_level rank.below others right remainder hright
          have hjoined : Phrase rank.level (kinds (acc ++ token :: part))
              (.binary operator left right) := by
            rw [kinds_append, kinds_cons, htoken]
            exact hacc.join hrank hpart
          have hlonger := ih remainder.length (by rw [← hlength, List.length_cons]; omega)
            (fun inner hinner => hbelow inner (by rw [List.length_cons]; omega)) hjoined hmore rfl
          rwa [List.append_assoc, List.cons_append] at hlonger

theorem misreads_chain (rank : Rank) {tokens : List Token}
    (hbelow : ∀ inner, inner.length ≤ tokens.length → Misreads finish table rank.below inner) :
    Misreads finish table rank.level tokens := by
  intro fault h
  rw [read_chain] at h
  rcases bind_eq_error_iff.mp h with hleft | ⟨⟨left, others⟩, hleft, hmore⟩
  · exact (hbelow tokens le_rfl fault hleft).within [] within_part
  · have hshorter : others.length < tokens.length := read_shorter hleft
    obtain ⟨part, rfl, hpart, -⟩ := soundAt_level rank.below tokens left others hleft
    exact misreadFrom_extend (fun inner hinner => hbelow inner (by omega)) hpart.ofBelow hmore

theorem misreads_level (level : Level) (tokens : List Token) : Misreads finish table level tokens := by
  refine level_induction ?_ ?_ ?_ level tokens
  · intro tokens hinner
    exact misreads_operand hinner
  · intro tokens hoperand
    exact misreads_factor hoperand
  · intro rank tokens hbelow
    exact misreads_chain rank hbelow

end PlZero.Source

import PlZero.Editor.Session
import PlZero.Proofs.Diagnostics
import PlZero.Proofs.Occurrences

/-! Navigation in a text that compiles. The word at a cursor is found from the bytes of a line alone, and
it is the name of the identifier that the cursor stands in or touches: no letter or digit stands directly
before an identifier, because an integer never does. Main statement: from any place of an identifier the
editor is led to the declaration of its name, and to all identifiers of this name. -/

namespace PlZero.Source

open PlZero.Text

theorem RunKind.IsLongest.ends {kind : RunKind} {run rest : List Glyph}
    (h : kind.IsLongest run (run ++ rest)) : kind.Ends rest := by
  intro glyph hglyph
  obtain ⟨behind, rfl⟩ := List.head?_eq_some_iff.mp hglyph
  rw [Bool.eq_false_iff]
  intro hcontinues
  have hlonger : kind.IsRun (run ++ [glyph]) := by
    cases run with
    | nil => exact h.isRun.elim
    | cons first others =>
        exact ⟨h.isRun.1, List.forall_mem_append.mpr ⟨h.isRun.2, List.forall_mem_singleton.mpr hcontinues⟩⟩
  have hlength := h.longest _ hlonger ⟨behind, by simp⟩
  simp at hlength

theorem RunKind.Denotes.eq_of_identifier {kind : RunKind} {run : List Glyph} {name : String}
    (h : kind.Denotes run (.ok (.identifier name))) : kind = .word ∧ run = ofChars name.toList := by
  cases h with
  | keyword hreserved =>
      have hwords : ∀ entry ∈ TokenKind.reserved, entry.2.hasPayload = false := by decide
      cases hwords _ hreserved
  | identifier hfree => simp
  | sign hkind =>
      unfold TokenKind.ofMark? at hkind
      split at hkind <;> cases hkind

theorem RunKind.Denotes.isInteger_of_number {run : List Glyph} {kind : TokenKind}
    (h : RunKind.number.Denotes run (.ok kind)) : kind.isInteger = true := by
  cases h with
  | integer hvalue => rfl

theorem unread_ofChars (values : List Char) : unread (ofChars values) = encodeChars values :=
  List.flatMap_map ..

theorem encodeChars_ascii {values : List Char} (h : ∀ value ∈ values, value.toNat < 0x80) :
    encodeChars values = values.map fun value => value.toNat.toUInt8 := by
  induction values with
  | nil => rfl
  | cons value rest ih =>
      obtain ⟨hvalue, hrest⟩ := List.forall_mem_cons.mp h
      rw [encodeChars, List.flatMap_cons, ← encodeChars, ih hrest, encodeChar, if_pos hvalue]
      rfl

/-- The results of scanning stand at ever larger offsets. -/
theorem Cut.pairwise_offset {offset : Int} {text : List Glyph} {results : List Scanned}
    (h : Cut offset text results) : (∀ result ∈ results, offset ≤ (Scanned.position result).offset) ∧
      results.Pairwise fun left right =>
        (Scanned.position left).offset < (Scanned.position right).offset := by
  induction h with
  | done => exact ⟨List.forall_mem_nil _, .nil⟩
  | @next offset blanks run rest kind result results _ hlongest hoffset _ _ ih =>
      obtain ⟨hleast, hpairwise⟩ := ih
      have hrun := hlongest.isRun.length_unread_pos
      refine ⟨List.forall_mem_cons.mpr ⟨by omega, fun other hother => ?_⟩,
        List.pairwise_cons.mpr ⟨fun other hother => ?_, hpairwise⟩⟩
      · have hother := hleast other hother
        omega
      · have hother := hleast other hother
        omega

end PlZero.Source

namespace PlZero.Editor

open PlZero.Text PlZero.Source PlZero.Attempt

/-- The name stands in the text at the position, and no letter or digit directly before or behind it. -/
structure NameAt (text : Bytes) (name : String) (position : Position) (before after : Bytes) : Prop where
  split : text = before ++ (encode name ++ after)
  position_eq : position = .behind before
  word : ∀ value ∈ name.toList, isWordPart value = true
  free_before : ∀ byte ∈ before.getLast?, isWordByte byte = false
  free_after : ∀ byte ∈ after.head?, isWordByte byte = false

theorem isWordByte_head {rest : List Glyph} (hproper : ∀ glyph ∈ rest, glyph.IsProper)
    (hends : RunKind.word.Ends rest) : ∀ byte ∈ (unread rest).head?, isWordByte byte = false := by
  intro byte hbyte
  cases rest with
  | nil => cases hbyte
  | cons glyph rest =>
      rw [unread_cons, List.head?_append_of_ne_nil _ glyph.bytes_ne_nil] at hbyte
      rw [isWordByte_of_mem_bytes (hproper glyph List.mem_cons_self) (List.mem_of_mem_head? hbyte)]
      exact hends glyph rfl

theorem isWordByte_getLast {before : List Glyph} (hproper : ∀ glyph ∈ before, glyph.IsProper)
    (hfree : ∀ glyph ∈ before.getLast?, glyph.satisfies isWordPart = false) :
    ∀ byte ∈ (unread before).getLast?, isWordByte byte = false := by
  intro byte hbyte
  obtain rfl | ⟨front, glyph, rfl⟩ := List.eq_nil_or_concat before
  · cases hbyte
  · have hglyph : unread [glyph] = glyph.bytes := List.flatMap_singleton ..
    rw [List.concat_eq_append, unread_append, hglyph,
      List.getLast?_append_of_ne_nil _ glyph.bytes_ne_nil] at hbyte
    rw [isWordByte_of_mem_bytes (hproper glyph (by simp)) (List.mem_of_getLast? hbyte)]
    exact hfree glyph (by simp)

/-- No letter or digit stands directly before an identifier: it would be the end of an integer. -/
theorem isWordPart_before {text run before after : List Glyph} {used rest : List Token}
    {name : String} {position : Position}
    (hapart : (kinds (used ++ ⟨.identifier name, position⟩ :: rest)).IsChain Apart)
    (hplaced : Placed .start text (used.map .ok) (.ok ⟨.identifier name, position⟩) .word before run
      after) : ∀ glyph ∈ before.getLast?, glyph.satisfies isWordPart = false := by
  intro glyph hglyph
  rw [Bool.eq_false_iff]
  intro hpart
  obtain ⟨previous, hprevious, digits, hdigits⟩ := hplaced.touching rfl glyph hglyph hpart
  rw [List.getLast?_map, Option.mem_def, Option.map_eq_some_iff] at hprevious
  obtain ⟨token, hlast, rfl⟩ := hprevious
  obtain ⟨others, rfl⟩ := List.getLast?_eq_some_iff.mp hlast
  rw [List.append_assoc, kinds_append] at hapart
  have hpair := (List.isChain_cons_cons.mp (List.isChain_append.mp hapart).2.1).1
  exact hpair hdigits.isInteger_of_number name rfl

/-- Every identifier of a text has a place in it. -/
theorem exists_placed {text : Bytes} {tokens : List Token} (htokens : tokenize text = .ok tokens)
    {name : String} {position : Position} (htoken : ⟨.identifier name, position⟩ ∈ tokens) :
    ∃ used rest before after, sentence tokens = used ++ ⟨.identifier name, position⟩ :: rest ∧
      Placed .start (glyphs text) (used.map .ok) (.ok ⟨.identifier name, position⟩) .word before
        (ofChars name.toList) after := by
  rw [tokenize_eq_ok htokens, List.mem_append] at htoken
  obtain ⟨used, rest, hsentence⟩ := List.append_of_mem (htoken.resolve_right (by simp))
  obtain ⟨hresults, -⟩ := results_of_tokenize htokens
  rw [hsentence, List.map_append, List.map_cons] at hresults
  obtain ⟨kind, before, run, after, hplaced⟩ := scanFrom_placed _ _ hresults
  obtain ⟨rfl, rfl⟩ := hplaced.denotes.eq_of_identifier
  exact ⟨used, rest, before, after, hsentence, hplaced⟩

/-- Where no identifier stands directly behind an integer, every identifier is a word of its own. -/
theorem exists_nameAt {text : Bytes} {tokens : List Token} (htokens : tokenize text = .ok tokens)
    (hapart : (kinds (sentence tokens)).IsChain Apart) {name : String} {position : Position}
    (htoken : ⟨.identifier name, position⟩ ∈ tokens) :
    ∃ before after, NameAt text name position before after := by
  obtain ⟨used, rest, before, after, hsentence, hplaced⟩ := exists_placed htokens htoken
  obtain ⟨hbefore, -, hafter⟩ := isProper_of_split hplaced.split
  have htext := eq_unread_of_split hplaced.split
  rw [unread_ofChars] at htext
  rw [hsentence] at hapart
  refine ⟨unread before, unread after, htext, ?_, ?_,
    isWordByte_getLast hbefore (isWordPart_before hapart hplaced),
    isWordByte_head hafter hplaced.longest.ends⟩
  · rw [← Position.advance_start hbefore]
    exact hplaced.position_eq
  · intro value hvalue
    exact (hplaced.longest.isRun.uniform (.char value) (List.mem_map_of_mem hvalue)).1

/-- The cursor stands in the name at the position, or at either end of it. -/
structure Cursor.Touches (cursor : Cursor) (name : String) (position : Position) : Prop where
  line : (cursor.line.toNat : Int) + 1 = position.line
  first : position.column ≤ cursor.character.toNat + 1
  last : (cursor.character.toNat : Int) + 1 ≤ position.column + name.length

theorem takeWhile_of_head? {bytes : Bytes} (h : ∀ byte ∈ bytes.head?, isWordByte byte = false) :
    bytes.takeWhile isWordByte = [] := by
  cases bytes with
  | nil => rfl
  | cons first rest => simp [h first rfl]

theorem wordEnd_append {line word : Bytes} (hword : ∀ byte ∈ word, isWordByte byte = true)
    (hfree : ∀ byte ∈ line.getLast?, isWordByte byte = false) :
    Cursor.wordEnd (line ++ word) = word := by
  have hreverse : ∀ byte ∈ word.reverse, isWordByte byte = true :=
    fun byte hbyte => hword byte (List.mem_reverse.mp hbyte)
  rw [← List.head?_reverse] at hfree
  rw [Cursor.wordEnd, List.reverse_append, List.takeWhile_append_of_pos hreverse,
    takeWhile_of_head? hfree, List.append_nil, List.reverse_reverse]

theorem takeWhile_word {line word : Bytes} (hword : ∀ byte ∈ word, isWordByte byte = true)
    (hfree : ∀ byte ∈ line.head?, isWordByte byte = false) :
    (word ++ line).takeWhile isWordByte = word := by
  rw [List.takeWhile_append_of_pos hword, takeWhile_of_head? hfree, List.append_nil]

theorem getLast?_lastLine {text : Bytes} {byte : UInt8} (h : byte ∈ (lastLine text).getLast?) :
    byte ∈ text.getLast? := by
  obtain ⟨upper, hupper⟩ := List.rtakeWhile_suffix (· != lineFeed) text
  rw [← hupper, List.getLast?_append, Option.mem_def, ← lastLine, Option.mem_def.mp h]
  rfl

theorem head?_firstLine {text : Bytes} {byte : UInt8} (h : byte ∈ (firstLine text).head?) :
    byte ∈ text.head? := by
  obtain ⟨lower, hlower⟩ := List.takeWhile_prefix (l := text) (· != lineFeed)
  rw [← hlower, List.head?_append, Option.mem_def, ← firstLine, Option.mem_def.mp h]
  rfl

namespace NameAt

variable {text : Bytes} {name : String} {position : Position} {before after : Bytes}
  (h : NameAt text name position before after)
include h

theorem encode_eq : encode name = name.toList.map fun value => value.toNat.toUInt8 := by
  refine encodeChars_ascii fun value hvalue => ?_
  have hpart := isWordPart_iff.mp (h.word value hvalue)
  omega

theorem length_encode : (encode name).length = name.length := by
  rw [h.encode_eq, List.length_map, String.length_toList]

theorem isWordByte_encode : ∀ byte ∈ encode name, isWordByte byte = true := by
  intro byte hbyte
  obtain ⟨value, hvalue, hbyte⟩ := List.mem_flatMap.mp hbyte
  have hglyph : (Glyph.char value).IsProper := trivial
  exact (isWordByte_of_mem_bytes hglyph hbyte).trans (h.word value hvalue)

theorem lineFeed_notMem : lineFeed ∉ encode name :=
  fun hmem => absurd (h.isWordByte_encode lineFeed hmem) (by decide)

/-- A cursor that touches a name cuts its line within the name or at an end of it. -/
theorem halves?_eq {cursor : Cursor} (htouches : cursor.Touches name position) : ∃ inside,
    cursor.halves? text = some (lastLine before ++ (encode name).take inside,
      (encode name).drop inside ++ firstLine after) := by
  obtain ⟨hline, hfirst, hlast⟩ := htouches
  obtain ⟨earlier, later, hlines, hearlier, -⟩ := splitOn_at before (encode name ++ after)
  rw [← h.split, firstLine_append h.lineFeed_notMem] at hlines
  simp only [h.position_eq, Position.behind] at hline hfirst hlast
  have hcursor : cursor.line.toNat = earlier.length := by
    rw [hearlier]
    omega
  obtain ⟨inside, hinside⟩ := Int.le.dest hfirst
  have hcharacter : cursor.character.toNat = (lastLine before).length + inside := by omega
  have hle : inside ≤ (encode name).length := by
    rw [h.length_encode]
    omega
  refine ⟨inside, ?_⟩
  rw [Cursor.halves?, pieces_eq_splitOn, hlines, hcursor, hcharacter,
    List.getElem?_append_right (Nat.le_refl _), Nat.sub_self, List.getElem?_cons_zero,
    Option.map_some, List.take_length_add_append, List.drop_length_add_append,
    List.take_append_of_le_length hle, List.drop_append_of_le_length hle]

theorem wordEnd_take (inside : Nat) :
    Cursor.wordEnd (lastLine before ++ (encode name).take inside) = (encode name).take inside :=
  wordEnd_append (fun byte hbyte => h.isWordByte_encode byte (List.mem_of_mem_take hbyte))
    fun byte hbyte => h.free_before byte (getLast?_lastLine hbyte)

/-- The word at a cursor that touches a name is this name. -/
theorem word_eq {cursor : Cursor} (htouches : cursor.Touches name position) :
    cursor.word text = encode name := by
  obtain ⟨inside, hhalves⟩ := h.halves?_eq htouches
  have hafter : ((encode name).drop inside ++ firstLine after).takeWhile isWordByte =
      (encode name).drop inside :=
    takeWhile_word (fun byte hbyte => h.isWordByte_encode byte (List.mem_of_mem_drop hbyte))
      fun byte hbyte => h.free_after byte (head?_firstLine hbyte)
  rw [Cursor.word, hhalves]
  simp only [h.wordEnd_take, hafter, List.take_append_drop]

/-- The stem at a cursor that touches a name is a start of this name. -/
theorem stem_prefix {cursor : Cursor} (htouches : cursor.Touches name position) :
    cursor.stem text <+: encode name := by
  obtain ⟨inside, hhalves⟩ := h.halves?_eq htouches
  rw [Cursor.stem, hhalves]
  simp only [h.wordEnd_take]
  exact List.take_prefix _ _

theorem map_encode : (encode name).map (fun byte => Char.ofNat byte.toNat) = name.toList := by
  rw [h.encode_eq, List.map_map]
  refine (List.map_congr_left fun value hvalue => ?_).trans (List.map_id _)
  have hpart := isWordPart_iff.mp (h.word value hvalue)
  rw [Function.comp_apply, toNat_toUInt8 (by omega), Char.ofNat_toNat]
  rfl

theorem ofList_encode :
    String.ofList ((encode name).map fun byte => Char.ofNat byte.toNat) = name := by
  rw [h.map_encode, String.ofList_toList]

theorem wordAt_eq {document : Document} (hdocument : document.text = text) {cursor : Cursor}
    (htouches : cursor.Touches name position) : document.wordAt cursor = name := by
  rw [Document.wordAt, hdocument, h.word_eq htouches, h.ofList_encode]

theorem stemAt_prefix {document : Document} (hdocument : document.text = text) {cursor : Cursor}
    (htouches : cursor.Touches name position) :
    (document.stemAt cursor).toList <+: name.toList := by
  rw [Document.stemAt, hdocument, String.toList_ofList, ← h.map_encode]
  exact (h.stem_prefix htouches).map _

/-- The span of an identifier covers its name. -/
theorem covers (hsize : text.length < 2 ^ 32) :
    (Document.spanOf name position).Covers text position.offset.toNat (encode name) := by
  have hoffset : position.offset.toNat = before.length := by
    rw [h.position_eq, Position.behind, Int.toNat_natCast]
  have hsplit := h.split
  rw [hoffset, Document.spanOf, ← h.length_encode, h.position_eq]
  subst hsplit
  exact Span.covers_at hsize h.lineFeed_notMem

end NameAt

/-! ### Answers -/

/-- The uses of a name that are found are its occurrences, with or without that of its declaration. -/
theorem references_eq (document : Document) (name : String) (withDeclaration : Bool) :
    document.references name withDeclaration =
      ((occurrences document.tokens name).filter fun position => withDeclaration ||
        decide ((document.declaration? name).map Declaration.position ≠ some position)).map
          (Document.spanOf name) := by
  rw [Document.references]
  generalize (document.declaration? name).map Declaration.position = declared
  induction document.tokens with
  | nil => rfl
  | cons token rest ih =>
      by_cases hkind : token.kind = .identifier name
      · obtain ⟨_, position⟩ := token
        subst hkind
        rw [occurrences_cons_self, List.filterMap_cons, ih, List.filter_cons]
        by_cases hcounts : withDeclaration = true ∨ declared ≠ some position
        · simp [hcounts]
        · simp [hcounts]
      · rw [occurrences_cons_of_ne hkind, ← ih, List.filterMap_cons_none]
        simp [hkind]

/-- Where the first occurrence of a name is its declaration, only this one is left out. -/
theorem references_of_places {document : Document} {name : String} {place : Position}
    {others : List Position} {constant : Option Int32}
    (hplaces : occurrences document.tokens name = place :: others) (hfresh : place ∉ others)
    (hdeclaration : document.declaration? name = some ⟨name, place, constant⟩) :
    document.references name true = (place :: others).map (Document.spanOf name) ∧
      document.references name false = others.map (Document.spanOf name) := by
  have hothers : others.filter (fun other => !decide (place = other)) = others := by
    refine List.filter_eq_self.mpr fun other hother => ?_
    rw [Bool.not_eq_true', decide_eq_false_iff_not]
    rintro rfl
    exact hfresh hother
  rw [references_eq, references_eq, hplaces, hdeclaration]
  constructor
  · simp
  · simp [hothers]

/-- No two identifiers of a text stand at one place. -/
theorem nodup_occurrences {text : Bytes} {tokens : List Token} (htokens : tokenize text = .ok tokens)
    (name : String) : (occurrences tokens name).Nodup := by
  obtain ⟨hresults, -⟩ := results_of_tokenize htokens
  have hcut : Cut 0 (glyphs text) (scan text).results := cut_scanFrom Position.start (glyphs text)
  have hpairwise := hcut.pairwise_offset.2
  rw [hresults, List.pairwise_map] at hpairwise
  have hsentence : occurrences tokens name = occurrences (sentence tokens) name := by
    conv_lhs => rw [tokenize_eq_ok htokens]
    simp [occurrences]
  rw [hsentence]
  refine List.pairwise_map.mpr ((hpairwise.filter _).imp fun hless hsame => ?_)
  exact Int.ne_of_lt hless (congrArg Position.offset hsame)

theorem read_of_ok {text : Bytes} {code : Machine.Code} {tokens : List Token}
    (hcompile : compile text = .ok code) (htokens : tokenize text = .ok tokens) :
    Document.read text = ⟨text, tokens, (analyze tokens).table, none⟩ ∧
      (analyze tokens).result = .ok code := by
  obtain ⟨found, hfound, hresult⟩ := bind_eq_ok_iff.mp hcompile
  obtain rfl := Except.ok.inj (hfound.symm.trans htokens)
  simp only [Document.read, htokens, hresult, and_self]

theorem answer_ask {session : Session} {uri : String} {document : Document}
    (h : session.document? uri = some document) (question : Document → Answer) :
    (session.ask uri question).2.answer = question document := by
  rw [Session.ask, h]

/-- In a text that compiles, a cursor in an identifier or at either end of it leads to the one
declaration of its name, which is the first of the identifiers with this name, and to all of these in
order, with the declaration or without it. The spans that are given cover the name. -/
theorem navigation_exact {session : Session} {uri : String} {text : Bytes} {code : Machine.Code}
    {tokens : List Token} {name : String} {position : Position} {cursor : Cursor}
    (hopen : session.document? uri = some (Document.read text)) (hsize : text.length < 2 ^ 32)
    (hcompile : compile text = .ok code) (htokens : tokenize text = .ok tokens)
    (htoken : ⟨.identifier name, position⟩ ∈ tokens) (htouches : cursor.Touches name position) :
    ∃ place others, occurrences tokens name = place :: others ∧
      (∀ other, DeclaredAt tokens name other ↔ other = place) ∧
      (session.serve (.definition uri cursor)).2.answer =
        .locations uri [Document.spanOf name place] ∧
      (session.serve (.references uri cursor true)).2.answer =
        .locations uri ((place :: others).map (Document.spanOf name)) ∧
      (session.serve (.references uri cursor false)).2.answer =
        .locations uri (others.map (Document.spanOf name)) ∧
      ∀ other ∈ place :: others,
        (Document.spanOf name other).Covers text other.offset.toNat (encode name) ∧
        (Document.spanOf name other).cut? text = some (encode name) := by
  obtain ⟨hread, hresult⟩ := read_of_ok hcompile htokens
  obtain ⟨tree, hphrase, hnamed, -, -⟩ := analyze_sound hresult
  have hnames : ∀ other, ⟨.identifier name, other⟩ ∈ tokens →
      ∃ before after, NameAt text name other before after :=
    fun other hother => exists_nameAt htokens hphrase.isChain hother
  have hintroduces : Introduces [] (kinds tokens) tree.names := by
    rw [tokenize_eq_ok htokens, kinds_append]
    exact (Introduces.ofBlock hphrase hnamed).append (.skip rfl (.nil _))
  obtain ⟨place, others, hplaces⟩ : ∃ place others, occurrences tokens name = place :: others :=
    List.exists_cons_of_ne_nil (List.ne_nil_of_mem (mem_occurrences_iff.mpr htoken))
  obtain ⟨⟨constant, hfind⟩, hdeclared⟩ := declaredAt_iff_of_introduces hintroduces hplaces
  have hfresh : place ∉ others := by
    have hnodup := nodup_occurrences htokens name
    rw [hplaces, List.nodup_cons] at hnodup
    exact hnodup.1
  have hword : (Document.read text).wordAt cursor = name := by
    obtain ⟨before, after, hname⟩ := hnames position htoken
    exact hname.wordAt_eq (by rw [hread]) htouches
  have hdeclaration : (Document.read text).declaration? name = some ⟨name, place, constant⟩ := by
    rw [hread]
    exact hfind
  have hdocument : occurrences (Document.read text).tokens name = place :: others := by
    rw [hread]
    exact hplaces
  obtain ⟨hall, hothers⟩ := references_of_places hdocument hfresh hdeclaration
  refine ⟨place, others, hplaces, hdeclared, ?_, ?_, ?_, fun other hother => ?_⟩
  · rw [Session.serve, answer_ask hopen, hword, Document.definition?, hdeclaration]
    rfl
  · rw [Session.serve, answer_ask hopen, hword, hall]
  · rw [Session.serve, answer_ask hopen, hword, hothers]
  · rw [← hplaces, mem_occurrences_iff] at hother
    obtain ⟨before, after, hname⟩ := hnames other hother
    exact ⟨hname.covers hsize, (hname.covers hsize).cut?_eq⟩

/-- A variable that is used twice in one expression. -/
def squaredText : String :=
  "begin\n  var a1 = 2;\n  print(a1*a1);\nend"

def squaredTokens : List Token :=
  [⟨.beginWord, ⟨0, 1, 1⟩⟩, ⟨.varWord, ⟨8, 2, 3⟩⟩, ⟨.identifier "a1", ⟨12, 2, 7⟩⟩, ⟨.equals, ⟨15, 2, 10⟩⟩,
    ⟨.integer 2, ⟨17, 2, 12⟩⟩, ⟨.semicolon, ⟨18, 2, 13⟩⟩, ⟨.printWord, ⟨22, 3, 3⟩⟩,
    ⟨.openParen, ⟨27, 3, 8⟩⟩, ⟨.identifier "a1", ⟨28, 3, 9⟩⟩, ⟨.times, ⟨30, 3, 11⟩⟩,
    ⟨.identifier "a1", ⟨31, 3, 12⟩⟩, ⟨.closeParen, ⟨33, 3, 14⟩⟩, ⟨.semicolon, ⟨34, 3, 15⟩⟩,
    ⟨.endWord, ⟨36, 4, 1⟩⟩, ⟨.endOfInput, ⟨39, 4, 4⟩⟩]

/-- A session that has opened the text. -/
def squaredSession : Session :=
  (Session.serve ⟨"", true, []⟩ (.didOpen "square" squaredText)).1

/-- From behind the first use of the variable. -/
theorem navigation_exact_squared :
    squaredSession.document? "square" = some (Document.read (encode squaredText)) ∧
    (encode squaredText).length < 2 ^ 32 ∧ (∃ code, compile (encode squaredText) = .ok code) ∧
    tokenize (encode squaredText) = .ok squaredTokens ∧
    ⟨.identifier "a1", ⟨28, 3, 9⟩⟩ ∈ squaredTokens ∧ Cursor.Touches ⟨2, 10⟩ "a1" ⟨28, 3, 9⟩ ∧
    (squaredSession.serve (.definition "square" ⟨2, 10⟩)).2.answer =
      .locations "square" [⟨⟨1, 6⟩, ⟨1, 8⟩⟩] ∧
    (squaredSession.serve (.references "square" ⟨2, 10⟩ true)).2.answer =
      .locations "square" [⟨⟨1, 6⟩, ⟨1, 8⟩⟩, ⟨⟨2, 8⟩, ⟨2, 10⟩⟩, ⟨⟨2, 11⟩, ⟨2, 13⟩⟩] ∧
    (squaredSession.serve (.references "square" ⟨2, 10⟩ false)).2.answer =
      .locations "square" [⟨⟨2, 8⟩, ⟨2, 10⟩⟩, ⟨⟨2, 11⟩, ⟨2, 13⟩⟩] := by
  have hopen : squaredSession.document? "square" = some (Document.read (encode squaredText)) := by
    simp [squaredSession, Session.serve, Session.take, Session.update, Session.document?]
  have hsize : (encode squaredText).length < 2 ^ 32 := by decide
  have hcompile : ∃ code, compile (encode squaredText) = .ok code := ⟨_, by cbv⟩
  have htokens : tokenize (encode squaredText) = .ok squaredTokens := by cbv
  have htoken : ⟨.identifier "a1", ⟨28, 3, 9⟩⟩ ∈ squaredTokens := by decide
  have htouches : Cursor.Touches ⟨2, 10⟩ "a1" ⟨28, 3, 9⟩ := ⟨by decide, by decide, by decide⟩
  obtain ⟨code, hcode⟩ := hcompile
  obtain ⟨place, others, hplaces, -, hdefinition, hreferences, hothers, -⟩ :=
    navigation_exact hopen hsize hcode htokens htoken htouches
  have hsquared : occurrences squaredTokens "a1" = [⟨12, 2, 7⟩, ⟨28, 3, 9⟩, ⟨31, 3, 12⟩] := by decide
  rw [hsquared] at hplaces
  obtain ⟨rfl, rfl⟩ := List.cons.inj hplaces
  exact ⟨hopen, hsize, ⟨code, hcode⟩, htokens, htoken, htouches, hdefinition, hreferences, hothers⟩

end PlZero.Editor

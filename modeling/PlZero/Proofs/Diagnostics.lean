import PlZero.Proofs.FaultPlaces
import PlZero.Proofs.Places

/-! Diagnostics point at what is wrong. Main statement: a text that does not compile has one diagnostic,
and its span starts at the first byte of the lexeme that the fault is about and covers all of it, on one
line. How far a span goes is found from the bytes alone, which agree with the runs of the scanner so
far that no run is cut. -/

namespace PlZero.Source

open PlZero.Text PlZero.Attempt

theorem exists_first_error {results : List Scanned} {fault : Fault}
    (h : results.mapM id = .error fault) : ∃ (earlier : List Token) (later : List Scanned),
      results = earlier.map .ok ++ .error fault :: later := by
  induction results with
  | nil => cases h
  | cons result rest ih =>
      rw [List.mapM_cons] at h
      obtain hresult | ⟨token, htoken, h⟩ := bind_eq_error_iff.mp h
      · exact ⟨[], rest, congrArg (· :: rest) hresult⟩
      · obtain hrest | ⟨found, -, h⟩ := bind_eq_error_iff.mp h
        · obtain ⟨earlier, later, rfl⟩ := ih hrest
          exact ⟨token :: earlier, later, congrArg (· :: _) htoken⟩
        · cases h

/-- The results of scanning a text that scans are its tokens but for the end of input. -/
theorem results_of_tokenize {text : Bytes} {tokens : List Token} (h : tokenize text = .ok tokens) :
    (scan text).results = (sentence tokens).map .ok ∧ finish tokens = (scan text).finish := by
  have hwhole := tokenize_eq_ok h
  obtain ⟨found, hfound, rfl⟩ := map_eq_ok_iff.mp h
  obtain ⟨hsentence, hlast⟩ := List.append_inj' hwhole rfl
  rw [eq_map_of_mapM hfound, ← hsentence]
  simp only [Scan.last, List.cons.injEq, Token.mk.injEq, and_true, true_and] at hlast
  exact ⟨rfl, hlast.symm⟩

/-- The run is a lexeme of the text, behind `before`: the longest run of its kind there. It spells the
content. -/
def IsLexeme (text : Bytes) (before run : List Glyph) (content : Except Cause TokenKind) : Prop :=
  ∃ (kind : RunKind) (after : List Glyph), glyphs text = before ++ (run ++ after) ∧
    kind.IsLongest run (run ++ after) ∧ kind.Denotes run content

/-- What a fault of the text is about: the first lexeme that is no token, the token at which the
analysis stops, or the end of the text, where it stops for want of one. -/
inductive Offends (text : Bytes) (fault : Fault) (before : List Glyph) : List Glyph → Prop where
  | lexeme {run : List Glyph} {earlier : List Token} {later : List Scanned}
      (hresults : (scan text).results = earlier.map .ok ++ .error fault :: later)
      (hlexeme : IsLexeme text before run (.error fault.cause)) : Offends text fault before run
  | token {run : List Glyph} {tokens used rest : List Token} {token : Token} {table : SymbolTable}
      (htokens : tokenize text = .ok tokens) (hsentence : sentence tokens = used ++ token :: rest)
      (hhalted : Halted (finish tokens) used (token :: rest) ⟨fault, table⟩)
      (hlexeme : IsLexeme text before run (.ok token.kind)) : Offends text fault before run
  | finish {tokens : List Token} {table : SymbolTable} (htokens : tokenize text = .ok tokens)
      (hhalted : Halted (finish tokens) (sentence tokens) [] ⟨fault, table⟩)
      (hbefore : before = glyphs text) : Offends text fault before []

theorem position_of_halted {finish : Position} {before rest : List Token} {fault : Fault}
    {table : SymbolTable} (h : Halted finish before rest ⟨fault, table⟩) :
    fault.position = (nextToken finish rest).position := by
  cases h with
  | refused => rfl
  | misnamed => rfl

/-- A fault stands where the run is that it is about. -/
theorem exists_offends {text : Bytes} {fault : Fault} (h : compile text = .error fault) :
    ∃ before run, Offends text fault before run ∧ fault.position = Position.start.advance before := by
  obtain htokens | ⟨tokens, htokens, hresult⟩ := bind_eq_error_iff.mp h
  · obtain ⟨earlier, later, hresults⟩ := exists_first_error (map_eq_error_iff.mp htokens)
    obtain ⟨kind, before, run, after, hplaced⟩ := scanFrom_placed _ _ hresults
    exact ⟨before, run, .lexeme hresults ⟨kind, after, hplaced.split, hplaced.longest, hplaced.denotes⟩,
      hplaced.position_eq⟩
  · obtain ⟨used, rest, hsentence, hhalted⟩ := analyze_halted hresult
    obtain ⟨hresults, hfinish⟩ := results_of_tokenize htokens
    have hposition := position_of_halted hhalted
    cases rest with
    | nil =>
        rw [List.append_nil] at hsentence
        subst hsentence
        refine ⟨glyphs text, [], .finish htokens hhalted rfl, ?_⟩
        rw [hposition, nextToken, hfinish]
        exact finish_scanFrom Position.start (glyphs text)
    | cons token rest =>
        rw [hsentence, List.map_append, List.map_cons] at hresults
        obtain ⟨kind, before, run, after, hplaced⟩ := scanFrom_placed _ _ hresults
        refine ⟨before, run, .token htokens hsentence hhalted ?_, hposition.trans hplaced.position_eq⟩
        exact ⟨kind, after, hplaced.split, hplaced.longest, hplaced.denotes⟩

end PlZero.Source

namespace PlZero.Editor

open PlZero.Text PlZero.Source PlZero.Attempt

/-- The bytes of a lexeme go on with all bytes behind it that are like them. -/
theorem exists_lexemeLength {lexeme : Bytes} (hnonempty : lexeme ≠ []) {inWord : Bool}
    (hlexeme : ∀ byte ∈ lexeme, isWordByte byte = inWord ∧ isSpaceByte byte = false)
    (before after : Bytes) : ∃ more rest, after = more ++ rest ∧ lineFeed ∉ lexeme ++ more ∧
      lexemeLength (before ++ (lexeme ++ after)) before.length = (lexeme ++ more).length := by
  obtain ⟨first, others, rfl⟩ := List.exists_cons_of_ne_nil hnonempty
  have hfirst := (hlexeme first List.mem_cons_self).1
  obtain ⟨like, hfeed, hlike, hlength⟩ : ∃ like : UInt8 → Bool, like lineFeed = false ∧
      (∀ byte ∈ first :: others, like byte = true) ∧
      lexemeLength (before ++ (first :: others ++ after)) before.length =
        ((first :: others ++ after).takeWhile like).length := by
    rw [lexemeLength, List.drop_left' rfl, List.cons_append]
    cases inWord with
    | true =>
        refine ⟨isWordByte, rfl, fun byte hbyte => (hlexeme byte hbyte).1, ?_⟩
        exact if_pos hfirst
    | false =>
        refine ⟨fun byte => !isWordByte byte && !isSpaceByte byte, rfl, fun byte hbyte => ?_, ?_⟩
        · simp [hlexeme byte hbyte]
        · exact if_neg (Bool.eq_false_iff.mp hfirst)
  have hmore : ∀ byte ∈ after.takeWhile like, like byte = true :=
    fun _ hbyte => List.mem_takeWhile_imp hbyte
  refine ⟨after.takeWhile like, after.dropWhile like, List.takeWhile_append_dropWhile.symm, ?_, ?_⟩
  · intro hmem
    have htrue := List.forall_mem_append.mpr ⟨hlike, hmore⟩ lineFeed hmem
    rw [hfeed] at htrue
    cases htrue
  · rw [hlength, List.takeWhile_append_of_pos hlike]

/-- The span of what the bytes show as one lexeme at a position. -/
def lexemeSpan (text : Bytes) (position : Position) : Span :=
  .at position (lexemeLength text position.offset.toNat)

theorem offset_advance_start (run : List Glyph) :
    (Position.start.advance run).offset = (unread run).length := by
  rw [Position.offset_advance]
  exact Int.zero_add _

/-- The span points at the run behind `before`: it starts with the first byte of the run and covers all
of it. Only at the end of the text it covers nothing. -/
structure Span.PointsAt (span : Span) (text : Bytes) (before run : List Glyph) (covered : Bytes) :
    Prop where
  covers : span.Covers text (unread before).length covered
  whole : unread run <+: covered
  empty_iff : covered = [] ↔ (unread before).length = text.length

theorem bytes_of_isRun {kind : RunKind} {run : List Glyph} (hrun : kind.IsRun run)
    (hproper : ∀ glyph ∈ run, glyph.IsProper) :
    ∀ byte ∈ unread run, isWordByte byte = kind.inWord ∧ isSpaceByte byte = false := by
  intro byte hbyte
  obtain ⟨glyph, hglyph, hbyte⟩ := List.mem_flatMap.mp hbyte
  obtain ⟨hpart, hsolid⟩ := hrun.uniform glyph hglyph
  have hproper := hproper glyph hglyph
  refine ⟨(isWordByte_of_mem_bytes hproper hbyte).trans hpart, Bool.eq_false_iff.mpr fun hspace => ?_⟩
  rw [isBlank_of_mem_bytes hproper hbyte hspace] at hsolid
  cases hsolid

section Pointing

variable {text : Bytes} (hsize : text.length < 2 ^ 32)
include hsize

theorem pointsAt_run {kind : RunKind} {before run after : List Glyph}
    (hsplit : glyphs text = before ++ (run ++ after)) (hrun : kind.IsRun run) : ∃ covered,
      (lexemeSpan text (Position.start.advance before)).PointsAt text before run covered := by
  obtain ⟨hbefore, hproper, -⟩ := isProper_of_split hsplit
  have htext := eq_unread_of_split hsplit
  have hnonempty : unread run ≠ [] := List.length_pos_iff.mp hrun.length_unread_pos
  obtain ⟨more, rest, hafter, hfree, hlength⟩ :=
    exists_lexemeLength hnonempty (bytes_of_isRun hrun hproper) (unread before) (unread after)
  rw [← htext] at hlength
  rw [hafter, ← List.append_assoc (unread run)] at htext
  rw [lexemeSpan, offset_advance_start, Int.toNat_natCast, hlength, Position.advance_start hbefore]
  subst htext
  refine ⟨unread run ++ more, Span.covers_at hsize hfree, List.prefix_append _ _, ?_⟩
  have hpositive := hrun.length_unread_pos
  simp only [List.append_eq_nil_iff, hnonempty, false_and, List.length_append, false_iff]
  omega

theorem pointsAt_finish : ∃ covered,
    (lexemeSpan text (Position.start.advance (glyphs text))).PointsAt text (glyphs text) [] covered := by
  have hlength : lexemeLength text text.length = 0 := by rw [lexemeLength, List.drop_length]
  have hend : text ++ ([] ++ []) = text := by rw [List.append_nil, List.append_nil]
  have hcovers := Span.covers_at (hend.symm ▸ hsize) List.not_mem_nil
  rw [hend, List.length_nil] at hcovers
  rw [lexemeSpan, offset_advance_start, Int.toNat_natCast, unread_glyphs, hlength,
    Position.advance_start fun _ hglyph => isProper_of_mem_glyphs hglyph, unread_glyphs]
  refine ⟨[], ?_, List.nil_prefix, ?_⟩
  · rw [unread_glyphs]
    exact hcovers
  · rw [unread_glyphs]
    exact ⟨fun _ => rfl, fun _ => rfl⟩

end Pointing

/-! ### Diagnostics -/

theorem diagnostics_of_ok {text : Bytes} {code : Machine.Code} (h : compile text = .ok code) :
    (Document.read text).diagnostics = [] := by
  obtain ⟨tokens, htokens, hresult⟩ := bind_eq_ok_iff.mp h
  simp only [Document.read, htokens, hresult, Document.diagnostics]

theorem diagnostics_of_error {text : Bytes} {fault : Fault} (h : compile text = .error fault) :
    (Document.read text).diagnostics = [⟨lexemeSpan text fault.position, fault.summary⟩] := by
  obtain htokens | ⟨tokens, htokens, hresult⟩ := bind_eq_error_iff.mp h
  · simp only [Document.read, htokens, Document.diagnostics, lexemeSpan]
  · simp only [Document.read, htokens, hresult, Document.diagnostics, lexemeSpan]

/-- The span of a diagnostic points at what the fault is about. -/
theorem pointsAt_of_offends {text : Bytes} {fault : Fault} {before run : List Glyph}
    (h : Offends text fault before run) (hsize : text.length < 2 ^ 32) : ∃ covered,
      (lexemeSpan text (Position.start.advance before)).PointsAt text before run covered := by
  cases h with
  | lexeme hresults hlexeme =>
      obtain ⟨kind, after, hsplit, hlongest, -⟩ := hlexeme
      exact pointsAt_run hsize hsplit hlongest.isRun
  | token htokens hsentence hhalted hlexeme =>
      obtain ⟨kind, after, hsplit, hlongest, -⟩ := hlexeme
      exact pointsAt_run hsize hsplit hlongest.isRun
  | finish htokens hhalted hbefore =>
      subst hbefore
      exact pointsAt_finish hsize

/-- A text has no diagnostic if it compiles, and else exactly one. Its span lies within one line of the
text, starts at the byte where the lexeme starts that the fault is about, and covers all of it. Only at
the end of the text it covers nothing. -/
theorem diagnostics_exact {text : Bytes} (hsize : text.length < 2 ^ 32) :
    ((Document.read text).diagnostics = [] ↔ ∃ code, compile text = .ok code) ∧
      ∀ fault, compile text = .error fault → ∃ before run span covered,
        (Document.read text).diagnostics = [⟨span, fault.summary⟩] ∧ Offends text fault before run ∧
        fault.position.offset = (unread before).length ∧ span.PointsAt text before run covered := by
  constructor
  · constructor
    · intro hnone
      cases hcompile : compile text with
      | ok code => exact ⟨code, rfl⟩
      | error fault =>
          rw [diagnostics_of_error hcompile] at hnone
          cases hnone
    · rintro ⟨code, hcompile⟩
      exact diagnostics_of_ok hcompile
  · intro fault hcompile
    obtain ⟨before, run, hoffends, hposition⟩ := exists_offends hcompile
    obtain ⟨covered, hpoints⟩ := pointsAt_of_offends hoffends hsize
    rw [← hposition] at hpoints
    refine ⟨before, run, _, covered, diagnostics_of_error hcompile, hoffends, ?_, hpoints⟩
    rw [hposition, offset_advance_start]

/-- A letter of two bytes and a stray byte on the second line, with a mark directly behind them. -/
def accentedText : Bytes :=
  encodeChars "begin\n  é".toList ++ 0xFF :: encodeChars ";\nend".toList

def accentedFault : Fault := ⟨.strayText [.char 'é', .stray 0xFF], ⟨8, 2, 3⟩⟩

theorem diagnostics_exact_accented : accentedText.length < 2 ^ 32 ∧
    compile accentedText = .error accentedFault ∧ ∃ before run covered,
      (Document.read accentedText).diagnostics =
        [⟨⟨⟨1, 2⟩, ⟨1, 6⟩⟩, accentedFault.summary⟩] ∧
      Offends accentedText accentedFault before run ∧
      accentedFault.position.offset = (unread before).length ∧
      Span.PointsAt ⟨⟨1, 2⟩, ⟨1, 6⟩⟩ accentedText before run covered := by
  have hsize : accentedText.length < 2 ^ 32 := by decide
  have hcompile : compile accentedText = .error accentedFault := by cbv
  have hspan : (Document.read accentedText).diagnostics =
      [⟨⟨⟨1, 2⟩, ⟨1, 6⟩⟩, accentedFault.summary⟩] := by
    rw [diagnostics_of_error hcompile]
    rfl
  obtain ⟨before, run, span, covered, hdiagnostics, hoffends, hoffset, hpoints⟩ :=
    (diagnostics_exact hsize).2 accentedFault hcompile
  rw [hspan] at hdiagnostics
  obtain ⟨rfl, -⟩ : _ ∧ True := by simpa using hdiagnostics
  exact ⟨hsize, hcompile, before, run, covered, hspan, hoffends, hoffset, hpoints⟩

end PlZero.Editor

import PlZero.Editor.Document
import PlZero.Proofs.Scanning
import PlZero.Proofs.Spacing

/-! Places in a text, counted in three ways: by its bytes, by its lines, and by the 32-bit numbers of an
editor. The place of a scanned result depends only on the bytes before it, and a span that is made from
it covers the bytes there, on one line. -/

namespace PlZero.Text

/-- The bytes behind the last line feed. -/
def lastLine (text : Bytes) : Bytes :=
  text.rtakeWhile (· != lineFeed)

/-- The bytes before the first line feed. -/
def firstLine (text : Bytes) : Bytes :=
  text.takeWhile (· != lineFeed)

theorem forall_bne_lineFeed {bytes : Bytes} (h : lineFeed ∉ bytes) :
    ∀ byte ∈ bytes, (byte != lineFeed) = true := by
  intro byte hbyte
  rw [bne_iff_ne]
  exact ne_of_mem_of_not_mem hbyte h

theorem lastLine_append {bytes : Bytes} (h : lineFeed ∉ bytes) (text : Bytes) :
    lastLine (text ++ bytes) = lastLine text ++ bytes := by
  have hreverse : ∀ byte ∈ bytes.reverse, (byte != lineFeed) = true :=
    fun byte hbyte => forall_bne_lineFeed h byte (List.mem_reverse.mp hbyte)
  rw [lastLine, lastLine, List.rtakeWhile, List.reverse_append, List.takeWhile_append_of_pos hreverse,
    List.reverse_append, List.reverse_reverse, ← List.rtakeWhile]

theorem lastLine_lineFeed (text : Bytes) : lastLine (text ++ [lineFeed]) = [] :=
  List.rtakeWhile_concat_neg _ _ _ (by decide)

theorem firstLine_append {bytes : Bytes} (h : lineFeed ∉ bytes) (text : Bytes) :
    firstLine (bytes ++ text) = bytes ++ firstLine text :=
  List.takeWhile_append_of_pos (forall_bne_lineFeed h)

theorem exists_splitOn (text : Bytes) : ∃ later, text.splitOn lineFeed = firstLine text :: later := by
  induction text with
  | nil => exact ⟨[], rfl⟩
  | cons byte rest ih =>
      obtain ⟨later, hrest⟩ := ih
      rw [List.splitOn_cons_eq_if_modifyHead, hrest]
      by_cases hbyte : byte = lineFeed
      · exact ⟨firstLine rest :: later, by simp [hbyte, firstLine]⟩
      · exact ⟨later, by simp [hbyte, firstLine]⟩

/-- There is one more line than there are line feeds. -/
theorem length_splitOn (text : Bytes) :
    (text.splitOn lineFeed).length = text.count lineFeed + 1 := by
  induction text with
  | nil => rfl
  | cons byte rest ih =>
      rw [List.splitOn_cons_eq_if_modifyHead, List.count_cons]
      split_ifs
      · rw [List.length_cons, ih]
      · rw [List.length_modifyHead, ih, Nat.add_zero]

/-- How many bytes some lines take, each with a line feed behind it. -/
def extent (lines : List Bytes) : Nat :=
  (lines.map fun line => line.length + 1).sum

theorem extent_splitOn (text : Bytes) : extent (text.splitOn lineFeed) = text.length + 1 := by
  induction text with
  | nil => rfl
  | cons byte rest ih =>
      obtain ⟨later, hrest⟩ := exists_splitOn rest
      rw [List.splitOn_cons_eq_if_modifyHead, hrest]
      rw [hrest] at ih
      simp only [extent, List.map_cons, List.sum_cons] at ih
      split_ifs <;> simp only [extent, List.modifyHead_cons, List.map_cons, List.sum_cons,
        List.length_cons, List.length_nil] <;> omega

/-- Every text ends with its last line; what is before this is nothing or ends with a line feed. -/
theorem exists_lastLine (text : Bytes) : ∃ upper, text = upper ++ lastLine text ∧
    (upper = [] ∨ ∃ lines, upper = lines ++ [lineFeed]) ∧ lineFeed ∉ lastLine text := by
  have hlast := List.rdropWhile_last_not (· != lineFeed) text
  refine ⟨text.rdropWhile (· != lineFeed), List.rdropWhile_append_rtakeWhile.symm, ?_, ?_⟩
  · obtain hnil | ⟨lines, byte, hlines⟩ := List.eq_nil_or_concat (text.rdropWhile (· != lineFeed))
    · exact .inl hnil
    · refine .inr ⟨lines, ?_⟩
      generalize text.rdropWhile (· != lineFeed) = upper at hlast hlines
      subst hlines
      obtain rfl : byte = lineFeed := by simpa using hlast
      exact List.concat_eq_append
  · intro hmem
    exact absurd (List.mem_rtakeWhile_imp hmem) (by decide)

/-- The line at a place: what stands before the place behind the last line feed, and what stands behind
it before the next. The lines before it end with the line feeds before the place. -/
theorem splitOn_at (before behind : Bytes) : ∃ earlier later,
    (before ++ behind).splitOn lineFeed = earlier ++ (lastLine before ++ firstLine behind) :: later ∧
      earlier.length = before.count lineFeed ∧
      extent earlier + (lastLine before).length = before.length := by
  obtain ⟨upper, hcut, hopens, hfree⟩ := exists_lastLine before
  obtain ⟨later, hlater⟩ := exists_splitOn (lastLine before ++ behind)
  rw [firstLine_append hfree] at hlater
  generalize lastLine before = tail at *
  subst hcut
  obtain rfl | ⟨lines, rfl⟩ := hopens
  · refine ⟨[], later, hlater, ?_, ?_⟩
    · simp [List.count_eq_zero_of_not_mem hfree]
    · simp [extent]
  · refine ⟨lines.splitOn lineFeed, later, ?_, ?_, ?_⟩
    · rw [List.append_assoc, List.append_assoc, List.singleton_append,
        List.splitOn_append_cons_self, hlater]
    · rw [length_splitOn]
      simp [List.count_eq_zero_of_not_mem hfree]
    · rw [extent_splitOn, List.length_append, List.length_append, List.length_singleton]

/-- A glyph that reading can give: a byte of ASCII is never stray. -/
def Glyph.IsProper : Glyph → Prop
  | char _ => True
  | stray byte => 0x80 ≤ byte.toNat

theorem isProper_start (first : UInt8) (rest : Bytes) : (Glyph.start first rest).IsProper := by
  rw [Glyph.start]
  split
  · exact trivial
  · rename_i hnone
    rw [Glyph.IsProper]
    by_contra hascii
    simp [character?, Nat.lt_of_not_le hascii] at hnone

theorem isProper_of_mem_glyphs {text : Bytes} {glyph : Glyph} (h : glyph ∈ glyphs text) :
    glyph.IsProper := by
  have hfrom (skip : Nat) (found : List Glyph) (hfound : ∀ glyph ∈ found, glyph.IsProper) :
      ∀ glyph ∈ glyphsFrom skip text found, glyph.IsProper := by
    clear h
    induction text generalizing skip found with
    | nil => simpa [glyphsFrom] using hfound
    | cons first rest ih =>
        cases skip with
        | zero => exact ih _ _ (List.forall_mem_cons.mpr ⟨isProper_start first rest, hfound⟩)
        | succ left => exact ih left found hfound
  exact hfrom 0 [] (List.forall_mem_nil _) glyph h

/-- A byte of ASCII stands for itself only. -/
theorem Glyph.IsProper.eq_of_mem_bytes {glyph : Glyph} (h : glyph.IsProper) {byte : UInt8}
    (hascii : byte.toNat < 0x80) (hbyte : byte ∈ glyph.bytes) :
    glyph = .char (Char.ofNat byte.toNat) := by
  cases glyph with
  | char value => rw [toNat_eq_of_mem_encodeChar hascii hbyte, Char.ofNat_toNat]
  | stray other =>
      obtain rfl := List.mem_singleton.mp hbyte
      exact absurd h (Nat.not_le_of_lt hascii)

theorem Glyph.bytes_ne_nil (glyph : Glyph) : glyph.bytes ≠ [] := by
  rw [← List.length_pos_iff, ← width_eq_length_bytes]
  exact glyph.width_pos

theorem Glyph.bytes_ascii {value : Char} (h : value.toNat < 0x80) :
    (Glyph.char value).bytes = [value.toNat.toUInt8] := by
  rw [bytes, encodeChar, if_pos h]

theorem lineFeed_notMem_bytes {glyph : Glyph} (hproper : glyph.IsProper) (h : glyph ≠ .char '\n') :
    lineFeed ∉ glyph.bytes :=
  fun hmem => h (hproper.eq_of_mem_bytes (by decide) hmem)

end PlZero.Text

namespace PlZero.Source

open PlZero.Text

/-- The place behind some bytes: their number, the line feeds among them, and the bytes behind the last
of these. -/
def Position.behind (before : Bytes) : Position :=
  ⟨before.length, before.count lineFeed + 1, (lastLine before).length + 1⟩

theorem Position.after_behind {glyph : Glyph} (hproper : glyph.IsProper) (before : Bytes) :
    (behind before).after glyph = behind (before ++ glyph.bytes) := by
  unfold after
  split
  · have hbytes : (Glyph.char '\n').bytes = [lineFeed] := rfl
    rw [hbytes, behind, behind, lastLine_lineFeed]
    simp
  · rename_i hglyph
    have hfree := lineFeed_notMem_bytes hproper hglyph
    rw [behind, behind, lastLine_append hfree, List.count_append, List.count_eq_zero_of_not_mem hfree,
      Glyph.width_eq_length_bytes]
    simp
    omega

/-- The place behind a run of glyphs depends on their bytes only. -/
theorem Position.advance_start {run : List Glyph} (hproper : ∀ glyph ∈ run, glyph.IsProper) :
    start.advance run = behind (unread run) := by
  induction run using List.reverseRecOn with
  | nil => rfl
  | append_singleton run glyph ih =>
      have hglyph := hproper glyph (by simp)
      have hrun := ih fun other hother => hproper other (List.mem_append_left _ hother)
      rw [advance] at hrun
      rw [advance, List.foldl_concat, hrun, after_behind hglyph, unread_append, unread_cons]
      simp [unread]

section Split

variable {text : Bytes} {before run after : List Glyph}
  (h : glyphs text = before ++ (run ++ after))
include h

theorem eq_unread_of_split : text = unread before ++ (unread run ++ unread after) := by
  rw [← unread_append, ← unread_append, ← h, unread_glyphs]

theorem isProper_of_split : (∀ glyph ∈ before, glyph.IsProper) ∧ (∀ glyph ∈ run, glyph.IsProper) ∧
    ∀ glyph ∈ after, glyph.IsProper := by
  have hproper : ∀ glyph ∈ glyphs text, glyph.IsProper := fun _ hglyph => isProper_of_mem_glyphs hglyph
  rw [h, List.forall_mem_append, List.forall_mem_append] at hproper
  exact hproper

end Split

/-! ### Results of scanning -/

theorem Position.advance_append (position : Position) (first second : List Glyph) :
    position.advance (first ++ second) = (position.advance first).advance second :=
  List.foldl_append

theorem isBlank_of_isWordPart {glyph : Glyph} (h : glyph.satisfies isWordPart = true) :
    glyph.isBlank = false := by
  have hcontinues : RunKind.word.continues glyph = true := h
  obtain ⟨kind, hstarts⟩ := RunKind.exists_starts_of_continues hcontinues
  exact RunKind.isBlank_of_starts hstarts

theorem isStray_of_isWordPart {glyph : Glyph} (h : glyph.satisfies isWordPart = true) :
    isStray glyph = false := by
  obtain ⟨value, rfl, hpart⟩ := exists_of_satisfies h
  obtain hletter | hdigit := Bool.or_eq_true_iff.mp hpart
  · simp [isStray, hletter]
  · simp [isStray, hdigit]

/-- Whether the runs of a kind are made of letters and digits. -/
def RunKind.inWord : RunKind → Bool
  | number | word => true
  | mark | stray => false

theorem RunKind.isWordPart_of_starts {kind : RunKind} {glyph : Glyph} (h : kind.starts glyph = true) :
    glyph.satisfies isWordPart = kind.inWord := by
  cases kind with
  | number =>
      obtain ⟨value, rfl, hdigit⟩ := exists_of_satisfies h
      exact Bool.or_eq_true_iff.mpr (.inr hdigit)
  | word =>
      obtain ⟨value, rfl, hletter⟩ := exists_of_satisfies h
      exact Bool.or_eq_true_iff.mpr (.inl hletter)
  | mark => exact continues_of_mark h .word
  | stray =>
      refine Bool.eq_false_iff.mpr fun hpart => ?_
      exact absurd h (Bool.eq_false_iff.mp (isStray_of_isWordPart hpart))

theorem RunKind.isWordPart_of_continues {kind : RunKind} {glyph : Glyph}
    (h : kind.continues glyph = true) : glyph.satisfies isWordPart = kind.inWord := by
  cases kind with
  | number =>
      have hstarts : number.starts glyph = true := h
      exact isWordPart_of_starts hstarts
  | word => exact h
  | mark => exact absurd h Bool.false_ne_true
  | stray =>
      have hstarts : stray.starts glyph = true := h
      exact isWordPart_of_starts hstarts

/-- All glyphs of a run are letters and digits, or none of them is; none is blank. -/
theorem RunKind.IsRun.uniform {kind : RunKind} {run : List Glyph} (h : kind.IsRun run) :
    ∀ glyph ∈ run, glyph.satisfies isWordPart = kind.inWord ∧ glyph.isBlank = false := by
  cases run with
  | nil => exact h.elim
  | cons first others =>
      refine List.forall_mem_cons.mpr ⟨⟨isWordPart_of_starts h.1, isBlank_of_starts h.1⟩, ?_⟩
      intro glyph hglyph
      have hcontinues := h.2 glyph hglyph
      obtain ⟨other, hstarts⟩ := exists_starts_of_continues hcontinues
      exact ⟨isWordPart_of_continues hcontinues, isBlank_of_starts hstarts⟩

theorem RunKind.IsRun.length_unread_pos {kind : RunKind} {run : List Glyph} (h : kind.IsRun run) :
    0 < (unread run).length := by
  cases run with
  | nil => exact h.elim
  | cons first others =>
      rw [unread_cons, List.length_pos_iff]
      exact List.append_ne_nil_of_left_ne_nil first.bytes_ne_nil _

/-- Where a letter stands directly behind a run that ends with a letter or a digit, the run is a
number. -/
theorem Lexeme.IsCut.eq_number {kind : RunKind} {first : Glyph} {rest : List Glyph}
    (h : IsCut kind first rest) {glyph next : Glyph} (hlast : glyph ∈ (read first rest).glyphs.getLast?)
    (hpart : glyph.satisfies isWordPart = true)
    (hnext : next ∈ (Lexeme.remainder first rest).head?) (hletter : RunKind.word.starts next = true) :
    kind = .number := by
  have hrun := (RunKind.isLongest_takeWhile h.starts rest).isRun
  rw [h.glyphs] at hlast
  have hinWord : kind.inWord = true := by
    rw [← (hrun.uniform glyph (List.mem_of_getLast? hlast)).1, hpart]
  cases kind with
  | number => rfl
  | mark | stray => cases hinWord
  | word =>
      -- A word would go on with the letter.
      have hends := List.head?_dropWhile_not RunKind.word.continues rest
      rw [← h.remainder, Option.mem_def.mp hnext] at hends
      have hcontinues : RunKind.word.continues next = true := RunKind.isWordPart_of_starts hletter
      simp [hcontinues] at hends

/-- How a result of scanning lies in a text that starts at the position: it stands at the start of a run,
the longest of its kind there, and says what the run spells. A word that stands directly behind a letter
or a digit has a number before it. -/
structure Placed (position : Position) (text : List Glyph) (earlier : List Scanned) (result : Scanned)
    (kind : RunKind) (before run after : List Glyph) : Prop where
  split : text = before ++ (run ++ after)
  position_eq : Scanned.position result = position.advance before
  longest : kind.IsLongest run (run ++ after)
  denotes : kind.Denotes run (Scanned.content result)
  count : earlier.length ≤ before.length
  touching : kind = .word → ∀ glyph ∈ before.getLast?, glyph.satisfies isWordPart = true →
    ∃ previous ∈ earlier.getLast?, ∃ digits, RunKind.number.Denotes digits (Scanned.content previous)

theorem Placed.exists_starts {position : Position} {text : List Glyph} {earlier : List Scanned}
    {result : Scanned} {kind : RunKind} {before run after : List Glyph}
    (h : Placed position text earlier result kind before run after) :
    ∃ first others, run = first :: others ∧ kind.starts first = true := by
  cases run with
  | nil => exact h.longest.isRun.elim
  | cons first others => exact ⟨first, others, rfl, h.longest.isRun.1⟩

/-- What is placed in the text behind a lexeme is placed in the whole text. -/
theorem Placed.behind_lexeme {position : Position} {blanks rest : List Glyph} {first : Glyph}
    {cut : RunKind} (hcut : Lexeme.IsCut cut first rest) {earlier : List Scanned} {result : Scanned}
    {kind : RunKind} {before run after : List Glyph}
    (h : Placed ((position.advance blanks).advance (Lexeme.read first rest).glyphs)
      (Lexeme.remainder first rest) earlier result kind before run after) :
    Placed position (blanks ++ first :: rest)
      ((Lexeme.read first rest).place (position.advance blanks) :: earlier) result kind
      (blanks ++ ((Lexeme.read first rest).glyphs ++ before)) run after where
  split := by
    rw [← hcut.split, h.split]
    simp
  position_eq := by
    rw [h.position_eq, Position.advance_append, Position.advance_append]
  longest := h.longest
  denotes := h.denotes
  count := by
    have hcount := h.count
    rw [hcut.glyphs]
    simp only [List.length_cons, List.length_append]
    omega
  touching := by
    intro hword glyph hglyph hpart
    obtain rfl | ⟨others, last, rfl⟩ := List.eq_nil_or_concat before
    · -- The word stands directly behind the lexeme, and nothing was found between them.
      obtain rfl := List.eq_nil_of_length_eq_zero (Nat.le_zero.mp h.count)
      obtain ⟨letter, letters, rfl, hletter⟩ := h.exists_starts
      have hnext : letter ∈ (Lexeme.remainder first rest).head? := by
        rw [h.split]
        rfl
      have hlast : glyph ∈ (Lexeme.read first rest).glyphs.getLast? := by
        rw [hcut.glyphs] at hglyph ⊢
        simpa [List.getLast?_append] using hglyph
      obtain rfl := hcut.eq_number hlast hpart hnext (hword ▸ hletter)
      refine ⟨_, List.getLast?_singleton, (Lexeme.read first rest).glyphs, ?_⟩
      rw [Lexeme.content_place]
      exact hcut.denotes
    · have hlast : glyph ∈ (others.concat last).getLast? := by
        simpa [List.getLast?_append] using hglyph
      obtain ⟨previous, hprevious, hdigits⟩ := h.touching hword glyph hlast hpart
      refine ⟨previous, ?_, hdigits⟩
      rw [List.getLast?_cons, Option.mem_def.mp hprevious]
      rfl

/-- Every result of scanning is placed in the text. -/
theorem scanFrom_placed (position : Position) (text : List Glyph) {earlier later : List Scanned}
    {result : Scanned} (h : (scanFrom position text []).results = earlier ++ result :: later) :
    ∃ kind before run after, Placed position text earlier result kind before run after := by
  revert earlier result later
  refine scan_induction
    (motive := fun position text scanned => ∀ {earlier later : List Scanned} {result : Scanned},
      scanned.results = earlier ++ result :: later →
        ∃ kind before run after, Placed position text earlier result kind before run after)
    ?_ ?_ position text
  · intro position text _ earlier later result h
    simp at h
  · intro position blanks first rest scanned hblanks hsolid ih earlier later result h
    obtain ⟨kind, hstarts⟩ := RunKind.exists_starts hsolid
    have hcut := Lexeme.isCut_of_starts rest hstarts
    cases earlier with
    | nil =>
        obtain ⟨rfl, -⟩ := List.cons.inj h
        have hlongest := RunKind.isLongest_takeWhile hcut.starts rest
        rw [← hcut.glyphs, ← hcut.split] at hlongest
        refine ⟨kind, blanks, _, _, ⟨?_, Lexeme.position_place .., hlongest, ?_, Nat.zero_le _, ?_⟩⟩
        · rw [hcut.split]
        · rw [Lexeme.content_place]
          exact hcut.denotes
        · intro _ glyph hglyph hpart
          have hblank := hblanks glyph (List.mem_of_getLast? hglyph)
          rw [isBlank_of_isWordPart hpart] at hblank
          cases hblank
    | cons _ earlier =>
        obtain ⟨rfl, hrest⟩ := List.cons.inj h
        obtain ⟨other, before, run, after, hplaced⟩ := ih hrest
        exact ⟨other, _, run, after, hplaced.behind_lexeme hcut⟩

/-- A text ends where its last glyph does. -/
theorem finish_scanFrom (position : Position) (text : List Glyph) :
    (scanFrom position text []).finish = position.advance text := by
  refine scan_induction
    (motive := fun position text scanned => scanned.finish = position.advance text) ?_ ?_ position text
  · intro position text _
    rfl
  · intro position blanks first rest scanned _ hsolid ih
    obtain ⟨kind, hstarts⟩ := RunKind.exists_starts hsolid
    rw [← (Lexeme.isCut_of_starts rest hstarts).split, Position.advance_append, Position.advance_append]
    exact ih

end PlZero.Source

namespace PlZero.Editor

open PlZero.Text PlZero.Source

theorem isWordByte_iff {byte : UInt8} : isWordByte byte = true ↔
    0x61 ≤ byte.toNat ∧ byte.toNat ≤ 0x7A ∨ 0x41 ≤ byte.toNat ∧ byte.toNat ≤ 0x5A ∨
      0x30 ≤ byte.toNat ∧ byte.toNat ≤ 0x39 := by
  rw [isWordByte, Bool.or_eq_true, Bool.or_eq_true, or_assoc]
  exact or_congr and_decide_iff (or_congr and_decide_iff and_decide_iff)

theorem isWordPart_iff {value : Char} : isWordPart value = true ↔
    0x61 ≤ value.toNat ∧ value.toNat ≤ 0x7A ∨ 0x41 ≤ value.toNat ∧ value.toNat ≤ 0x5A ∨
      0x30 ≤ value.toNat ∧ value.toNat ≤ 0x39 := by
  rw [isWordPart, Bool.or_eq_true, isLetter_iff, isDigit_iff, or_assoc]

section Classes

variable {glyph : Glyph} (hproper : glyph.IsProper) {byte : UInt8} (hbyte : byte ∈ glyph.bytes)
include hproper hbyte

/-- The bytes of words are those of letters and digits. -/
theorem isWordByte_of_mem_bytes : isWordByte byte = glyph.satisfies isWordPart := by
  rw [Bool.eq_iff_iff, isWordByte_iff]
  constructor
  · intro hword
    rw [hproper.eq_of_mem_bytes (by omega) hbyte, Glyph.satisfies, isWordPart_iff,
      toNat_ofNat_of_scalar (by omega)]
    exact hword
  · intro hpart
    obtain ⟨value, rfl, hvalue⟩ := exists_of_satisfies hpart
    rw [isWordPart_iff] at hvalue
    rw [Glyph.bytes_ascii (by omega), List.mem_singleton] at hbyte
    rwa [hbyte, toNat_toUInt8 (by omega)]

/-- A byte of white space is that of a blank; there are blanks of other bytes. -/
theorem isBlank_of_mem_bytes (hspace : isSpaceByte byte = true) : glyph.isBlank = true := by
  rw [isSpaceByte, Bool.or_eq_true, beq_iff_eq, and_decide_iff] at hspace
  rw [hproper.eq_of_mem_bytes (by omega) hbyte, Glyph.isBlank, Glyph.satisfies, isBlank,
    toNat_ofNat_of_scalar (by omega)]
  simp only [Bool.or_eq_true, Bool.and_eq_true, decide_eq_true_eq, beq_iff_eq]
  omega

end Classes

/-- How many bytes stand before a cursor: the lines before its own, and what is before it in this. -/
def Cursor.offset (cursor : Cursor) (text : Bytes) : Nat :=
  extent ((text.splitOn lineFeed).take cursor.line.toNat) + cursor.character.toNat

/-- The bytes that a span covers, if it ends on the line where it starts. -/
def Span.cut? (span : Span) (text : Bytes) : Option Bytes :=
  if span.stop.line = span.start.line then
    (text.splitOn lineFeed)[span.start.line.toNat]?.map fun line =>
      (line.take span.stop.character.toNat).drop span.start.character.toNat
  else none

/-- The span lies within the bytes of one line of the text and covers the given bytes of it, and these
are the bytes of the text at the offset. -/
structure Span.Covers (span : Span) (text : Bytes) (offset : Nat) (covered : Bytes) : Prop where
  sameLine : span.stop.line = span.start.line
  within : ∃ before after, (text.splitOn lineFeed)[span.start.line.toNat]? =
      some (before ++ (covered ++ after)) ∧ span.start.character.toNat = before.length ∧
      span.stop.character.toNat = before.length + covered.length
  offset_start : span.start.offset text = offset
  bytes : (text.drop offset).take covered.length = covered

theorem Span.Covers.cut?_eq {span : Span} {text : Bytes} {offset : Nat} {covered : Bytes}
    (h : span.Covers text offset covered) : span.cut? text = some covered := by
  obtain ⟨before, after, hline, hstart, hstop⟩ := h.within
  rw [cut?, if_pos h.sameLine, hline, hstart, hstop, Option.map_some, ← List.append_assoc,
    List.take_left' (List.length_append ..), List.drop_left' rfl]

theorem toNat_fromZero {number : Nat} (h : number < 2 ^ 32) : (fromZero (number + 1)).toNat = number := by
  have hmax : (max ((number : Int) + 1 - 1) 0).toNat = number := by omega
  rw [fromZero, hmax]
  exact UInt32.toNat_ofNat_of_lt' h

section At

variable {before : Bytes} (hbefore : before.length < 2 ^ 32) (length : Int)
include hbefore

theorem toNat_line_at :
    (Span.at (.behind before) length).start.line.toNat = before.count lineFeed :=
  toNat_fromZero (List.count_le_length.trans_lt hbefore)

theorem toNat_character_at :
    (Span.at (.behind before) length).start.character.toNat = (lastLine before).length :=
  toNat_fromZero ((List.rtakeWhile_suffix _ before).length_le.trans_lt hbefore)

end At

/-- The span of bytes that stand on one line covers them. -/
theorem Span.covers_at {before covered after : Bytes}
    (hsize : (before ++ (covered ++ after)).length < 2 ^ 32) (hfree : lineFeed ∉ covered) :
    (Span.at (.behind before) covered.length).Covers (before ++ (covered ++ after)) before.length
      covered := by
  simp only [List.length_append] at hsize
  obtain ⟨earlier, later, hsplit, hearlier, hextent⟩ := splitOn_at before (covered ++ after)
  rw [firstLine_append hfree] at hsplit
  have hbefore : before.length < 2 ^ 32 := by omega
  have hcovered : covered.length < 2 ^ 32 := by omega
  have hline := toNat_line_at hbefore covered.length
  have hcharacter := toNat_character_at hbefore covered.length
  rw [← hearlier] at hline
  refine ⟨rfl, ⟨lastLine before, firstLine after, ?_, hcharacter, ?_⟩, ?_, ?_⟩
  · rw [hline, hsplit, List.getElem?_append_right (Nat.le_refl _), Nat.sub_self]
    rfl
  · have hlength : ((covered.length : Int) % 4294967296).toNat = covered.length := by omega
    have hstop : (Span.at (.behind before) covered.length).stop.character =
        (Span.at (.behind before) covered.length).start.character + covered.length.toUInt32 := by
      rw [Span.at, hlength]
    have htoNat : covered.length.toUInt32.toNat = covered.length := UInt32.toNat_ofNat_of_lt' hcovered
    rw [hstop, UInt32.toNat_add, hcharacter, htoNat, Nat.mod_eq_of_lt]
    omega
  · rw [Cursor.offset, hline, hcharacter, hsplit, List.take_left' rfl, hextent]
  · rw [List.drop_left' rfl, List.take_left' rfl]

end PlZero.Editor

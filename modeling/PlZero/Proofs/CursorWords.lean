import PlZero.Editor.WordSearch
import PlZero.Proofs.Navigation

/-! The word at a cursor. The two searches from the place of the cursor stop at the ends of the line or at the
first byte that is none of a letter or a digit, so no run of letters and digits that the cursor touches goes
beyond them. Main statement: the word is the longest such run and the stem is its part before the cursor,
and no byte outside the line is looked at to find them. -/

namespace PlZero.Editor

open PlZero.Text PlZero.Source

section Parts

variable {bytes : Bytes} {start index stop : Nat}

theorem mem_extract {byte : UInt8} : byte ∈ bytes.extract start stop ↔
    ∃ place, start ≤ place ∧ place < stop ∧ bytes[place]? = some byte := by
  rw [List.mem_iff_getElem?]
  constructor
  · rintro ⟨inside, hinside⟩
    rw [List.extract_eq_take_drop, List.getElem?_take, List.getElem?_drop] at hinside
    split at hinside
    · exact ⟨start + inside, by omega, by omega, hinside⟩
    · cases hinside
  · rintro ⟨place, hstart, hstop, hplace⟩
    refine ⟨place - start, ?_⟩
    rw [List.extract_eq_take_drop, List.getElem?_take, List.getElem?_drop, if_pos (by omega),
      Nat.add_sub_cancel' hstart, hplace]

theorem take_eq_append (h : start ≤ index) :
    bytes.take index = bytes.take start ++ bytes.extract start index := by
  rw [List.extract_eq_take_drop, ← List.take_add, Nat.add_sub_cancel' h]

theorem drop_eq_append (h : index ≤ stop) :
    bytes.drop index = bytes.extract index stop ++ bytes.drop stop := by
  rw [List.extract_eq_take_drop, ← Nat.add_sub_cancel' h, ← List.drop_drop, Nat.add_sub_cancel_left,
    List.take_append_drop]

theorem extract_append (hstart : start ≤ index) (hstop : index ≤ stop) :
    bytes.extract start index ++ bytes.extract index stop = bytes.extract start stop := by
  have hwhole : bytes.take stop = bytes.take start ++ bytes.extract start stop :=
    take_eq_append (hstart.trans hstop)
  rw [take_eq_append hstop, take_eq_append hstart, List.append_assoc] at hwhole
  exact List.append_cancel_left hwhole

theorem length_extract (h : stop ≤ bytes.length) : (bytes.extract start stop).length = stop - start := by
  rw [List.extract_eq_take_drop, List.length_take, List.length_drop]
  omega

end Parts

/-- The bytes from one index up to another are those of letters and digits. -/
def AreWord (bytes : Bytes) (start stop : Nat) : Prop :=
  ∀ byte ∈ bytes.extract start stop, isWordByte byte = true

/-- Letters and digits go back from an index to `start` and no further. -/
structure GoesBack (bytes : Bytes) (index start : Nat) : Prop where
  le : start ≤ index
  le_length : index ≤ bytes.length
  areWord : AreWord bytes start index
  free : ∀ before byte, before + 1 = start → bytes[before]? = some byte → isWordByte byte = false

/-- Letters and digits go on from an index up to `stop` and no further. -/
structure GoesOn (bytes : Bytes) (index stop : Nat) : Prop where
  le : index ≤ stop
  stop_le : stop ≤ bytes.length
  areWord : AreWord bytes index stop
  free : ∀ byte, bytes[stop]? = some byte → isWordByte byte = false

section Searches

variable {bytes : Bytes} {start index stop : Nat}

theorem areWord_self : AreWord bytes index index := by
  intro byte hbyte
  obtain ⟨place, hstart, hstop, -⟩ := mem_extract.mp hbyte
  omega

theorem AreWord.append (hfirst : AreWord bytes start index) (hsecond : AreWord bytes index stop) :
    AreWord bytes start stop := by
  intro byte hbyte
  obtain ⟨place, hstart, hstop, hplace⟩ := mem_extract.mp hbyte
  rcases Nat.lt_or_ge place index with hbefore | hbehind
  · exact hfirst byte (mem_extract.mpr ⟨place, hstart, hbefore, hplace⟩)
  · exact hsecond byte (mem_extract.mpr ⟨place, hbehind, hstop, hplace⟩)

theorem areWord_of_getElem? {byte : UInt8} (hbyte : bytes[index]? = some byte)
    (hword : isWordByte byte = true) : AreWord bytes index (index + 1) := by
  intro other hother
  obtain ⟨place, hstart, hstop, hplace⟩ := mem_extract.mp hother
  obtain rfl : place = index := by omega
  rwa [← Option.some.inj (hbyte.symm.trans hplace)]

theorem free_of_getElem? {byte other : UInt8} (hbyte : bytes[index]? = some byte)
    (hword : ¬isWordByte byte = true) (hother : bytes[index]? = some other) :
    isWordByte other = false := by
  rw [← Option.some.inj (hbyte.symm.trans hother)]
  exact Bool.eq_false_iff.mpr hword

/-- The search back has a result from every place in the line. -/
theorem exists_wordStart (h : index ≤ bytes.length) :
    ∃ start, wordStart? bytes index = some start ∧ GoesBack bytes index start := by
  induction index with
  | zero => exact ⟨0, rfl, Nat.le_refl 0, h, areWord_self, fun before byte hzero => by omega⟩
  | succ before ih =>
      have hbyte := List.getElem?_eq_getElem h
      rw [wordStart?, hbyte, Option.bind_eq_bind, Option.bind_some]
      by_cases hword : isWordByte bytes[before] = true
      · obtain ⟨start, hstart, hgoes⟩ := ih (Nat.le_of_lt h)
        refine ⟨start, (if_pos hword).trans hstart, hgoes.le.trans (Nat.le_succ _), h, ?_, hgoes.free⟩
        exact hgoes.areWord.append (areWord_of_getElem? hbyte hword)
      · refine ⟨before + 1, if_neg hword, Nat.le_refl _, h, areWord_self, ?_⟩
        intro place byte hplace hfree
        obtain rfl := Nat.succ.inj hplace
        exact free_of_getElem? hbyte hword hfree

/-- The search onward has a result from every place in the line. -/
theorem exists_wordStop (h : index ≤ bytes.length) :
    ∃ stop, wordStop? bytes index = some stop ∧ GoesOn bytes index stop := by
  induction hleft : bytes.length - index generalizing index with
  | zero =>
      have hend : bytes[index]? = none := List.getElem?_eq_none (by omega)
      rw [wordStop?, if_neg (by omega)]
      exact ⟨index, rfl, Nat.le_refl _, h, areWord_self, fun byte hbyte => by rw [hend] at hbyte; cases hbyte⟩
  | succ left ih =>
      have hindex : index < bytes.length := by omega
      have hbyte := List.getElem?_eq_getElem hindex
      rw [wordStop?, if_pos hindex, hbyte, Option.bind_eq_bind, Option.bind_some]
      by_cases hword : isWordByte bytes[index] = true
      · obtain ⟨stop, hstop, hgoes⟩ := ih hindex (by omega)
        refine ⟨stop, (if_pos hword).trans hstop, (Nat.le_succ _).trans hgoes.le, hgoes.stop_le, ?_,
          hgoes.free⟩
        exact (areWord_of_getElem? hbyte hword).append hgoes.areWord
      · exact ⟨index, if_neg hword, Nat.le_refl _, h, areWord_self,
          fun byte hfree => free_of_getElem? hbyte hword hfree⟩

/-- What the search back finds is the end of the line before it that is part of a word. -/
theorem GoesBack.wordEnd_take (h : GoesBack bytes index start) :
    Cursor.wordEnd (bytes.take index) = bytes.extract start index := by
  rw [take_eq_append h.le]
  refine wordEnd_append h.areWord fun byte hbyte => ?_
  cases start with
  | zero => cases hbyte
  | succ before =>
      have hinside : before < bytes.length := Nat.lt_of_lt_of_le h.le h.le_length
      rw [List.getLast?_take, if_neg (Nat.succ_ne_zero before), Nat.add_sub_cancel,
        List.getElem?_eq_getElem hinside, Option.some_or, ← List.getElem?_eq_getElem hinside] at hbyte
      exact h.free before byte rfl hbyte

theorem GoesOn.takeWhile_drop (h : GoesOn bytes index stop) :
    (bytes.drop index).takeWhile isWordByte = bytes.extract index stop := by
  rw [drop_eq_append h.le]
  refine takeWhile_word h.areWord fun byte hbyte => h.free byte ?_
  rwa [List.head?_drop] at hbyte

end Searches

/-- A byte of words is the code of a letter or digit of ASCII. -/
theorem isWordByte_eq_isAlphanum (byte : UInt8) :
    isWordByte byte = (Char.ofNat byte.toNat).isAlphanum := by
  have hbound := byte.toNat_lt
  have hcode : (Char.ofNat byte.toNat).toNat = byte.toNat := toNat_ofNat_of_scalar (by omega)
  rw [Bool.eq_iff_iff, isWordByte_iff]
  simp only [Char.isAlphanum, Char.isAlpha, Char.isUpper, Char.isLower, Char.isDigit,
    Bool.or_eq_true, Bool.and_eq_true, decide_eq_true_eq, UInt32.le_iff_toNat_le, Char.toNat_val, hcode,
    Char.reduceToNat]
  omega

/-- A run of letters and digits of ASCII in a line, from `start` up to `stop`, that contains a column or
touches it; it may be empty. -/
structure IsRunAt (bytes : Bytes) (column start stop : Nat) : Prop where
  start_le : start ≤ column
  le_stop : column ≤ stop
  stop_le : stop ≤ bytes.length
  alphanumeric : ∀ byte ∈ bytes.extract start stop, (Char.ofNat byte.toNat).isAlphanum = true

/-- No run at the column goes beyond it. -/
structure IsLongestAt (bytes : Bytes) (column start stop : Nat) : Prop extends
    IsRunAt bytes column start stop where
  longest : ∀ first last, IsRunAt bytes column first last → start ≤ first ∧ last ≤ stop

section Runs

variable {bytes : Bytes} {column start stop : Nat}

theorem IsRunAt.isWordByte (h : IsRunAt bytes column start stop) {index : Nat} {byte : UInt8}
    (hstart : start ≤ index) (hstop : index < stop) (hbyte : bytes[index]? = some byte) :
    isWordByte byte = true := by
  rw [isWordByte_eq_isAlphanum]
  exact h.alphanumeric byte (mem_extract.mpr ⟨index, hstart, hstop, hbyte⟩)

/-- Where the two searches stop, the longest run ends. -/
theorem isLongestAt_of_searches (hback : GoesBack bytes column start)
    (hon : GoesOn bytes column stop) : IsLongestAt bytes column start stop where
  start_le := hback.le
  le_stop := hon.le
  stop_le := hon.stop_le
  alphanumeric byte hbyte := by
    rw [← isWordByte_eq_isAlphanum]
    exact hback.areWord.append hon.areWord byte hbyte
  longest first last hrun := by
    have hlast := hrun.stop_le
    have hfirst := hrun.start_le
    have hcolumn := hrun.le_stop
    have hbefore := hback.le
    have hbehind := hon.le
    refine ⟨Nat.le_of_not_lt fun hearlier => ?_, Nat.le_of_not_lt fun hlater => ?_⟩
    · -- The byte before the start would belong to the other run.
      obtain ⟨before, rfl⟩ := Nat.exists_eq_succ_of_ne_zero (Nat.ne_zero_of_lt hearlier)
      have hbyte := List.getElem?_eq_getElem (l := bytes) (i := before) (by omega)
      have hword := hrun.isWordByte (Nat.le_of_lt_succ hearlier) (by omega) hbyte
      exact Bool.false_ne_true ((hback.free before _ rfl hbyte).symm.trans hword)
    · have hbyte := List.getElem?_eq_getElem (l := bytes) (i := stop) (by omega)
      have hword := hrun.isWordByte (by omega) hlater hbyte
      exact Bool.false_ne_true ((hon.free _ hbyte).symm.trans hword)

theorem IsLongestAt.empty_iff (h : IsLongestAt bytes column start stop) :
    bytes.extract start stop = [] ↔ ∀ first last, IsRunAt bytes column first last → first = last := by
  rw [← List.length_eq_zero_iff, length_extract h.stop_le]
  constructor
  · intro hempty first last hrun
    obtain ⟨hfirst, hlast⟩ := h.longest first last hrun
    have hle := hrun.start_le.trans hrun.le_stop
    omega
  · intro hnone
    rw [hnone start stop h.toIsRunAt, Nat.sub_self]

end Runs

/-! ### The word and the stem -/

namespace Cursor

variable {text line : Bytes} {cursor : Cursor} {start stop : Nat}

theorem column_le (cursor : Cursor) (line : Bytes) : cursor.column line ≤ line.length :=
  Nat.min_le_right _ _

theorem halves?_of_line (hline : (pieces text)[cursor.line.toNat]? = some line) :
    cursor.halves? text = some (line.take (cursor.column line), line.drop (cursor.column line)) := by
  rw [halves?, hline, Option.map_some, column]
  rcases Nat.le_total cursor.character.toNat line.length with hinside | hbehind
  · rw [Nat.min_eq_left hinside]
  · rw [Nat.min_eq_right hbehind, List.take_of_length_le hbehind, List.drop_eq_nil_of_le hbehind,
      List.take_length, List.drop_length]

theorem stem_of_goesBack (hline : (pieces text)[cursor.line.toNat]? = some line)
    (hback : GoesBack line (cursor.column line) start) :
    cursor.stem text = line.extract start (cursor.column line) := by
  rw [stem, halves?_of_line hline]
  exact hback.wordEnd_take

theorem word_of_searches (hline : (pieces text)[cursor.line.toNat]? = some line)
    (hback : GoesBack line (cursor.column line) start) (hon : GoesOn line (cursor.column line) stop) :
    cursor.word text = line.extract start stop := by
  rw [word, halves?_of_line hline]
  exact (congrArg₂ (· ++ ·) hback.wordEnd_take hon.takeWhile_drop).trans
    (extract_append hback.le hon.le)

theorem between?_eq (hstart : start ≤ stop) (hstop : stop ≤ line.length) :
    between? line start stop = some (line.extract start stop) :=
  if_pos (by simp [hstart, hstop])

theorem nil_of_no_line (hline : (pieces text)[cursor.line.toNat]? = none) :
    cursor.stem text = [] ∧ cursor.word text = [] ∧ cursor.stem? text = some [] ∧
      cursor.word? text = some [] := by
  have hhalves : cursor.halves? text = none := by rw [halves?, hline, Option.map_none]
  have houtside := List.getElem?_eq_none_iff.mp hline
  refine ⟨?_, ?_, if_pos houtside, if_pos houtside⟩
  · rw [stem, hhalves]
  · rw [word, hhalves]

/-- The searches find the word and the stem of the line, with all that they look at inside it. -/
theorem searches_of_line (hline : (pieces text)[cursor.line.toNat]? = some line) : ∃ start stop,
    GoesBack line (cursor.column line) start ∧ GoesOn line (cursor.column line) stop ∧
      cursor.stem? text = some (cursor.stem text) ∧ cursor.word? text = some (cursor.word text) := by
  obtain ⟨start, hstart, hback⟩ := exists_wordStart (cursor.column_le line)
  obtain ⟨stop, hstop, hon⟩ := exists_wordStop (cursor.column_le line)
  have hinside : ¬(pieces text).length ≤ cursor.line.toNat := by
    rw [← List.getElem?_eq_none_iff, hline]
    exact Option.some_ne_none _
  refine ⟨start, stop, hback, hon, ?_, ?_⟩
  · rw [stem?, if_neg hinside, hline, Option.bind_eq_bind, Option.bind_some, hstart,
      Option.bind_eq_bind, Option.bind_some, between?_eq hback.le (cursor.column_le line),
      stem_of_goesBack hline hback]
  · rw [word?, if_neg hinside, hline, Option.bind_eq_bind, Option.bind_some, hstart,
      Option.bind_eq_bind, Option.bind_some, hstop, Option.bind_some,
      between?_eq (hback.le.trans hon.le) hon.stop_le, word_of_searches hline hback hon]

/-- The word at a cursor is the longest run of letters and digits of its line that contains the cursor or
touches it, where a cursor behind the end counts as at the end; it is empty if there is none and if there is
no such line. The stem is the part of the run before the cursor, so the word starts with it. The searches,
which look at bytes by index, find both and never look outside the line. -/
theorem word_exact (text : Bytes) (cursor : Cursor) :
    ((text.splitOn lineFeed)[cursor.line.toNat]? = none →
      cursor.word text = [] ∧ cursor.stem text = []) ∧
    (∀ line, (text.splitOn lineFeed)[cursor.line.toNat]? = some line → ∃ start stop,
      IsLongestAt line (min cursor.character.toNat line.length) start stop ∧
      cursor.word text = line.extract start stop ∧
      cursor.stem text = line.extract start (min cursor.character.toNat line.length) ∧
      (cursor.word text = [] ↔ ∀ first last,
        IsRunAt line (min cursor.character.toNat line.length) first last → first = last)) ∧
    cursor.stem text <+: cursor.word text ∧
    cursor.word? text = some (cursor.word text) ∧ cursor.stem? text = some (cursor.stem text) := by
  rw [← pieces_eq_splitOn]
  cases hline : (pieces text)[cursor.line.toNat]? with
  | none =>
      obtain ⟨hstem, hword, hstem?, hword?⟩ := nil_of_no_line hline
      rw [hstem, hword]
      exact ⟨fun _ => ⟨rfl, rfl⟩, nofun, List.prefix_refl _, hword?, hstem?⟩
  | some line =>
      obtain ⟨start, stop, hback, hon, hstem?, hword?⟩ := searches_of_line hline
      have hlongest := isLongestAt_of_searches hback hon
      have hword := word_of_searches hline hback hon
      have hstem := stem_of_goesBack hline hback
      refine ⟨nofun, ?_, ?_, hword?, hstem?⟩
      · rintro _ ⟨⟩
        refine ⟨start, stop, hlongest, hword, hstem, ?_⟩
        rw [hword]
        exact hlongest.empty_iff
      · rw [hword, hstem, ← extract_append hback.le hon.le]
        exact List.prefix_append _ _

/-- A word between a character of two bytes and a sign, with the cursor inside it, and a line too many. -/
theorem word_exact_accented :
    ((encode "x\nébcd+1").splitOn lineFeed)[1]? = some (encode "ébcd+1") ∧
    ((encode "x\nébcd+1").splitOn lineFeed)[2]? = none ∧
    (∃ start stop, IsLongestAt (encode "ébcd+1") 4 start stop ∧
      (encode "ébcd+1").extract start stop = encode "bcd" ∧
      (encode "ébcd+1").extract start 4 = encode "bc") ∧
    word (encode "x\nébcd+1") ⟨2, 4⟩ = [] := by
  have hline : ((encode "x\nébcd+1").splitOn lineFeed)[1]? = some (encode "ébcd+1") := by decide
  have hmissing : ((encode "x\nébcd+1").splitOn lineFeed)[2]? = none := by decide
  have hword : word (encode "x\nébcd+1") ⟨1, 4⟩ = encode "bcd" := by decide
  have hstem : stem (encode "x\nébcd+1") ⟨1, 4⟩ = encode "bc" := by decide
  obtain ⟨start, stop, hlongest, hrun, hpart, -⟩ := (word_exact _ ⟨1, 4⟩).2.1 _ hline
  exact ⟨hline, hmissing, ⟨start, stop, hlongest, hrun.symm.trans hword, hpart.symm.trans hstem⟩,
    ((word_exact _ ⟨2, 4⟩).1 hmissing).1⟩

end Cursor

end PlZero.Editor

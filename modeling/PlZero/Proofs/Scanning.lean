import PlZero.Proofs.Runs

/-! Scanning loses nothing. Whatever the bytes of a text are, it is cut into runs of digits, words,
marks and stray glyphs with only blanks around them. Each run is as long as it can be, and each gives
one result, a token or a fault, that stands at its first byte. -/

namespace PlZero.Source

open PlZero.Text

@[simp]
theorem unread_append (first second : List Glyph) :
    unread (first ++ second) = unread first ++ unread second :=
  List.flatMap_append

theorem unread_cons (glyph : Glyph) (rest : List Glyph) :
    unread (glyph :: rest) = glyph.bytes ++ unread rest :=
  List.flatMap_cons

theorem Position.offset_after (position : Position) (glyph : Glyph) :
    (position.after glyph).offset = position.offset + glyph.width := by
  unfold Position.after
  split <;> rfl

theorem Position.offset_advance (position : Position) (run : List Glyph) :
    (position.advance run).offset = position.offset + (unread run).length := by
  induction run generalizing position with
  | nil => simp [advance, unread]
  | cons glyph rest ih =>
      have hstep : position.advance (glyph :: rest) = (position.after glyph).advance rest := rfl
      rw [hstep, ih, offset_after, unread_cons, List.length_append, Glyph.width_eq_length_bytes]
      omega

/-- Where a result stands. -/
def Scanned.position : Scanned → Position
  | .ok token => token.position
  | .error fault => fault.position

/-- What a result says, apart from where it stands. -/
def Scanned.content : Scanned → Except Cause TokenKind
  | .ok token => .ok token.kind
  | .error fault => .error fault.cause

namespace Lexeme

theorem position_place (lexeme : Lexeme) (position : Position) :
    Scanned.position (lexeme.place position) = position := by
  unfold place
  split <;> rfl

theorem content_place (lexeme : Lexeme) (position : Position) :
    Scanned.content (lexeme.place position) = lexeme.token := by
  unfold place
  split
  · rename_i htoken
    rw [htoken]
    rfl
  · rename_i htoken
    rw [htoken]
    rfl

end Lexeme

theorem scanFrom_blanks {blanks : List Glyph} (hblanks : ∀ glyph ∈ blanks, glyph.isBlank = true)
    (position : Position) (rest : List Glyph) (found : List Scanned) :
    scanFrom position (blanks ++ rest) found = scanFrom (position.advance blanks) rest found := by
  induction blanks generalizing position with
  | nil => rfl
  | cons glyph blanks ih =>
      rw [List.cons_append, scanFrom, if_pos (hblanks glyph List.mem_cons_self),
        ih fun other hother => hblanks other (List.mem_cons_of_mem _ hother)]
      rfl

theorem scanFrom_solid {first : Glyph} (hsolid : first.isBlank = false) (position : Position)
    (rest : List Glyph) (found : List Scanned) :
    scanFrom position (first :: rest) found =
      scanFrom (position.advance (Lexeme.read first rest).glyphs) (Lexeme.remainder first rest)
        ((Lexeme.read first rest).place position :: found) := by
  rw [scanFrom, if_neg (by rw [hsolid]; decide)]

/-- A run that spells a token is scanned as this token wherever it ends. -/
theorem scanFrom_run {kind : RunKind} {run rest : List Glyph} {token : TokenKind}
    (hrun : kind.IsRun run) (hdenotes : kind.Denotes run (.ok token)) (hends : kind.Ends rest)
    (position : Position) (found : List Scanned) :
    scanFrom position (run ++ rest) found =
      scanFrom (position.advance run) rest (.ok ⟨token, position⟩ :: found) := by
  cases run with
  | nil => exact hrun.elim
  | cons first others =>
      have hcut := Lexeme.isCut_of_starts (others ++ rest) hrun.1
      have hglyphs : (Lexeme.read first (others ++ rest)).glyphs = first :: others := by
        rw [hcut.glyphs, RunKind.takeWhile_of_ends hrun.2 hends]
      have hremainder : Lexeme.remainder first (others ++ rest) = rest := by
        rw [hcut.remainder, RunKind.dropWhile_of_ends hrun.2 hends]
      have htoken : (Lexeme.read first (others ++ rest)).token = .ok token :=
        hdenotes.unique (hglyphs ▸ hcut.denotes)
      rw [List.cons_append, scanFrom_solid (RunKind.isBlank_of_starts hrun.1), hglyphs, hremainder,
        Lexeme.place, htoken]

theorem scanFrom_found (position : Position) (text : List Glyph) (found : List Scanned) :
    scanFrom position text found =
      ⟨found.reverse ++ (scanFrom position text []).results, (scanFrom position text []).finish⟩ := by
  induction hlength : text.length using Nat.strong_induction_on generalizing position text found with
  | _ length ih =>
      cases text with
      | nil => simp [scanFrom]
      | cons first rest =>
          by_cases hblank : first.isBlank = true
          · rw [scanFrom, if_pos hblank, ih rest.length (by simp [← hlength]) _ rest _ rfl]
            conv_rhs => rw [scanFrom, if_pos hblank]
          · have hsolid := Bool.eq_false_iff.mpr hblank
            have hshorter : (Lexeme.remainder first rest).length < length := by
              have hle := Lexeme.length_remainder_le first rest
              rw [← hlength, List.length_cons]
              omega
            rw [scanFrom_solid hsolid, scanFrom_solid hsolid position rest [],
              ih _ hshorter _ (Lexeme.remainder first rest) _ rfl,
              ih _ hshorter _ (Lexeme.remainder first rest) [_] rfl]
            simp

/-- Scanning as an induction: a text is blank, or blanks stand in it before a lexeme and the text
behind this is scanned. -/
theorem scan_induction {motive : Position → List Glyph → Scan → Prop}
    (done : ∀ position text, (∀ glyph ∈ text, glyph.isBlank = true) →
      motive position text ⟨[], position.advance text⟩)
    (next : ∀ position blanks first rest scanned, (∀ glyph ∈ blanks, glyph.isBlank = true) →
      first.isBlank = false →
      motive ((position.advance blanks).advance (Lexeme.read first rest).glyphs)
        (Lexeme.remainder first rest) scanned →
      motive position (blanks ++ first :: rest)
        ⟨(Lexeme.read first rest).place (position.advance blanks) :: scanned.results, scanned.finish⟩)
    (position : Position) (text : List Glyph) : motive position text (scanFrom position text []) := by
  induction hlength : text.length using Nat.strong_induction_on generalizing position text with
  | _ length ih =>
      -- The text is cut behind its first blanks; the remainder of a lexeme is shorter than the text.
      have hsplit := List.takeWhile_append_dropWhile (p := Glyph.isBlank) (l := text)
      have hblanks : ∀ glyph ∈ text.takeWhile Glyph.isBlank, glyph.isBlank = true :=
        fun _ hglyph => List.mem_takeWhile_imp hglyph
      generalize text.takeWhile Glyph.isBlank = blanks at hsplit hblanks
      cases hdrop : text.dropWhile Glyph.isBlank with
      | nil =>
          rw [hdrop, List.append_nil] at hsplit
          subst hsplit
          have hscan := scanFrom_blanks hblanks position [] []
          rw [List.append_nil] at hscan
          rw [hscan, scanFrom]
          exact done position blanks hblanks
      | cons first rest =>
          have hsolid : first.isBlank = false := by
            have hhead := List.head?_dropWhile_not Glyph.isBlank text
            rw [hdrop] at hhead
            simpa using hhead
          rw [hdrop] at hsplit
          subst hsplit
          have hle := Lexeme.length_remainder_le first rest
          rw [List.length_append, List.length_cons] at hlength
          rw [scanFrom_blanks hblanks, scanFrom_solid hsolid, scanFrom_found]
          exact next _ _ _ _ _ hblanks hsolid (ih _ (by omega) _ _ rfl)

/-- How the results of scanning cut a text that starts at an offset: before each stand only blanks,
each stands at the start of a longest run and says what this run spells, and only blanks are left. -/
inductive Cut : Int → List Glyph → List Scanned → Prop where
  | done {offset : Int} {text : List Glyph} (hblank : ∀ glyph ∈ text, glyph.isBlank = true) :
      Cut offset text []
  | next {offset : Int} {blanks run rest : List Glyph} {kind : RunKind} {result : Scanned}
      {results : List Scanned} (hblanks : ∀ glyph ∈ blanks, glyph.isBlank = true)
      (hlongest : kind.IsLongest run (run ++ rest))
      (hoffset : result.position.offset = offset + (unread blanks).length)
      (hdenotes : kind.Denotes run result.content)
      (hrest : Cut (offset + (unread blanks).length + (unread run).length) rest results) :
      Cut offset (blanks ++ (run ++ rest)) (result :: results)

theorem cut_scanFrom (position : Position) (text : List Glyph) :
    Cut position.offset text (scanFrom position text []).results := by
  refine scan_induction
    (motive := fun position text scanned => Cut position.offset text scanned.results)
    ?_ ?_ position text
  · intro position text hblank
    exact .done hblank
  · intro position blanks first rest scanned hblanks hsolid ih
    obtain ⟨kind, hstarts⟩ := RunKind.exists_starts hsolid
    have hcut := Lexeme.isCut_of_starts rest hstarts
    rw [Position.offset_advance, Position.offset_advance] at ih
    have hlongest := RunKind.isLongest_takeWhile hcut.starts rest
    rw [← hcut.glyphs, ← hcut.split] at hlongest
    rw [← hcut.split]
    refine .next hblanks hlongest ?_ ?_ ih
    · rw [Lexeme.position_place, Position.offset_advance]
    · rw [Lexeme.content_place]
      exact hcut.denotes

theorem offset_finish_scanFrom (position : Position) (text : List Glyph) :
    (scanFrom position text []).finish.offset = position.offset + (unread text).length := by
  refine scan_induction
    (motive := fun position text scanned =>
      scanned.finish.offset = position.offset + (unread text).length)
    ?_ ?_ position text
  · intro position text _
    exact position.offset_advance text
  · intro position blanks first rest scanned _ hsolid ih
    obtain ⟨kind, hstarts⟩ := RunKind.exists_starts hsolid
    have hcut := Lexeme.isCut_of_starts rest hstarts
    rw [Position.offset_advance, Position.offset_advance] at ih
    rw [← hcut.split, unread_append, unread_append, List.length_append, List.length_append, ih]
    push_cast
    omega

namespace Cut

variable {offset : Int} {text : List Glyph} {results : List Scanned}

/-- Each result takes at least one byte. -/
theorem length_le (h : Cut offset text results) : results.length ≤ (unread text).length := by
  induction h with
  | done hblank => exact Nat.zero_le _
  | @next offset blanks run rest kind result results hblanks hlongest hoffset hdenotes hrest ih =>
      have hrun : 0 < (unread run).length := by
        cases run with
        | nil => exact hlongest.isRun.elim
        | cons first others =>
            have hwidth := first.width_pos
            rw [unread_cons, List.length_append, ← Glyph.width_eq_length_bytes]
            omega
      rw [unread_append, unread_append, List.length_append, List.length_append, List.length_cons]
      omega

theorem ne_endOfInput (h : Cut offset text results) :
    ∀ result ∈ results, Scanned.content result ≠ .ok .endOfInput := by
  induction h with
  | done hblank => exact List.forall_mem_nil _
  | next hblanks hlongest hoffset hdenotes hrest ih =>
      refine List.forall_mem_cons.mpr ⟨fun hcontent => ?_, ih⟩
      rw [hcontent] at hdenotes
      exact hdenotes.ne_endOfInput rfl

end Cut

/-! ### Results one by one -/

/-- A scanner at work: where it stands, and the text that is left. -/
structure Scanner where
  position : Position
  text : List Glyph

namespace Scanner

/-- A scanner at the start of a text. -/
def start (text : Bytes) : Scanner :=
  ⟨Position.start, glyphs text⟩

/-- The next result, and the scanner behind it. At the end of the text it is the end of input, and
the scanner stays there. -/
def next (scanner : Scanner) : Scanned × Scanner :=
  let position := scanner.position.advance (scanner.text.takeWhile Glyph.isBlank)
  match scanner.text.dropWhile Glyph.isBlank with
  | [] => (.ok ⟨.endOfInput, position⟩, ⟨position, []⟩)
  | first :: rest =>
    let lexeme := Lexeme.read first rest
    (lexeme.place position, ⟨position.advance lexeme.glyphs, Lexeme.remainder first rest⟩)

/-- The result with a number, counted from 0, whatever the results before it are. -/
def result (scanner : Scanner) : Nat → Scanned
  | 0 => scanner.next.1
  | count + 1 => scanner.next.2.result count

theorem next_blank {text : List Glyph} (hblank : ∀ glyph ∈ text, glyph.isBlank = true)
    (position : Position) : next ⟨position, text⟩ =
      (.ok ⟨.endOfInput, position.advance text⟩, ⟨position.advance text, []⟩) := by
  simp only [next, List.takeWhile_eq_self_iff.mpr hblank, List.dropWhile_eq_nil_iff.mpr hblank]

theorem next_solid {blanks : List Glyph} (hblanks : ∀ glyph ∈ blanks, glyph.isBlank = true)
    {first : Glyph} (hsolid : first.isBlank = false) (position : Position) (rest : List Glyph) :
    next ⟨position, blanks ++ first :: rest⟩ =
      ((Lexeme.read first rest).place (position.advance blanks),
        ⟨(position.advance blanks).advance (Lexeme.read first rest).glyphs,
          Lexeme.remainder first rest⟩) := by
  have hsolid : ¬first.isBlank = true := Bool.eq_false_iff.mp hsolid
  simp only [next, List.takeWhile_append_of_pos hblanks, List.dropWhile_append_of_pos hblanks,
    List.takeWhile_cons_of_neg hsolid, List.dropWhile_cons_of_neg hsolid, List.append_nil]

theorem result_nil (position : Position) (count : Nat) :
    result ⟨position, []⟩ count = .ok ⟨.endOfInput, position⟩ := by
  have hnext := next_blank (List.forall_mem_nil _) position
  induction count with
  | zero => rw [result, hnext]; rfl
  | succ count ih => rw [result, hnext]; exact ih

/-- One by one, the results are those of the scan, and then the end of input forever. -/
theorem result_eq (position : Position) (text : List Glyph) (count : Nat) :
    result ⟨position, text⟩ count =
      (scanFrom position text []).results[count]?.getD (.ok (scanFrom position text []).last) := by
  refine scan_induction
    (motive := fun position text scanned =>
      ∀ count, result ⟨position, text⟩ count = scanned.results[count]?.getD (.ok scanned.last))
    ?_ ?_ position text count
  · intro position text hblank count
    cases count with
    | zero => rw [result, next_blank hblank]; rfl
    | succ count => rw [result, next_blank hblank, result_nil]; rfl
  · intro position blanks first rest scanned hblanks hsolid ih count
    cases count with
    | zero => rw [result, next_solid hblanks hsolid]; rfl
    | succ count => rw [result, next_solid hblanks hsolid, ih]; rfl

end Scanner

/-- Scanning goes through any text without loss. The text is what its glyphs stand for. The results
cut it into longest runs with only blanks around them, so there are no more of them than bytes, and
none is the end of input. Asked one by one, the scanner gives these results and then the end of input
at the end of the text, however often it is asked. -/
theorem scan_lossless (text : Bytes) :
    unread (glyphs text) = text ∧ Cut 0 (glyphs text) (scan text).results ∧
      (scan text).results.length ≤ text.length ∧
      (∀ result ∈ (scan text).results, Scanned.content result ≠ .ok .endOfInput) ∧
      (scan text).finish.offset = text.length ∧
      ∀ count, (Scanner.start text).result count =
        (scan text).results[count]?.getD (.ok ⟨.endOfInput, (scan text).finish⟩) := by
  have hcut : Cut 0 (glyphs text) (scan text).results := cut_scanFrom Position.start (glyphs text)
  have hlength := hcut.length_le
  have hfinish := offset_finish_scanFrom Position.start (glyphs text)
  rw [unread_glyphs] at hlength hfinish
  refine ⟨unread_glyphs text, hcut, hlength, hcut.ne_endOfInput, ?_, ?_⟩
  · exact hfinish.trans (Int.zero_add _)
  · exact Scanner.result_eq Position.start (glyphs text)

end PlZero.Source

import PlZero.Proofs.ArtifactRuns
import PlZero.Proofs.ProgramText

/-! Artifacts that were decoded are encoded again. Whatever lenient form an artifact has, the program
in it is one that the same form gives back: a binary artifact holds no more instructions than the
reader takes, and a text holds no operand that it does not show. Main statement: the second artifact is
of the form of the first and is decoded as the same program. -/

namespace PlZero.Cbor

open PlZero.Text

/-- No array in the item is longer than the reader takes. -/
inductive Item.Bounded : Item → Prop where
  | integer (value : Int) : Bounded (.integer value)
  | bytes (content : Bytes) : Bounded (.bytes content)
  | text (chunks : List Bytes) : Bounded (.text chunks)
  | simple (number : Nat) : Bounded (.simple number)
  | float : Bounded .float
  | array {items : List Item} (hlength : items.length ≤ sizeLimit)
      (hitems : ∀ item ∈ items, Bounded item) : Bounded (.array items)
  | map {pairs : List (Item × Item)} (hvalues : ∀ pair ∈ pairs, Bounded pair.2) : Bounded (.map pairs)
  | tag {number : Nat} {content : Item} (hcontent : Bounded content) : Bounded (.tag number content)

/-- All that the reader reads is bounded. -/
def Reader.IsBounded (reader : Reader) : Prop :=
  ∀ bytes item rest, reader bytes = some (item, rest) → item.Bounded

theorem scalar?_bounded {head : Head} {bytes rest : Bytes} {item : Item}
    (h : scalar? head bytes = some (item, rest)) : item.Bounded := by
  unfold scalar? at h
  split at h
  · obtain ⟨rfl, -⟩ := Prod.mk.inj (Option.some.inj h)
    exact .integer _
  · obtain ⟨rfl, -⟩ := Prod.mk.inj (Option.some.inj h)
    exact .integer _
  · obtain ⟨found, -, hfound⟩ := Option.map_eq_some_iff.mp h
    obtain ⟨rfl, -⟩ := Prod.mk.inj hfound
    exact .bytes _
  · obtain ⟨found, -, hfound⟩ := Option.map_eq_some_iff.mp h
    obtain ⟨rfl, -⟩ := Prod.mk.inj hfound
    exact .text _
  · obtain ⟨found, hprimitive, hfound⟩ := Option.map_eq_some_iff.mp h
    obtain ⟨rfl, -⟩ := Prod.mk.inj hfound
    unfold primitive? at hprimitive
    split_ifs at hprimitive <;> cases hprimitive
    · exact .simple _
    · exact .simple _
    · exact .float
  · cases h

section Members

variable {reader : Reader} (hreader : reader.IsBounded) {bytes rest : Bytes} {items found : List Item}

include hreader

theorem times_bounded {count : Nat} (h : times reader count bytes found = some (items, rest))
    (hfound : ∀ item ∈ found, item.Bounded) :
    items.length = found.length + count ∧ ∀ item ∈ items, item.Bounded := by
  induction count generalizing bytes found with
  | zero =>
      obtain ⟨rfl, -⟩ := Prod.mk.inj (Option.some.inj h)
      simpa using hfound
  | succ count ih =>
      rw [times] at h
      split at h
      · rename_i item behind hitem
        have hmore := ih h (List.forall_mem_cons.mpr ⟨hreader _ _ _ hitem, hfound⟩)
        rw [List.length_cons] at hmore
        exact ⟨by omega, hmore.2⟩
      · cases h

theorem untilBreak_bounded {limit : Nat} (h : untilBreak reader limit bytes found = some (items, rest))
    (hfound : ∀ item ∈ found, item.Bounded) :
    items.length ≤ found.length + limit ∧ ∀ item ∈ items, item.Bounded := by
  induction limit generalizing bytes found with
  | zero =>
      unfold untilBreak at h
      split at h
      · cases h
      · split_ifs at h
        · obtain ⟨rfl, -⟩ := Prod.mk.inj (Option.some.inj h)
          simpa using hfound
  | succ limit ih =>
      unfold untilBreak at h
      split at h
      · cases h
      · split_ifs at h
        · obtain ⟨rfl, -⟩ := Prod.mk.inj (Option.some.inj h)
          refine ⟨?_, by simpa using hfound⟩
          rw [List.length_reverse]
          exact Nat.le_add_right _ _
        · dsimp only at h
          split at h
          · rename_i item behind hitem
            have hmore := ih h (List.forall_mem_cons.mpr ⟨hreader _ _ _ hitem, hfound⟩)
            rw [List.length_cons] at hmore
            exact ⟨by omega, hmore.2⟩
          · cases h

theorem members?_bounded {each : Nat} {argument : Argument}
    (h : members? reader each argument bytes = some (items, rest)) :
    items.length ≤ each * sizeLimit ∧ ∀ item ∈ items, item.Bounded := by
  cases argument with
  | value count =>
      rw [members?] at h
      split_ifs at h with hcount
      obtain ⟨hlength, hitems⟩ := times_bounded hreader h (List.forall_mem_nil _)
      refine ⟨?_, hitems⟩
      rw [hlength, List.length_nil, Nat.zero_add]
      exact Nat.mul_le_mul_left each (Nat.le_of_not_lt hcount)
  | openEnded =>
      have hmembers := untilBreak_bounded hreader h (List.forall_mem_nil _)
      rwa [List.length_nil, Nat.zero_add] at hmembers

end Members

theorem paired_bounded {items : List Item} {pairs : List (Item × Item)} (h : paired items = some pairs)
    (hitems : ∀ item ∈ items, item.Bounded) : ∀ pair ∈ pairs, pair.2.Bounded := by
  fun_induction paired items generalizing pairs with
  | case1 =>
      obtain rfl := Option.some.inj h
      exact List.forall_mem_nil _
  | case2 => cases h
  | case3 key value rest ih =>
      obtain ⟨others, hothers, rfl⟩ := Option.map_eq_some_iff.mp h
      obtain ⟨-, hitems⟩ := List.forall_mem_cons.mp hitems
      obtain ⟨hvalue, hrest⟩ := List.forall_mem_cons.mp hitems
      exact List.forall_mem_cons.mpr ⟨hvalue, ih hothers hrest⟩

theorem collection?_bounded {reader : Reader} (hreader : reader.IsBounded) {head : Head}
    {bytes rest : Bytes} {item : Item} (h : collection? reader head bytes = some (item, rest)) :
    item.Bounded := by
  rw [collection?] at h
  split_ifs at h
  · obtain ⟨⟨items, behind⟩, hmembers, hfound⟩ := Option.map_eq_some_iff.mp h
    obtain ⟨rfl, -⟩ := Prod.mk.inj hfound
    obtain ⟨hlength, hitems⟩ := members?_bounded hreader hmembers
    rw [Nat.one_mul] at hlength
    exact .array hlength hitems
  · obtain ⟨⟨items, behind⟩, hmembers, h⟩ := Option.bind_eq_some_iff.mp h
    obtain ⟨pairs, hpairs, h⟩ := Option.bind_eq_some_iff.mp h
    obtain ⟨rfl, -⟩ := Prod.mk.inj (Option.some.inj h)
    exact .map (paired_bounded hpairs (members?_bounded hreader hmembers).2)

theorem allowTag_bounded {reader : Reader} (hreader : reader.IsBounded) :
    Reader.IsBounded (allowTag reader) := by
  intro bytes item rest h
  rw [allowTag] at h
  split at h
  · obtain ⟨⟨content, behind⟩, hcontent, hfound⟩ := Option.map_eq_some_iff.mp h
    obtain ⟨rfl, -⟩ := Prod.mk.inj hfound
    exact .tag (hreader _ _ _ hcontent)
  · exact hreader _ _ _ h

/-- Reading keeps to the limit at every level of nesting. -/
theorem tightItem?_bounded (levels : Nat) : Reader.IsBounded (tightItem? levels) := by
  induction levels with
  | zero =>
      intro bytes item rest h
      rw [tightItem?] at h
      obtain ⟨⟨head, behind⟩, -, hscalar⟩ := Option.bind_eq_some_iff.mp h
      exact scalar?_bounded hscalar
  | succ levels ih =>
      intro bytes item rest h
      rw [tightItem?] at h
      obtain ⟨⟨head, behind⟩, -, h⟩ := Option.bind_eq_some_iff.mp h
      dsimp only at h
      split at h
      · exact collection?_bounded (allowTag_bounded ih) h
      · exact collection?_bounded (allowTag_bounded ih) h
      · obtain ⟨⟨content, after⟩, hcontent, hfound⟩ := Option.map_eq_some_iff.mp h
        obtain ⟨rfl, -⟩ := Prod.mk.inj hfound
        exact .tag (ih _ _ _ hcontent)
      · exact scalar?_bounded h

theorem read?_bounded {bytes : Bytes} {item : Item} (h : read? bytes = some item) : item.Bounded := by
  rw [read?] at h
  split at h
  · rename_i hitem
    obtain rfl := Option.some.inj h
    exact allowTag_bounded (tightItem?_bounded levelLimit) _ _ _ hitem
  · cases h

end PlZero.Cbor

namespace PlZero.Machine.Artifact

open PlZero.Text PlZero.Cbor PlZero.Attempt

/-! ### Programs in artifacts -/

theorem untag_bounded {item bare : Item} (hitem : item.Bounded) (h : untag item = some bare) :
    bare.Bounded := by
  fun_induction untag item with
  | case1 content ih | case2 content _ _ ih | case4 content _ _ ih | case10 _ content _ _ _ _ _ ih =>
      cases hitem with
      | tag hcontent => exact ih hcontent h
  | case3 | case5 | case7 | case9 => cases h
  | case6 | case8 =>
      obtain rfl := Option.some.inj h
      exact .integer _
  | case11 =>
      obtain rfl := Option.some.inj h
      exact hitem

theorem fieldsOf_bounded {pairs : List (Item × Item)} {fields : List (Option Int × Item)}
    (hpairs : ∀ pair ∈ pairs, pair.2.Bounded) (h : fieldsOf pairs = some fields) :
    ∀ entry ∈ fields, entry.2.Bounded := by
  rw [fieldsOf] at h
  induction pairs generalizing fields with
  | nil =>
      obtain rfl := Option.some.inj h
      exact List.forall_mem_nil _
  | cons pair rest ih =>
      rw [List.mapM_cons] at h
      obtain ⟨hpair, hrest⟩ := List.forall_mem_cons.mp hpairs
      obtain ⟨entry, hentry, h⟩ := Option.bind_eq_some_iff.mp h
      obtain ⟨others, hothers, h⟩ := Option.bind_eq_some_iff.mp h
      obtain rfl := Option.some.inj h
      obtain ⟨field, -, rfl⟩ := Option.map_eq_some_iff.mp hentry
      exact List.forall_mem_cons.mpr ⟨hpair, ih hrest hothers⟩

theorem length_of_mapM {α β : Type} {read : α → Option β} {items : List α} {found : List β}
    (h : items.mapM read = some found) : found.length = items.length := by
  induction items generalizing found with
  | nil =>
      obtain rfl := Option.some.inj h
      rfl
  | cons item rest ih =>
      rw [List.mapM_cons] at h
      obtain ⟨first, -, h⟩ := Option.bind_eq_some_iff.mp h
      obtain ⟨others, hothers, h⟩ := Option.bind_eq_some_iff.mp h
      obtain rfl := Option.some.inj h
      rw [List.length_cons, List.length_cons, ih hothers]

theorem length_codeOf_le {item : Item} {code : Code} (hitem : item.Bounded)
    (h : codeOf item = some code) : code.length ≤ sizeLimit := by
  rw [codeOf] at h
  obtain ⟨bare, hbare, h⟩ := Option.bind_eq_some_iff.mp h
  have hbounded := untag_bounded hitem hbare
  split_ifs at h
  · obtain rfl := Option.some.inj h
    exact Nat.zero_le _
  · cases hbounded with
    | array hlength hitems =>
        rw [length_of_mapM h]
        exact hlength
    | _ => cases h

theorem length_envelopeOf_le {item : Item} {version : Nat} {code : Code} (hitem : item.Bounded)
    (h : envelopeOf item = some (version, code)) : code.length ≤ sizeLimit := by
  rw [envelopeOf] at h
  obtain ⟨bare, hbare, h⟩ := Option.bind_eq_some_iff.mp h
  have hbounded := untag_bounded hitem hbare
  split_ifs at h
  · obtain ⟨-, rfl⟩ := Prod.mk.inj (Option.some.inj h)
    exact Nat.zero_le _
  · cases hbounded with
    | @map pairs hvalues =>
        obtain ⟨fields, hfields, h⟩ := Option.bind_eq_some_iff.mp h
        obtain ⟨number, -, h⟩ := Option.bind_eq_some_iff.mp h
        obtain ⟨found, hfound, h⟩ := Option.bind_eq_some_iff.mp h
        obtain ⟨-, rfl⟩ := Prod.mk.inj (Option.some.inj h)
        have hentries := fieldsOf_bounded hvalues hfields
        rw [fieldValue] at hfound
        split at hfound
        · rename_i value hlookup
          obtain ⟨before, after, hsplit, -⟩ := List.lookup_eq_some_iff.mp hlookup
          have hvalue : value.Bounded := hentries (some 2, value) (by rw [hsplit]; simp)
          exact length_codeOf_le hvalue hfound
        · obtain rfl := Option.some.inj hfound
          exact Nat.zero_le _
    | _ => cases h

/-- A binary artifact holds no more instructions than the binary form gives back. -/
theorem length_readBinary_le {bytes : Bytes} {code : Code} (h : readBinary bytes = .ok code) :
    code.length ≤ sizeLimit := by
  rw [readBinary] at h
  split_ifs at h
  split at h
  · cases h
  · rename_i version found henvelope
    split_ifs at h
    obtain rfl := Except.ok.inj h
    obtain ⟨item, hitem, henvelope⟩ := Option.bind_eq_some_iff.mp henvelope
    exact length_envelopeOf_le (read?_bounded hitem) henvelope

theorem exists_line {lines : List Bytes} {entries : List (Option Instruction)}
    (h : List.Forall₂ Assembly.Holds lines entries) {entry : Option Instruction}
    (hentry : entry ∈ entries) : ∃ line, Assembly.Holds line entry := by
  induction h with
  | nil => cases hentry
  | cons hholds _ ih =>
      obtain rfl | hrest := List.mem_cons.mp hentry
      · exact ⟨_, hholds⟩
      · exact ih hrest

/-- A text holds no operand that it does not show. -/
theorem isPlain_of_read {bytes : Bytes} {code : Code} (h : Assembly.read bytes = .ok code) :
    IsPlain code := by
  rw [Assembly.read_eq] at h
  obtain ⟨-, entries, hentries, rfl⟩ := Assembly.readFrom_eq_ok h
  intro instruction hinstruction
  rw [List.reverse_nil, List.nil_append, List.reduceOption_mem_iff] at hinstruction
  obtain ⟨line, hline⟩ := exists_line hentries hinstruction
  cases hline with
  | bare htakes hwords => exact Instruction.isPlain_of fun _ => rfl
  | operand htakes hnumeral hwords =>
      refine Instruction.isPlain_of fun hbare => ?_
      rw [Assembly.hasOperand_iff.mpr htakes] at hbare
      cases hbare

theorem isBinary_binary (code : Code) : isBinary (binary code) = true := by
  rw [binary_eq]
  rfl

/-- The format of the form that an artifact is taken for. -/
def formatOf (bytes : Bytes) : String :=
  if isBinary bytes then binaryFormat else textFormat

/-- The program of an artifact, encoded again in the form of the artifact, gives an artifact of this
form that is decoded as the program. The text form of any program is never taken for the binary one, and
the binary form always is. -/
theorem decode_stable :
    (∀ bytes code, decode bytes = .ok code →
      isBinary (encode (formatOf bytes) code) = isBinary bytes ∧
        decode (encode (formatOf bytes) code) = .ok code) ∧
    ∀ code, isBinary (encode textFormat code) = false ∧ isBinary (encode binaryFormat code) = true := by
  have htext (code : Code) : isBinary (encode textFormat code) = false := isBinary_render code
  have hbinary (code : Code) : isBinary (encode binaryFormat code) = true := isBinary_binary code
  refine ⟨fun bytes code h => ?_, fun code => ⟨htext code, hbinary code⟩⟩
  rw [decode] at h
  rw [formatOf]
  by_cases hform : isBinary bytes = true
  · rw [if_pos hform] at h ⊢
    refine ⟨(hbinary code).trans hform.symm, ?_⟩
    calc decode (encode binaryFormat code)
        = if code.length ≤ sizeLimit then .ok code else .error .malformed := decode_binary code
      _ = .ok code := if_pos (length_readBinary_le h)
  · rw [if_neg hform] at h ⊢
    refine ⟨(htext code).trans (Bool.eq_false_iff.mpr hform).symm, ?_⟩
    have hplain : IsPlain code := by
      cases hread : Assembly.read bytes with
      | error error =>
          rw [hread] at h
          cases h
      | ok found =>
          rw [hread] at h
          obtain rfl := Except.ok.inj h
          exact isPlain_of_read hread
    have hshort : ¬Exceeds textFormat code := fun hexceeds => absurd hexceeds.1 (by decide)
    rw [decode_encode hplain, if_neg hshort]

/-- A tag, collections without a length, a number in a longer form than it needs, a key given twice, a
key as text, and a null for an instruction. -/
def lenientBytes : Bytes :=
  magic ++ [0xD9, 0xD9, 0xF7, 0xBF, 0x01, 0x01, 0x02, 0x9F, 0xA3, 0x01, 0x18, 0x01, 0x01, 0x09, 0x02,
    0x3A, 0x7F, 0xFF, 0xFF, 0xFF, 0xBF, 0x61, 0x31, 0x04, 0xFF, 0xF6, 0xFF, 0xFF]

def lenientCode : Code :=
  [⟨1, -2147483648⟩, ⟨4, 0⟩, ⟨0, 0⟩]

theorem decode_stable_lenient : decode lenientBytes = .ok lenientCode ∧
    isBinary (encode (formatOf lenientBytes) lenientCode) = isBinary lenientBytes ∧
    encode (formatOf lenientBytes) lenientCode ≠ lenientBytes ∧
    decode (encode (formatOf lenientBytes) lenientCode) = .ok lenientCode := by
  have hdecode : decode lenientBytes = .ok lenientCode := by cbv
  have hstable := decode_stable.1 lenientBytes lenientCode hdecode
  exact ⟨hdecode, hstable.1, by decide, hstable.2⟩

end PlZero.Machine.Artifact

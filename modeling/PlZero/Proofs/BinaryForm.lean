import Mathlib
import PlZero.Machine.Artifact

/-! The binary form of a program is read back as the program. A head that was written is read with the
same argument, so each instruction is read as the map it was written as; only the size limit of the
reader stands between a program and its binary form. Main statement: a program up to that limit is read
back, a longer one is refused, and no two programs have one binary form. -/

namespace PlZero.Text.BigEndian

theorem length_bytes (width value : Nat) : (bytes width value).length = width := by
  induction width generalizing value with
  | zero => rfl
  | succ width ih => rw [bytes, List.length_append, ih, List.length_singleton]

theorem number_append (digits : Bytes) (last : UInt8) :
    number (digits ++ [last]) = 256 * number digits + last.toNat := by
  rw [number, List.foldl_append]
  rfl

theorem number_bytes (width value : Nat) : number (bytes width value) = value % 256 ^ width := by
  induction width generalizing value with
  | zero => rw [pow_zero, Nat.mod_one, bytes, number, List.foldl_nil]
  | succ width ih =>
      have hdigit : (value % 256).toUInt8.toNat = value % 256 :=
        UInt8.toNat_ofNat_of_lt (Nat.mod_lt _ (by decide))
      rw [bytes, number_append, ih, hdigit, pow_succ', Nat.mod_mul, add_comm]

end PlZero.Text.BigEndian

namespace PlZero.Cbor

open PlZero.Text

theorem take?_append (digits rest : Bytes) :
    take? digits.length (digits ++ rest) = some (digits, rest) := by
  rw [take?, List.take_left, List.drop_left, if_pos rfl]

theorem wideArgument_bytes (width value : Nat) (rest : Bytes) :
    wideArgument width (BigEndian.bytes width value ++ rest) =
      some (.value (value % 256 ^ width), rest) := by
  have htake := take?_append (BigEndian.bytes width value) rest
  rw [BigEndian.length_bytes] at htake
  rw [wideArgument, htake, ← BigEndian.number_bytes]
  rfl

theorem head?_cons {major info : Nat} (hmajor : major < 8) (hinfo : info < 32) (rest : Bytes) :
    head? ((32 * major + info).toUInt8 :: rest) =
      (argument? info rest).map fun found => (⟨major, info, found.1⟩, found.2) := by
  have hfirst : (32 * major + info).toUInt8.toNat = 32 * major + info :=
    UInt8.toNat_ofNat_of_lt (by rw [UInt8.size]; omega)
  have hlow : (32 * major + info) % 32 = info := by omega
  have hhigh : (32 * major + info) / 32 = major := by omega
  rw [head?, hfirst, hlow, hhigh]
  cases argument? info rest <;> rfl

/-- A head that was written is read with its argument, up to what eight bytes can hold. -/
theorem head?_headBytes {major : Nat} (hmajor : major < 8) (argument : Nat) (rest : Bytes) :
    ∃ info, head? (headBytes major argument ++ rest) =
      some (⟨major, info, .value (argument % 2 ^ 64)⟩, rest) := by
  have hwide (info width : Nat) (hinfo : info < 32) (hlimit : argument % 256 ^ width = argument % 2 ^ 64)
      (hargument : ∀ bytes, argument? info bytes = wideArgument width bytes) :
      head? ((32 * major + info).toUInt8 :: (BigEndian.bytes width argument ++ rest)) =
        some (⟨major, info, .value (argument % 2 ^ 64)⟩, rest) := by
    rw [head?_cons hmajor hinfo, hargument, wideArgument_bytes, hlimit]
    rfl
  rw [headBytes]
  by_cases h₁ : argument < 24
  · have hshort : argument? argument rest = some (.value argument, rest) := by
      unfold argument?
      exact if_pos h₁
    rw [if_pos h₁, List.singleton_append, head?_cons hmajor (by omega), hshort,
      Nat.mod_eq_of_lt (by omega : argument < 2 ^ 64)]
    exact ⟨argument, rfl⟩
  rw [if_neg h₁]
  by_cases h₂ : argument < 256
  · rw [if_pos h₂]
    exact ⟨24, hwide 24 1 (by omega) (by omega) fun _ => rfl⟩
  rw [if_neg h₂]
  by_cases h₃ : argument < 65536
  · rw [if_pos h₃]
    exact ⟨25, hwide 25 2 (by omega) (by omega) fun _ => rfl⟩
  rw [if_neg h₃]
  by_cases h₄ : argument < 4294967296
  · rw [if_pos h₄]
    exact ⟨26, hwide 26 4 (by omega) (by omega) fun _ => rfl⟩
  rw [if_neg h₄]
  exact ⟨27, hwide 27 8 (by omega) (by norm_num) fun _ => rfl⟩

theorem headBytes_ne_nil (major argument : Nat) : headBytes major argument ≠ [] := by
  rw [headBytes]
  split_ifs <;> exact List.cons_ne_nil _ _

/-- Reads an item that stands in a collection with the given number of levels left. -/
def member (levels : Nat) : Reader :=
  allowTag (tightItem? levels)

section Heads

variable {levels major info : Nat} {argument : Argument} {bytes rest : Bytes}
  (hhead : head? bytes = some (⟨major, info, argument⟩, rest))

include hhead

theorem member_of_head (hmajor : major ≠ 6) : member levels bytes = tightItem? levels bytes := by
  have htag : tag? bytes = none := by
    rw [tag?, hhead]
    split
    · rename_i heq
      cases heq
      exact absurd rfl hmajor
    · rfl
  rw [member, allowTag, htag]

theorem tightItem?_of_scalar (hmajor : major < 4) :
    tightItem? levels bytes = scalar? ⟨major, info, argument⟩ rest := by
  cases levels with
  | zero => simp only [tightItem?, hhead, Option.bind_eq_bind, Option.bind_some]
  | succ levels =>
      simp only [tightItem?, hhead, Option.bind_eq_bind, Option.bind_some]
      split <;> first | omega | rfl

theorem tightItem?_of_collection (hmajor : major = 4 ∨ major = 5) :
    tightItem? (levels + 1) bytes =
      collection? (member levels) ⟨major, info, argument⟩ rest := by
  simp only [tightItem?, hhead, Option.bind_eq_bind, Option.bind_some]
  rcases hmajor with rfl | rfl <;> rfl

end Heads

theorem member_integer (levels : Nat) {value : Int} (hleast : -2 ^ 64 ≤ value)
    (hgreatest : value < 2 ^ 64) (rest : Bytes) :
    member levels (integerBytes value ++ rest) = some (.integer value, rest) := by
  cases value with
  | ofNat value =>
      obtain ⟨info, hhead⟩ := head?_headBytes (by decide : 0 < 8) value rest
      rw [Nat.mod_eq_of_lt (Int.ofNat_lt.mp hgreatest)] at hhead
      rw [integerBytes, member_of_head hhead (by decide), tightItem?_of_scalar hhead (by decide)]
      rfl
  | negSucc value =>
      obtain ⟨info, hhead⟩ := head?_headBytes (by decide : 1 < 8) value rest
      rw [Nat.mod_eq_of_lt (by omega)] at hhead
      rw [integerBytes, member_of_head hhead (by decide), tightItem?_of_scalar hhead (by decide)]
      simp only [scalar?, Int.negSucc_eq, Option.some.injEq, Prod.mk.injEq, Item.integer.injEq,
        and_true]
      omega

theorem member_collection (levels : Nat) {major : Nat} (hmajor : major = 4 ∨ major = 5) (count : Nat)
    (rest : Bytes) : ∃ info, member (levels + 1) (headBytes major count ++ rest) =
      collection? (member levels) ⟨major, info, .value (count % 2 ^ 64)⟩ rest := by
  obtain ⟨info, hhead⟩ := head?_headBytes (by omega : major < 8) count rest
  refine ⟨info, ?_⟩
  rw [member_of_head hhead (by omega), tightItem?_of_collection hhead hmajor]

theorem times_of_read {reader : Reader} {count : Nat} {bytes rest : Bytes} {item : Item}
    (hread : reader bytes = some (item, rest)) (found : List Item) :
    times reader (count + 1) bytes found = times reader count rest (item :: found) := by
  rw [times, hread]

theorem member_natural (levels : Nat) {value : Nat} (hvalue : value < 2 ^ 64) (rest : Bytes) :
    member levels (headBytes 0 value ++ rest) = some (.integer value, rest) := by
  have hread := member_integer levels (by omega : -2 ^ 64 ≤ (value : Int)) (by omega) rest
  exact hread

theorem member_map (levels : Nat) {count : Nat} (hcount : count ≤ sizeLimit) (bytes : Bytes) :
    member (levels + 1) (headBytes 5 count ++ bytes) =
      (times (member levels) (2 * count) bytes []).bind fun found =>
        (paired found.1).map fun pairs => (.map pairs, found.2) := by
  obtain ⟨info, hmember⟩ := member_collection levels (.inr rfl) count bytes
  have hlimit : sizeLimit < 2 ^ 64 := by decide
  rw [hmember, Nat.mod_eq_of_lt (by omega), collection?, if_neg (by omega : ¬5 = 4), members?,
    if_neg (by omega)]
  cases times (member levels) (2 * count) bytes [] with
  | none => rfl
  | some found =>
      obtain ⟨items, rest⟩ := found
      simp only [Option.bind_eq_bind, Option.bind_some]
      cases paired items <;> rfl

theorem member_array (levels count : Nat) (bytes : Bytes) :
    member (levels + 1) (headBytes 4 count ++ bytes) =
      if sizeLimit < count % 2 ^ 64 then none
      else (times (member levels) (count % 2 ^ 64) bytes []).map fun found =>
        (.array found.1, found.2) := by
  obtain ⟨info, hmember⟩ := member_collection levels (.inl rfl) count bytes
  rw [hmember, collection?, if_pos rfl, members?, one_mul]
  split <;> rfl

end PlZero.Cbor

namespace PlZero.Machine.Artifact

open PlZero.Text PlZero.Cbor

/-! ### Programs -/

/-- The pairs in which an operand is written: none when it is zero. -/
def operandPairs (operand : Int32) : List (Item × Item) :=
  if operand = 0 then [] else [(.integer 2, .integer operand.toInt)]

/-- The item that an instruction is written as. -/
def instructionItem (instruction : Instruction) : Item :=
  .map ((.integer 1, .integer instruction.opcode.toNat) :: operandPairs instruction.operand)

/-- The item that a program is written as. -/
def programItem (code : Code) : Item :=
  .map [(.integer 1, .integer formatVersion), (.integer 2, .array (code.map instructionItem))]

theorem member_instruction (levels : Nat) (instruction : Instruction) (rest : Bytes) :
    member (levels + 1) (instructionBytes instruction ++ rest) =
      some (instructionItem instruction, rest) := by
  have hopcode : instruction.opcode.toNat < 2 ^ 64 :=
    instruction.opcode.toNat_lt.trans (by decide)
  have hleast := instruction.operand.le_toInt
  have hgreatest := instruction.operand.toInt_lt
  rw [instructionBytes, instructionItem, operandPairs]
  by_cases hzero : instruction.operand = 0
  · rw [if_pos hzero, if_pos hzero]
    simp only [List.append_assoc]
    rw [member_map levels (by decide), times_of_read (member_natural levels (by decide) _),
      times_of_read (member_natural levels hopcode _)]
    rfl
  · rw [if_neg hzero, if_neg hzero]
    simp only [List.append_assoc]
    rw [member_map levels (by decide), times_of_read (member_natural levels (by decide) _),
      times_of_read (member_natural levels hopcode _),
      times_of_read (member_natural levels (by decide) _),
      times_of_read (member_integer levels (by omega) (by omega) _)]
    rfl

/-- As many instructions are read as are asked for, and those behind them are left. -/
theorem times_member_code (levels : Nat) {count : Nat} {code : Code} (hcount : count ≤ code.length)
    (found : List Item) :
    times (member (levels + 1)) count (code.flatMap instructionBytes) found =
      some (found.reverse ++ (code.take count).map instructionItem,
        (code.drop count).flatMap instructionBytes) := by
  induction count generalizing code found with
  | zero => simp [times]
  | succ count ih =>
      cases code with
      | nil => simp at hcount
      | cons instruction rest =>
          rw [List.flatMap_cons, times_of_read (member_instruction levels instruction _),
            ih (by simpa using hcount)]
          simp

theorem instructionBytes_ne_nil (instruction : Instruction) :
    instructionBytes instruction ≠ [] := by
  rw [instructionBytes]
  split <;> simp [headBytes_ne_nil]

/-- What is behind the magic word. -/
def payload (code : Code) : Bytes :=
  headBytes 5 2 ++ (headBytes 0 1 ++ (headBytes 0 formatVersion ++ (headBytes 0 2
    ++ (headBytes 4 code.length ++ code.flatMap instructionBytes))))

theorem binary_eq (code : Code) : binary code = magic ++ payload code := by
  simp only [binary, payload, List.append_assoc]

/-- The array of the instructions is the last part of a program. -/
theorem item?_payload (code : Code) : item? (payload code) =
    (member 31 (headBytes 4 code.length ++ code.flatMap instructionBytes)).map fun found =>
      (.map [(.integer 1, .integer formatVersion), (.integer 2, found.1)], found.2) := by
  change member (31 + 1) _ = _
  rw [payload, member_map 31 (by decide), times_of_read (member_natural 31 (by decide) _),
    times_of_read (member_natural 31 (by decide) _), times_of_read (member_natural 31 (by decide) _),
    times]
  cases member 31 (headBytes 4 code.length ++ code.flatMap instructionBytes) <;> rfl

theorem read?_payload {code : Code} (hlength : code.length ≤ sizeLimit) :
    read? (payload code) = some (programItem code) := by
  have hlimit : sizeLimit < 2 ^ 64 := by decide
  have harray : member (30 + 1) (headBytes 4 code.length ++ code.flatMap instructionBytes) =
      some (.array (code.map instructionItem), []) := by
    rw [member_array, Nat.mod_eq_of_lt (by omega), if_neg (by omega),
      times_member_code 29 (Nat.le_refl _), List.take_length, List.drop_length]
    rfl
  rw [read?, item?_payload, harray]
  rfl

theorem read?_payload_of_long {code : Code} (hlength : sizeLimit < code.length) :
    read? (payload code) = none := by
  -- A length beyond eight bytes is written as a shorter one, and then instructions are left over.
  have hlimit : sizeLimit < 2 ^ 64 := by decide
  rw [read?, item?_payload, member_array 30]
  by_cases hcount : sizeLimit < code.length % 2 ^ 64
  · rw [if_pos hcount]
    rfl
  · have hless : code.length % 2 ^ 64 < code.length := by omega
    rw [if_neg hcount, times_member_code 29 (Nat.le_of_lt hless), List.drop_eq_getElem_cons hless,
      List.flatMap_cons]
    cases hbytes : instructionBytes code[code.length % 2 ^ 64] with
    | nil => exact absurd hbytes (instructionBytes_ne_nil _)
    | cons first rest => rfl

theorem integerIn_integer {least greatest value : Int} (hleast : least ≤ value)
    (hgreatest : value ≤ greatest) : integerIn least greatest (.integer value) = some value :=
  if_pos ⟨hleast, hgreatest⟩

/-- The fields that an instruction is read with. -/
def instructionFields (instruction : Instruction) : List (Option Int × Item) :=
  (some 1, .integer instruction.opcode.toNat) ::
    if instruction.operand = 0 then [] else [(some 2, .integer instruction.operand.toInt)]

theorem instructionOf_instructionItem (instruction : Instruction) :
    instructionOf (instructionItem instruction) = some instruction := by
  have hfields : fieldsOf ((.integer 1, .integer instruction.opcode.toNat) ::
      operandPairs instruction.operand) = some (instructionFields instruction) := by
    rw [operandPairs, instructionFields]
    split <;> rfl
  have hopcode : fieldValue (instructionFields instruction) 1 0 (integerIn 0 255) =
      some (instruction.opcode.toNat : Int) := by
    have hbyte := instruction.opcode.toNat_lt
    exact integerIn_integer (by omega) (by omega)
  have hoperand : fieldValue (instructionFields instruction) 2 0
      (integerIn (-2147483648) 2147483647) = some instruction.operand.toInt := by
    have hleast := instruction.operand.le_toInt
    have hgreatest := instruction.operand.toInt_lt
    rw [instructionFields]
    split
    · rename_i hzero
      rw [hzero]
      rfl
    · exact integerIn_integer (by omega) (by omega)
  have hitem : instructionOf (instructionItem instruction) =
      (fieldsOf ((.integer 1, .integer instruction.opcode.toNat) ::
        operandPairs instruction.operand)).bind fun fields =>
          (fieldValue fields 1 0 (integerIn 0 255)).bind fun opcode =>
            (fieldValue fields 2 0 (integerIn (-2147483648) 2147483647)).bind fun operand =>
              some ⟨opcode.toNat.toUInt8, Int32.ofInt operand⟩ := rfl
  rw [hitem, hfields, Option.bind_some, hopcode, Option.bind_some, hoperand, Option.bind_some,
    Int32.ofInt_toInt, Int.toNat_natCast]
  exact congrArg (fun opcode => some (Instruction.mk opcode _)) UInt8.ofNat_toNat

theorem codeOf_array (code : Code) : codeOf (.array (code.map instructionItem)) = some code := by
  change (code.map instructionItem).mapM instructionOf = some code
  have hid : instructionOf ∘ instructionItem = fun instruction => pure (id instruction) :=
    funext instructionOf_instructionItem
  rw [List.mapM_map, hid, List.mapM_pure, List.map_id]
  rfl

theorem envelopeOf_programItem (code : Code) :
    envelopeOf (programItem code) = some (formatVersion, code) := by
  have hitem : envelopeOf (programItem code) =
      (codeOf (.array (code.map instructionItem))).bind fun code => some (formatVersion, code) := rfl
  rw [hitem, codeOf_array, Option.bind_some]

/-- The binary form of a program is read back as the program, unless it is longer than the reader
takes. -/
theorem readBinary_binary (code : Code) :
    readBinary (binary code) =
      if code.length ≤ sizeLimit then .ok code else .error .malformed := by
  have hmagic : isBinary (magic ++ payload code) = true := rfl
  rw [readBinary, binary_eq, if_pos hmagic, List.drop_left]
  by_cases hlength : code.length ≤ sizeLimit
  · rw [if_pos hlength, read?_payload hlength, Option.bind_some, envelopeOf_programItem]
    rfl
  · rw [if_neg hlength, read?_payload_of_long (by omega)]
    rfl

theorem instructionBytes_append_inj {left right : Instruction} {first second : Bytes}
    (h : instructionBytes left ++ first = instructionBytes right ++ second) :
    left = right ∧ first = second := by
  have hread := member_instruction 0 left first
  rw [h, member_instruction] at hread
  obtain ⟨hitem, hrest⟩ := Prod.mk.inj (Option.some.inj hread)
  have hinstruction := instructionOf_instructionItem left
  rw [← hitem, instructionOf_instructionItem] at hinstruction
  exact ⟨(Option.some.inj hinstruction).symm, hrest.symm⟩

/-- Instructions one behind the other are told apart, however many there are. -/
theorem flatMap_instructionBytes_inj {code other : Code}
    (h : code.flatMap instructionBytes = other.flatMap instructionBytes) : code = other := by
  induction code generalizing other with
  | nil =>
      cases other with
      | nil => rfl
      | cons instruction rest =>
          have hnil := (List.append_eq_nil_iff.mp h.symm).1
          exact absurd hnil (instructionBytes_ne_nil instruction)
  | cons instruction rest ih =>
      cases other with
      | nil =>
          have hnil := (List.append_eq_nil_iff.mp h).1
          exact absurd hnil (instructionBytes_ne_nil instruction)
      | cons another others =>
          rw [List.flatMap_cons, List.flatMap_cons] at h
          obtain ⟨rfl, hrest⟩ := instructionBytes_append_inj h
          rw [ih hrest]

theorem binary_inj {code other : Code} (h : binary code = binary other) : code = other := by
  -- The lengths need not be compared: behind them the same instructions follow.
  rw [binary_eq, binary_eq] at h
  simp only [payload, List.append_cancel_left_eq] at h
  obtain ⟨info, hhead⟩ := head?_headBytes (by decide : 4 < 8) code.length (code.flatMap instructionBytes)
  obtain ⟨info', hhead'⟩ :=
    head?_headBytes (by decide : 4 < 8) other.length (other.flatMap instructionBytes)
  rw [h, hhead'] at hhead
  exact flatMap_instructionBytes_inj (Prod.mk.inj (Option.some.inj hhead)).2.symm

/-- The binary form of a program is read back as the program exactly when it has at most 131072
instructions, and programs of any length have the same binary form only if they are equal. -/
theorem binary_round_trip (code : Code) :
    readBinary (binary code) =
      (if code.length ≤ 131072 then .ok code else .error .malformed) ∧
    ∀ other, binary code = binary other ↔ code = other :=
  ⟨readBinary_binary code, fun _ => ⟨binary_inj, congrArg binary⟩⟩

end PlZero.Machine.Artifact

import PlZero.Proofs.CompilerCorrectness
import PlZero.Proofs.PairedRuns
import PlZero.Proofs.Spelling

/-! The zero that a variable without an initial value starts with is never seen. Such a cell is blank
until the first assignment to it is complete, and the rules on names keep every expression before that
from using the name. Main statement: whatever fills the blank cells, a compiled program prints the same
and ends the same; only a stack that runs over at a fill shows the fill. -/

namespace PlZero.Source

open PlZero.Text PlZero.Machine PlZero.Attempt

/-- The code of a variable, with a value in place of the zero if there is no initial value. -/
def Variable.codeFilling (slot values : String → Int32) (declared : Variable) : Code :=
  match declared.initial with
  | some value => value.code slot
  | none => [.of .literal (values declared.name)]

namespace Block

/-- The code of a block whose variables without initial values start with the values given. -/
def codeFilling (block : Block) (values : String → Int32) : Code :=
  block.constants.flatMap Constant.code ++ block.vars.flatMap (Variable.codeFilling block.slot values)
    ++ block.statements.flatMap (Statement.code block.slot)

theorem codeFilling_zero (block : Block) : block.codeFilling (fun _ => 0) = block.code := rfl

/-- The instruction at the address is that of a variable without an initial value, whose cell the value
fills. -/
def Fills (block : Block) (values : String → Int32) (address : Nat) (value : Int32) : Prop :=
  ∃ before declared after, block.vars = before ++ declared :: after ∧ declared.initial = none ∧
    address = block.constants.length + (before.flatMap (Variable.code block.slot)).length ∧
    value = values declared.name

theorem length_codes (slot values : String → Int32) (vars : List Variable) :
    (vars.flatMap (Variable.codeFilling slot values)).length =
      (vars.flatMap (Variable.code slot)).length := by
  have hlength : ∀ declared : Variable,
      (declared.codeFilling slot values).length = (declared.code slot).length := by
    intro declared
    rw [Variable.codeFilling, Variable.code]
    cases declared.initial <;> rfl
  simp only [List.length_flatMap, hlength]

theorem length_constants (block : Block) :
    (block.constants.flatMap Constant.code).length = block.constants.length := by
  simp [List.length_flatMap, Constant.code]

/-- The value stands at the address. -/
theorem Fills.getElem?_eq {block : Block} {values : String → Int32} {address : Nat} {value : Int32}
    (h : block.Fills values address value) :
    (block.codeFilling values)[address]? = some (.of .literal value) := by
  obtain ⟨before, declared, after, hvars, hinitial, rfl, rfl⟩ := h
  have hfill : declared.codeFilling block.slot values = [.of .literal (values declared.name)] := by
    rw [Variable.codeFilling, hinitial]
  have hsplit : block.codeFilling values = (block.constants.flatMap Constant.code ++
      before.flatMap (Variable.codeFilling block.slot values)) ++ .of .literal (values declared.name) ::
        (after.flatMap (Variable.codeFilling block.slot values) ++
          block.statements.flatMap (Statement.code block.slot)) := by
    simp [codeFilling, hvars, hfill]
  rw [hsplit, ← length_constants, ← length_codes block.slot values, ← List.length_append,
    List.getElem?_append_right le_rfl, Nat.sub_self, List.getElem?_cons_zero]

/-- Where a value fills a cell, the code has a zero. -/
theorem Fills.getElem?_code {block : Block} {values : String → Int32} {address : Nat} {value : Int32}
    (h : block.Fills values address value) : block.code[address]? = some (.of .literal 0) := by
  obtain ⟨before, declared, after, hvars, hinitial, haddress, -⟩ := h
  have hzero : block.Fills (fun _ => 0) address 0 :=
    ⟨before, declared, after, hvars, hinitial, haddress, rfl⟩
  rw [← codeFilling_zero]
  exact hzero.getElem?_eq

/-- The cell at the place is that of one of the variables, which has no initial value and which no
statement before assigned to. -/
def IsBlank (block : Block) (vars : List Variable) (before : List Statement) (place : Nat) : Prop :=
  ∃ declared ∈ vars, declared.initial = none ∧ (∀ value, .assign declared.name value ∉ before) ∧
    block.names.idxOf declared.name = place

variable {block : Block} {vars : List Variable} {before : List Statement}

theorem IsBlank.lt {names more : List String} (hnames : block.names = names ++ more)
    (hvars : ∀ declared ∈ vars, declared.name ∈ names) {place : Nat}
    (h : block.IsBlank vars before place) : place < names.length := by
  obtain ⟨declared, hdeclared, -, -, rfl⟩ := h
  rw [hnames, List.idxOf_append_of_mem (hvars declared hdeclared)]
  exact List.idxOf_lt_length_of_mem (hvars declared hdeclared)

theorem IsBlank.of_subset {more : List Variable} (hvars : vars ⊆ more) {place : Nat}
    (h : block.IsBlank vars before place) : block.IsBlank more before place := by
  obtain ⟨declared, hdeclared, hblank⟩ := h
  exact ⟨declared, hvars hdeclared, hblank⟩

/-- A cell stays blank behind a statement that does not assign to it. -/
theorem IsBlank.append {statement : Statement} {place : Nat} (h : block.IsBlank vars before place)
    (hstatement : ∀ target value, statement = .assign target value →
      block.names.idxOf target ≠ place) : block.IsBlank vars (before ++ [statement]) place := by
  obtain ⟨declared, hdeclared, hinitial, hassigned, hplace⟩ := h
  refine ⟨declared, hdeclared, hinitial, fun value hassign => ?_, hplace⟩
  rcases List.mem_append.mp hassign with hassign | hassign
  · exact hassigned value hassign
  · exact hstatement declared.name value (List.mem_singleton.mp hassign).symm hplace

theorem name_mem {declared : Variable} (h : declared ∈ block.vars) : declared.name ∈ block.names :=
  List.mem_append_right _ (List.mem_map_of_mem h)

/-- A name that may be used where it stands has no blank cell. -/
theorem not_isBlank (hnames : block.WellNamed) (hvars : vars ⊆ block.vars) {used : String}
    (hused : block.HasConstant used ∨ ∃ declared ∈ block.vars, declared.name = used ∧
      (declared.initial.isSome ∨ ∃ value, .assign used value ∈ before)) :
    ¬block.IsBlank vars before (block.names.idxOf used) := by
  rintro ⟨blank, hblank, hinitial, hassigned, hindex⟩
  -- The name of the blank cell is the one used, so it is declared twice or was given a value.
  obtain rfl := (List.idxOf_inj (name_mem (hvars hblank))).mp hindex
  obtain ⟨-, hdistinct, hdisjoint⟩ := List.nodup_append.mp hnames.distinct
  rcases hused with ⟨constant, hconstant, hname⟩ | ⟨declared, hdeclared, hname, hvalue⟩
  · exact hdisjoint _ (List.mem_map_of_mem hconstant) _ (List.mem_map_of_mem (hvars hblank)) hname
  · obtain rfl := List.inj_on_of_nodup_map hdistinct hdeclared (hvars hblank) hname
    rcases hvalue with hsome | ⟨value, hassign⟩
    · rw [hinitial] at hsome
      cases hsome
    · exact hassigned value hassign

end Block

/-- The code of an expression that uses no blank cell puts the same value on both stacks. -/
theorem Expression.together {fills : Nat → Int32 → Prop} {blank : Nat → Prop} {slot : String → Int32}
    (tree : Expression) {height : Nat} {left right : Progress} (h : Alike blank height left right)
    (hblank : ∀ place, blank place → place < height)
    (hnames : ∀ used ∈ tree.names, ¬blank (slot used).toInt.toNat) :
    Together fills (Alike blank (height + 1)) (left.advance (tree.code slot))
      (right.advance (tree.code slot)) := by
  induction tree generalizing height left right with
  | literal value =>
      rw [code, Progress.advance_singleton, Progress.advance_singleton]
      exact h.step_push (step_literal _ _) (step_literal _ _)
  | name used =>
      rw [code, Progress.advance_singleton, Progress.advance_singleton]
      exact h.step_load (hnames used List.mem_cons_self)
  | signed sign operand ih =>
      rw [code, Progress.advance_append, Progress.advance_append]
      refine (ih h hblank hnames).bind fun left right hmiddle => ?_
      rw [Progress.advance_cons, Progress.advance_cons]
      refine (hmiddle.step_push (step_literal _ _) (step_literal _ _)).bind fun left right hafter => ?_
      rw [Progress.advance_singleton, Progress.advance_singleton]
      exact hafter.step_arithmetic hblank rfl
  | binary operator first second ihfirst ihsecond =>
      rw [code, Progress.advance_append, Progress.advance_append]
      have hfirst := ihfirst h hblank fun used hused => hnames used (List.mem_append_left _ hused)
      refine hfirst.bind fun left right hmiddle => ?_
      rw [Progress.advance_append, Progress.advance_append]
      have hsecond := ihsecond hmiddle (fun place hplace => Nat.lt_succ_of_lt (hblank place hplace))
        fun used hused => hnames used (List.mem_append_right _ hused)
      refine hsecond.bind fun left right hafter => ?_
      rw [Progress.advance_singleton, Progress.advance_singleton]
      exact hafter.step_arithmetic hblank operator.isArithmetic_operation

namespace Block

variable {block : Block} {fills : Nat → Int32 → Prop}

/-- A stack within its capacity is far lower than the least place that is no slot. -/
theorem toInt_slot {names more : List String} (hnames : block.names = names ++ more)
    (hbound : names.length ≤ capacity) {used : String} (hused : used ∈ names) :
    (block.slot used).toInt = block.names.idxOf used := by
  have hindex := List.idxOf_lt_length_of_mem hused
  rw [capacity] at hbound
  rw [slot, hnames, List.idxOf_append_of_mem hused]
  exact Int32.toInt_ofNat_of_lt (by omega)

theorem together_constants {left right : Progress} (h : Alike (fun _ => False) 0 left right) :
    Together fills (Alike (fun _ => False) block.constants.length)
      (left.advance (block.constants.flatMap Constant.code))
      (right.advance (block.constants.flatMap Constant.code)) := by
  refine Together.items (fun before => Alike (fun _ => False) before.length) block.constants ?_ h
  intro before constant after hconstants left right _ h
  rw [List.length_append, Constant.code, Progress.advance_singleton, Progress.advance_singleton]
  exact h.step_push (step_literal _ _) (step_literal _ _)

section Declaration

variable (hnames : block.WellNamed) {before after : List Variable} {declared : Variable}
  (hvars : block.vars = before ++ declared :: after) {left right : Progress}
  (h : Alike (block.IsBlank before []) (block.constants.length + before.length) left right)

include hnames hvars h

/-- The cell of a variable without an initial value is blank from its declaration on. -/
theorem together_bare (hinitial : declared.initial = none) (values : String → Int32)
    (hnext : left.next =
      block.constants.length + (before.flatMap (Variable.code block.slot)).length) :
    Together (block.Fills values)
      (Alike (block.IsBlank (before ++ [declared]) []) (block.constants.length + before.length + 1))
      (left.step (.of .literal 0)) (right.step (.of .literal (values declared.name))) := by
  have hsplit := names_eq_of_vars hvars
  have hnew := notMem_of_nodup hsplit hnames.distinct
  have hindex : block.names.idxOf declared.name = block.constants.length + before.length := by
    rw [hsplit, List.idxOf_append_of_notMem hnew, List.idxOf_cons_self, List.length_append,
      List.length_map, List.length_map, Nat.add_zero]
  refine h.step_fill ⟨before, declared, after, hvars, hinitial, hnext, rfl⟩ fun place hplace => ⟨?_, ?_⟩
  · exact fun hblank => hplace (hblank.of_subset (List.subset_append_left _ _))
  · rintro rfl
    exact hplace ⟨declared, List.mem_append_right _ List.mem_cons_self, hinitial, nofun, hindex⟩

/-- An initial value uses no blank cell, and its own cell is none. -/
theorem together_initialized {tree : Expression} (hinitial : declared.initial = some tree) :
    Together fills
      (Alike (block.IsBlank (before ++ [declared]) []) (block.constants.length + before.length + 1))
      (left.advance (tree.code block.slot)) (right.advance (tree.code block.slot)) := by
  have hsplit := names_eq_of_vars hvars
  have hprefix : (block.constants.map Constant.name ++ before.map Variable.name).length =
      block.constants.length + before.length := by
    rw [List.length_append, List.length_map, List.length_map]
  have hbound : (block.constants.map Constant.name ++ before.map Variable.name).length ≤ capacity :=
    hprefix ▸ h.bound
  have hblank : ∀ place, block.IsBlank before [] place →
      place < block.constants.length + before.length :=
    fun place hplace => hprefix ▸ hplace.lt hsplit fun earlier hearlier =>
      List.mem_append_right _ (List.mem_map_of_mem hearlier)
  have hsubset : before ⊆ block.vars := by
    rw [hvars]
    exact List.subset_append_left _ _
  have hused : ∀ used ∈ tree.names, ¬block.IsBlank before [] (block.slot used).toInt.toNat := by
    intro used hused
    rw [toInt_slot hsplit hbound (hnames.mem_of_initializer hvars hinitial used hused),
      Int.toNat_natCast]
    refine not_isBlank hnames hsubset ?_
    refine (hnames.initializers before declared after tree hvars hinitial used hused).imp_right ?_
    rintro ⟨earlier, hearlier, hname, hsome⟩
    exact ⟨earlier, hsubset hearlier, hname, .inl hsome⟩
  exact (tree.together h hblank hused).mono fun left right hafter =>
    hafter.mono fun place hplace => hplace.of_subset (List.subset_append_left _ _)

end Declaration

theorem together_vars (hnames : block.WellNamed) (values : String → Int32) {left right : Progress}
    (hstart : left.next = block.constants.length)
    (h : Alike (fun _ => False) block.constants.length left right) :
    Together (block.Fills values) (Alike (block.IsBlank block.vars []) block.names.length)
      (left.advance (block.vars.flatMap (Variable.code block.slot)))
      (right.advance (block.vars.flatMap (Variable.codeFilling block.slot values))) := by
  have hlength : block.names.length = block.constants.length + block.vars.length := by
    rw [names, List.length_append, List.length_map, List.length_map]
  rw [hlength]
  refine Together.items
    (fun before => Alike (block.IsBlank before []) (block.constants.length + before.length))
    block.vars ?_ (h.mono fun _ hfalse => hfalse.elim)
  intro before declared after hvars left right hreached h
  rw [List.length_append, List.length_singleton, ← Nat.add_assoc, Variable.code,
    Variable.codeFilling]
  cases hinitial : declared.initial with
  | none =>
      rw [Progress.advance_singleton, Progress.advance_singleton]
      refine together_bare hnames hvars h hinitial values ?_
      rw [Progress.next_of_advance hreached, hstart]
  | some tree => exact together_initialized hnames hvars h hinitial

theorem together_statements (hnames : block.WellNamed) {left right : Progress}
    (h : Alike (block.IsBlank block.vars []) block.names.length left right) :
    Together fills (Alike (block.IsBlank block.vars block.statements) block.names.length)
      (left.advance (block.statements.flatMap (Statement.code block.slot)))
      (right.advance (block.statements.flatMap (Statement.code block.slot))) := by
  refine Together.items
    (fun before => Alike (block.IsBlank block.vars before) block.names.length) block.statements ?_ h
  intro before statement after hstatements left right _ h
  have hwhole : block.names = block.names ++ [] := (List.append_nil _).symm
  have hblank : ∀ place, block.IsBlank block.vars before place → place < block.names.length :=
    fun place hplace => hplace.lt hwhole fun declared hdeclared => name_mem hdeclared
  have htop : ¬block.IsBlank block.vars before block.names.length :=
    fun hplace => Nat.lt_irrefl _ (hblank _ hplace)
  have hused : ∀ used ∈ statement.names,
      ¬block.IsBlank block.vars before (block.slot used).toInt.toNat := by
    intro used hused
    rw [toInt_slot hwhole h.bound (hnames.mem_of_statement hstatements used hused), Int.toNat_natCast]
    exact not_isBlank hnames (List.Subset.refl _)
      (hnames.uses before statement after hstatements used hused)
  cases statement with
  | assign target tree =>
      have htarget := hnames.mem_of_target hstatements
      rw [Statement.code, Progress.advance_append, Progress.advance_append]
      refine (tree.together h hblank hused).bind fun left right hmiddle => ?_
      rw [Progress.advance_singleton, Progress.advance_singleton]
      refine hmiddle.step_store htop (toInt_slot hwhole h.bound htarget)
        (List.idxOf_lt_length_of_mem htarget) ?_
      -- Only the cell of the target is blank no longer.
      intro place hplace hother hblank
      refine hplace (hblank.append ?_)
      rintro _ _ ⟨⟩
      exact Ne.symm hother
  | print tree =>
      rw [Statement.code, Progress.advance_append, Progress.advance_append]
      refine (tree.together h hblank hused).bind fun left right hmiddle => ?_
      rw [Progress.advance_singleton, Progress.advance_singleton]
      exact (hmiddle.step_write htop).mono fun left right hafter =>
        hafter.mono fun place hplace => hplace.append (by rintro _ _ ⟨⟩)
  | empty => exact .reached (h.mono fun place hplace => hplace.append (by rintro _ _ ⟨⟩))

theorem together (hnames : block.WellNamed) (values : String → Int32) (sink : Sink) :
    Together (block.Fills values) (Alike (block.IsBlank block.vars block.statements) block.names.length)
      (Progress.advance { sink := sink } block.code)
      (Progress.advance { sink := sink } (block.codeFilling values)) := by
  have hstart : Alike (fun _ => False) 0 { sink := sink } { sink := sink } :=
    ⟨⟨rfl, rfl, fun _ _ => rfl⟩, Nat.zero_le _, rfl, rfl, rfl⟩
  rw [code, codeFilling, List.append_assoc, List.append_assoc, Progress.advance_append,
    Progress.advance_append]
  refine (together_constants hstart).arriving.bind fun left right harrived => ?_
  obtain ⟨hreached, h⟩ := harrived
  have hnext : left.next = block.constants.length := by
    rw [Progress.next_of_advance hreached, length_constants, Nat.zero_add]
  rw [Progress.advance_append, Progress.advance_append]
  exact (together_vars hnames values hnext h).bind fun left right h => together_statements hnames h

end Block

/-- A text that compiles has one syntax tree, and the code is that of the tree with zeros for fills.
With any other fills, from any state of a machine and on any sink, a run shows the same, but for the
literal at which the stack may run over: it is one of the fills, and there each program shows its own. -/
theorem fill_unobservable {text : Bytes} {code : Code} (h : compile text = .ok code) :
    ∃ tree, (∀ other, IsTreeOf text other ↔ other = tree) ∧ code = tree.codeFilling (fun _ => 0) ∧
      ∀ values : String → Int32,
        (∀ address value, tree.Fills values address value →
          code[address]? = some (.of .literal 0) ∧
            (tree.codeFilling values)[address]? = some (.of .literal value)) ∧
        ∀ prior : Processor, SameConduct (tree.Fills values) (prior.execute code)
          (prior.execute (tree.codeFilling values)) := by
  obtain ⟨tree, htree, hnames, rfl⟩ := compile_sound h
  refine ⟨tree, fun other => ⟨fun hother => hother.unique htree, fun hother => hother ▸ htree⟩,
    tree.codeFilling_zero.symm, fun values => ⟨?_, fun prior => ?_⟩⟩
  · exact fun address value hfill => ⟨hfill.getElem?_code, hfill.getElem?_eq⟩
  · rw [execute_eq_outcome_advance, execute_eq_outcome_advance]
    exact (Block.together hnames values prior.sink).outcome

/-- A text with two fills: one is assigned to before it is used, the other is never used. -/
def fillingText : Bytes :=
  "begin var a; var b=2; var c; a=b*b; a=a-b; print(a); print(b/(a-2)); end".toUTF8.toList

def fillingCode : Code :=
  [.of .literal 0, .of .literal 2, .of .literal 0, .of .load 1, .of .load 1, .of .multiply,
    .of .store 0, .of .load 0, .of .load 1, .of .subtract, .of .store 0, .of .load 0, .of .write,
    .of .load 1, .of .load 0, .of .literal 2, .of .subtract, .of .divide, .of .write]

theorem fill_unobservable_dividing : compile fillingText = .ok fillingCode ∧
    ∃ tree, (∀ other, IsTreeOf fillingText other ↔ other = tree) ∧
      SameConduct (tree.Fills fun _ => 7) (usedProcessor.execute fillingCode)
        (usedProcessor.execute (tree.codeFilling fun _ => 7)) := by
  have hcompile : compile fillingText = .ok fillingCode := by cbv
  obtain ⟨tree, htree, -, hsame⟩ := fill_unobservable hcompile
  exact ⟨hcompile, tree, htree, (hsame fun _ => 7).2 usedProcessor⟩

/-! ### A fill that is shown -/

/-- The name with a number. -/
def numbered (number : Nat) : List Char :=
  'x' :: decimalDigits number

theorem numbered_injective : Function.Injective fun number => String.ofList (numbered number) := by
  intro number other hname
  have hdigits := List.cons.inj (String.ofList_injective hname)
  rw [← digitsValue_decimalDigits number, hdigits.2, digitsValue_decimalDigits]

theorem ofWord_numbered (number : Nat) : TokenKind.ofWord (String.ofList (numbered number)) =
    .identifier (String.ofList (numbered number)) := by
  have hother : ∀ entry ∈ TokenKind.reserved, entry.1.toList.head? ≠ some 'x' := by decide
  have hlookup : TokenKind.reserved.lookup (String.ofList (numbered number)) = none := by
    rw [List.lookup_eq_none_iff]
    intro entry hentry
    rw [bne_iff_ne]
    intro hname
    refine hother entry hentry ?_
    rw [← hname, String.toList_ofList]
    rfl
  rw [TokenKind.ofWord, hlookup, Option.getD_none]

/-- As many variables as asked for, without initial values. -/
def crowded (count : Nat) : Block :=
  ⟨[], (List.range count).map fun number => ⟨String.ofList (numbered number), none⟩, []⟩

/-- The text of these declarations. -/
def crowdedText (count : Nat) : Bytes :=
  encodeChars (Spelling.enclose [] ((List.range count).flatMap fun number =>
    [(['v', 'a', 'r'], .varWord), (numbered number, .identifier (String.ofList (numbered number))),
      ([';'], .semicolon)]) []).text

theorem isTreeOf_crowded (count : Nat) : IsTreeOf (crowdedText count) (crowded count) := by
  refine Spelling.isTreeOf_text (.enclose Spelling.isValid_nil ?_ Spelling.isValid_nil)
    (Spelling.blockPhrase_enclose .nil ?_ .nil)
  · refine Spelling.isValid_flatMap fun number _ => ?_
    have hword : Spells (numbered number) (.identifier (String.ofList (numbered number))) := by
      rw [← ofWord_numbered]
      refine .word rfl (List.all_eq_true.mpr fun digit hdigit => ?_)
      rw [isWordPart, isDigit_of_mem_decimalDigits hdigit, Bool.or_true]
    simp only [Spelling.IsValid, List.forall_mem_cons, List.not_mem_nil, false_imp_iff, implies_true,
      and_true]
    exact ⟨.word rfl rfl, hword, .mark rfl⟩
  · exact Spelling.sequence_flatMap fun number _ => .bare (String.ofList (numbered number))

theorem wellNamed_crowded (count : Nat) : (crowded count).WellNamed := by
  have hinitial : ∀ declared ∈ (crowded count).vars, declared.initial = none := by
    intro declared hdeclared
    obtain ⟨number, -, rfl⟩ := List.mem_map.mp hdeclared
    rfl
  refine ⟨?_, ?_, nofun, ?_⟩
  · have hnames : (crowded count).names =
        (List.range count).map fun number => String.ofList (numbered number) := by
      rw [Block.names, crowded, List.map_nil, List.nil_append, List.map_map]
      rfl
    rw [hnames]
    exact List.nodup_range.map numbered_injective
  · intro before declared after value hvars hvalue
    rw [hinitial declared (hvars ▸ List.mem_append_right _ List.mem_cons_self)] at hvalue
    cases hvalue
  · intro before statement after hstatements
    cases before <;> cases hstatements

theorem codeFilling_crowded (count : Nat) (value : Int32) :
    (crowded count).codeFilling (fun _ => value) = List.replicate count (.of .literal value) := by
  have hvars : (crowded count).vars.flatMap (Variable.codeFilling (crowded count).slot fun _ => value) =
      (List.range count).flatMap fun _ => [.of .literal value] :=
    List.flatMap_map _ _ _
  rw [Block.codeFilling, hvars]
  simp [crowded, List.flatMap_def]

/-- Literals are put on the stack while there is room. -/
theorem advance_literals (value : Int32) (count : Nat) {progress : Progress}
    (h : progress.stack.size + count ≤ capacity) :
    ∃ after, progress.advance (List.replicate count (.of .literal value)) = .ok after ∧
      after.stack.size = progress.stack.size + count := by
  induction count generalizing progress with
  | zero => exact ⟨progress, rfl, rfl⟩
  | succ count ih =>
      have hstep : progress.step (.of .literal value) =
          .ok (progress.proceed (progress.stack.push value)) := by
        rw [Progress.step, step_literal, push, if_neg (by omega)]
      have hsize : (progress.proceed (progress.stack.push value)).stack.size =
          progress.stack.size + 1 := Array.size_push _
      obtain ⟨after, hadvance, hheight⟩ :=
        @ih (progress.proceed (progress.stack.push value)) (by omega)
      refine ⟨after, ?_, by omega⟩
      rw [List.replicate_succ, Progress.advance_cons, hstep, ok_bind, hadvance]

/-- One literal more than there is room for is shown as it is. -/
theorem failure_literals (value : Int32) :
    (Processor.execute {} (List.replicate 1025 (.of .literal value))).failure? =
      some (.trap .stackOverflow 1024 (.of .literal value) "capacity 1024 exceeded") := by
  have hdetail (stack : Stack) : trapDetail .stackOverflow (.of .literal value) stack =
      "capacity 1024 exceeded" := by
    change "capacity " ++ showNat capacity ++ " exceeded" = _
    decide +kernel
  have hroom : (Progress.stack {}).size + 1024 ≤ capacity := by decide
  obtain ⟨after, hadvance, hheight⟩ := advance_literals value 1024 hroom
  have hnext : after.next = 0 + 1024 := by
    rw [Progress.next_of_advance hadvance, List.length_replicate]
  have hfull : capacity ≤ after.stack.size := by
    rw [hheight]
    decide
  have hstep : after.step (.of .literal value) =
      .error (after.finish (after.next + 1) after.stack
        (.trapped .stackOverflow (.of .literal value))) := by
    rw [Progress.step, step_literal, push, if_pos hfull]
  have hoverflow : Progress.advance {} (List.replicate 1025 (.of .literal value)) =
      .error (after.finish (after.next + 1) after.stack
        (.trapped .stackOverflow (.of .literal value))) := by
    rw [List.replicate_succ', Progress.advance_append, hadvance, ok_bind, Progress.advance_singleton,
      hstep]
  have hexecute := execute_eq_outcome_advance {} (List.replicate 1025 (.of .literal value))
  rw [hexecute, hoverflow]
  change some (Failure.trap _ (after.next + 1 - 1) _ (trapDetail _ _ after.stack)) = _
  rw [hdetail, hnext]

/-- The stack runs over at the last of these variables, and the two programs show its fill. -/
theorem fill_observable_crowded :
    compile (crowdedText 1025) = .ok (crowded 1025).code ∧
      IsTreeOf (crowdedText 1025) (crowded 1025) ∧
      (Processor.execute {} (crowded 1025).code).failure? =
        some (.trap .stackOverflow 1024 (.of .literal 0) "capacity 1024 exceeded") ∧
      (Processor.execute {} ((crowded 1025).codeFilling fun _ => 7)).failure? =
        some (.trap .stackOverflow 1024 (.of .literal 7) "capacity 1024 exceeded") := by
  refine ⟨(isTreeOf_crowded 1025).compile (wellNamed_crowded 1025), isTreeOf_crowded 1025, ?_, ?_⟩
  · rw [← Block.codeFilling_zero, codeFilling_crowded, failure_literals]
  · rw [codeFilling_crowded, failure_literals]

end PlZero.Source

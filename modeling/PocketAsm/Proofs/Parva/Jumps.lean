/-
  Proofs/Parva/Jumps.lean --- where jumps and calls go.

  A jump to a label is expanded into one with the base `(zero)`, a call into an
  addition that sets `ra` and such a jump, and a return into a jump to `ra`.
  The assembler takes every label below 4096 into the twelve bits of a jump;
  the machine reads these bits in two's complement.  So a jump reaches labels
  below 2048, and from there on it goes to the last addresses of the memory
  instead (`jump_lands`).
-/
import PocketAsm.Proofs.Parva.Transfers

set_option autoImplicit false

namespace PocketAsm.Parva

open Operand Pattern Text

/-! ## Jumps as they are written -/

/-- A jump to a label, a call or a return. -/
inductive Jump where
  | to (label : String)
  | call (label : String)
  | ret
  deriving DecidableEq, Repr, Inhabited

namespace Jump

/-- The label of a jump or a call. -/
def label? : Jump → Option String
  | .to label => some label
  | .call label => some label
  | .ret => none

/-- The jump on a line. -/
def read? (line : String) : Option Jump :=
  let cs := line.toList
  match folded (firstField cs), fields 1 cs with
  | "j", [_, label] => some (.to label)
  | "call", [_, label] => some (.call label)
  | "ret", _ => some .ret
  | _, _ => none

end Jump

/-- The name stands for a label with the address and for nothing else. -/
structure IsLabel (text label : String) (target : Nat) : Prop where
  address : List.lookup label (dialect.firstPass text).1.labels = some (target : Int)
  name : label.toList.all isNameChar = true
  number : NumberSyntax.zeroMarked.parse? label = none
  character : CharLiteral.body? label = none
  register : isRegister label = false

/-- The words that come from the line with the given number, with their addresses. -/
def wordsAt (text : String) (number : Nat) : List (Int × Nat) :=
  (dialect.outputAt text number).flatMap (OutputLine.words wordSize)

/-! ## The machine -/

section Steps

variable {s : State}

theorem reg_setReg_self (s : State) (r : RegisterIndex) (value : Nat) :
    (s.setReg r value).reg r = value % wordCount := by
  rw [State.reg, State.setReg, RegisterFile.get_set, if_pos rfl, toNat_emod]

/-- A jump by a number goes to the number in two's complement. -/
theorem step_jump {low : Nat} (hlow : low < 4096)
    (hword : s.memory.read s.pc = layout 30 8 4 low) :
    step s = { s with
      pc := (Bits.signExtend low 12 % wordCount).toNat, cycle := (s.cycle + 1) % wordCount } := by
  have hspan : Bits.span 0 = 1 ∧ Bits.span 3 = 8 := by decide
  have hcondition : (Fields.mk (layout 30 8 4 low)).bits 19 3 = 6 := by
    rw [Fields.bits_layout (by decide) (by decide) hlow 0 3, hspan.1, hspan.2]
  have hd : (Fields.mk (layout 30 8 4 low)).d.val = 4 := by
    rw [Fields.d_layout (by decide) hlow]
    rfl
  have ha : (s.single (Fields.mk (layout 30 8 4 low)).a : Int) = 0 := by
    rw [Fields.a_layout (by decide) (by decide) hlow]
    rfl
  have htarget : target? s ⟨layout 30 8 4 low⟩ = some (Bits.signExtend low 12) := by
    simp only [target?, hcondition, hd, ha, and_self, if_true,
      Fields.signedImmediate_layout hlow, zero_add]
  rw [step_branch (by decide) (by decide) (by decide) (by decide) hlow hword, htarget]
  rfl

/-- A jump by a register goes to its value. -/
theorem step_jump_register {index : RegisterIndex}
    (hword : s.memory.read s.pc = layout 31 8 4 (index.val * 512)) :
    step s = { s with
      pc := s.reg index % wordCount, cycle := (s.cycle + 1) % wordCount } := by
  have hlow : index.val * 512 < 4096 := by omega
  have hspan : Bits.span 0 = 1 ∧ Bits.span 3 = 8 := by decide
  have hcondition : (Fields.mk (layout 31 8 4 (index.val * 512))).bits 19 3 = 7 := by
    rw [Fields.bits_layout (by decide) (by decide) hlow 0 3, hspan.1, hspan.2]
  have hd : (Fields.mk (layout 31 8 4 (index.val * 512))).d.val = 4 := by
    rw [Fields.d_layout (by decide) hlow]
    rfl
  have ha : s.single (Fields.mk (layout 31 8 4 (index.val * 512))).a = 0 := by
    rw [Fields.a_layout (by decide) (by decide) hlow]
    rfl
  have hb : (Fields.mk (layout 31 8 4 (index.val * 512))).b = index := by
    rw [Fields.b_layout index.isLt, ofNat_val]
  have htarget : target? s ⟨layout 31 8 4 (index.val * 512)⟩ = some (s.reg index : Int) := by
    simp only [target?, hcondition, hd, ha, hb]
    simp
  rw [step_branch (by decide) (by decide) (by decide) (by decide) hlow hword, htarget,
    Option.getD_some, toNat_emod]

/-- The first word of a call sets `ra` to the address behind the second one. -/
theorem step_link (hword : s.memory.read s.pc = layout 0 9 0 2) :
    step s = { s.setReg 0 (s.pc + 2 : Nat) with
      pc := (s.pc + 1) % wordCount, cycle := (s.cycle + 1) % wordCount } := by
  rw [step_computation (by decide) (by decide) (by decide) (by decide) hword,
    computation_plain (by decide) (by decide) (by decide) (by decide)]
  rfl

/-- Where a number in the twelve bits of a jump leads to. -/
theorem signExtend_jump {target : Nat} (h : target < 4096) :
    (Bits.signExtend target 12 % wordCount).toNat =
      if target < 2048 then target else target + 0xFFF000 := by
  have hspan : (Bits.span 12 : Int) = 4096 := by decide
  have hcount : (wordCount : Int) = 16777216 := rfl
  simp only [Bits.signExtend, hspan, hcount]
  split <;> split <;> omega

end Steps

/-! ## The rules -/

theorem find?_of_rulesFor {cs : List Char} {word : String} {action : Action}
    (hword : folded (firstField cs) = word) (h : Rule.find? (rulesFor word) cs = some action) :
    Rule.find? dialect.rules cs = some action := by
  have hinstructions : Rule.find? instructions cs = some action := by
    rw [Rule.find?_eq_withWord instructions_begin, hword]
    exact h
  have hrules : dialect.rules =
      instructions ++ (Directive.common Parva.operand .separator 1 ++ textDirectives) :=
    List.append_assoc _ _ _
  rw [Rule.find?] at hinstructions
  rw [hrules, Rule.find?, List.findSome?_append, hinstructions, Option.some_or]

theorem rulesFor_jump : rulesFor "j" =
    [⟨.all [.lit "j", .space, based Parva.operand], fun caps => jump (caps.get .a) (caps.get .b)⟩,
     ⟨one "j" .b, fun caps => .expand [s!"j {caps.get .b}(zero)"]⟩] := rfl

/-- The fields of a jump with a base. -/
theorem fields_of_based {cs : List Char} {caps : Captures}
    (h : (all [.lit "j", .space, based Parva.operand]).match? cs = some caps) :
    ∃ w, ∃ t : BasedText, t.Fits Parva.operand ∧ fields 1 cs = [w, String.ofList t.text] ∧
      caps.get .a = String.ofList t.base ∧ caps.get .b = String.ofList t.offset := by
  obtain ⟨ops, haccepts, hcaps⟩ := accepts_of_match? h
  obtain ⟨w, y₁, u₁, v₁, rfl, rfl, hw, h₁⟩ := accepts_all_cons.mp haccepts
  obtain ⟨gap, y₂, u₂, v₂, rfl, rfl, hspace, hbased⟩ := accepts_all_cons.mp h₁
  obtain ⟨t, hfits, rfl, rfl⟩ := (accepts_based rfl).mp hbased
  obtain ⟨-, hplain, rfl⟩ := accepts_word (by decide) hw
  obtain ⟨hgap, rfl⟩ := accepts_space hspace
  have hsolid : Solid t.text := (solid_of_operand hfits.offset).append _
  exact ⟨_, t, hfits, fields_append 0 hplain hgap hsolid, hcaps .a, hcaps .b⟩

/-- A jump without a base is expanded into one from zero. -/
theorem action_of_jump {cs : List Char} {action : Action} {w label : String}
    (h : Rule.find? (rulesFor "j") cs = some action) (hfields : fields 1 cs = [w, label])
    (hname : '(' ∉ label.toList) :
    label.toList ≠ [] ∧ action = .expand [s!"j {label}(zero)"] := by
  rw [rulesFor_jump] at h
  obtain ⟨rule, hrule, caps, hmatch, rfl⟩ := Rule.exists_of_find? h
  simp only [List.mem_cons, List.not_mem_nil, or_false] at hrule
  rcases hrule with rfl | rfl
  · obtain ⟨w', t, -, hfields', -, -⟩ := fields_of_based hmatch
    rw [hfields] at hfields'
    obtain ⟨-, rfl⟩ : w = w' ∧ label = String.ofList t.text := by simpa using hfields'
    simp [BasedText.text] at hname
  · obtain ⟨os, hspelled, hlength, hcaps⟩ := spelled_of_match? [.b] (by decide) hmatch
    obtain ⟨o, rfl⟩ := List.length_eq_one_iff.mp hlength
    have hcaps_b : caps.get .b = String.ofList o := hcaps .b
    obtain ⟨w', -, hfields'⟩ := hspelled.fields_eq [] (by simp)
    obtain ⟨-, rfl⟩ : w = w' ∧ label = String.ofList o := by
      simpa using hfields.symm.trans hfields'
    obtain ⟨c, rest, rfl, -⟩ := solid_of_operand (hspelled.accepts (List.mem_singleton_self o))
    refine ⟨by simp, ?_⟩
    simp only [hcaps_b]

theorem eq_nil_of_blank {cs : List Char} (hblank : ∀ c ∈ cs, isBlank c = true)
    (hplain : Plain cs) : cs = [] := by
  rw [List.eq_nil_iff_forall_not_mem]
  intro c hc
  have hsep := isSeparator_of_isBlank (hblank c hc)
  rw [hplain c hc] at hsep
  exact Bool.false_ne_true hsep

/-- A name before another one in parentheses can be taken apart in one way only. -/
theorem BasedText.eq_of_text {t : BasedText} {pattern : Pattern} (hfits : t.Fits pattern)
    {label base : List Char} (hlabel : ∀ c ∈ label, isNameChar c = true)
    (hname : ∀ c ∈ base, isNameChar c = true) (h : t.text = label ++ '(' :: (base ++ [')'])) :
    t.offset = label ∧ t.base = base := by
  have hopen {name : List Char} (hname : ∀ c ∈ name, isNameChar c = true) : '(' ∉ name :=
    fun hmem => absurd (hname _ hmem) (by decide)
  have hend : '(' ∉ base ++ [')'] := by
    simpa using hopen hname
  have hsplit : label ++ '(' :: (base ++ [')']) =
      (t.offset ++ t.before) ++ '(' :: ((t.inside ++ (t.base ++ t.after)) ++ [')']) := by
    rw [BasedText.text] at h
    simpa using h.symm
  obtain ⟨hoffset, -, hbase⟩ := (List.append_cons_inj_of_notMem (hopen hlabel) hend).mp hsplit
  have hbase : base = t.inside ++ (t.base ++ t.after) := (List.append_left_inj [')']).mp hbase
  have hbefore : t.before = [] := eq_nil_of_blank hfits.before fun c hc =>
    isSeparator_of_isNameChar (hlabel c (by simp [hoffset, hc]))
  have hinside : t.inside = [] := eq_nil_of_blank hfits.inside fun c hc =>
    isSeparator_of_isNameChar (hname c (by simp [hbase, hc]))
  have hafter : t.after = [] := eq_nil_of_blank hfits.after fun c hc =>
    isSeparator_of_isNameChar (hname c (by simp [hbase, hc]))
  rw [hbefore, List.append_nil] at hoffset
  rw [hinside, hafter, List.append_nil, List.nil_append] at hbase
  exact ⟨hoffset.symm, hbase.symm⟩

section Names

variable {label : String} (hne : label.toList ≠ [])
  (hname : ∀ c ∈ label.toList, isNameChar c = true)

include hne hname

theorem operand_of_name : Parva.operand.Accepts label.toList [] :=
  Or.inl (accepts_oneOrMore.mpr ⟨hne, hname, rfl⟩)

/-- The jump from zero is assembled with `zero` as its base and the name as its offset. -/
theorem find?_based :
    Rule.find? dialect.rules s!"j {label}(zero)".toList = some (jump "zero" label) := by
  have hj : IsWord "j" := by decide
  have hline : s!"j {label}(zero)".toList =
      "j".toList ++ (" ".toList ++ (label.toList ++ "(zero)".toList)) := by
    change ("j " ++ label ++ "(zero)").toList = _
    simp [String.toList_append]
  have hoperand := operand_of_name hne hname
  have hzero : Parva.operand.Accepts "zero".toList [] :=
    operand_of_name (by decide) (List.all_eq_true.mp (by decide))
  have hbased : (all [based Parva.operand]).Accepts (label.toList ++ "(zero)".toList) _ :=
    (accepts_based rfl).mpr ⟨⟨label.toList, [], [], "zero".toList, []⟩,
      ⟨hoperand, hzero, by simp, by simp, by simp⟩, rfl, rfl⟩
  have hspace : space.Accepts " ".toList [] :=
    accepts_oneOrMore.mpr ⟨by decide, List.all_eq_true.mp (by decide), rfl⟩
  have haccepts := accepts_all_cons.mpr ⟨_, _, _, _, rfl, rfl, hspace, hbased⟩
  have haccepts := accepts_all_cons.mpr
    ⟨"j".toList, _, [], _, rfl, rfl, accepts_lit.mpr ⟨rfl, rfl⟩, haccepts⟩
  obtain ⟨caps, hmatch⟩ := Option.isSome_iff_exists.mp (match?_isSome haccepts)
  obtain ⟨w, t, hfits, hfields, hcaps_a, hcaps_b⟩ := fields_of_based hmatch
  rw [hj.fields gap_blank ((solid_of_operand hoperand).append _)] at hfields
  have htext : t.text = label.toList ++ "(zero)".toList := by
    obtain ⟨-, htext⟩ : "j" = w ∧ String.ofList (label.toList ++ "(zero)".toList) =
        String.ofList t.text := by simpa [fields] using hfields
    exact (String.ofList_injective htext).symm
  have hzeroName : ∀ c ∈ "zero".toList, isNameChar c = true := List.all_eq_true.mp (by decide)
  obtain ⟨hoffset, hbase⟩ := t.eq_of_text hfits hname hzeroName htext
  have hfirst : folded (firstField s!"j {label}(zero)".toList) = "j" := by
    rw [hline, hj.firstField gap_blank, hj.folded]
  refine find?_of_rulesFor hfirst ?_
  rw [rulesFor_jump, hline, Rule.find?_of_match hmatch]
  change some (jump (caps.get .a) (caps.get .b)) = _
  rw [hcaps_a, hcaps_b, hoffset, hbase, String.ofList_toList, String.ofList_toList]

/-- A jump to a name without a base is expanded. -/
theorem find?_alone :
    Rule.find? dialect.rules s!"j {label}".toList = some (.expand [s!"j {label}(zero)"]) := by
  have hj : IsWord "j" := by decide
  have hline : s!"j {label}".toList = "j".toList ++ (" ".toList ++ label.toList) := by
    change ("j " ++ label).toList = _
    simp [String.toList_append]
  have hoperand := operand_of_name hne hname
  have hspace : space.Accepts " ".toList [] :=
    accepts_oneOrMore.mpr ⟨by decide, List.all_eq_true.mp (by decide), rfl⟩
  have hslot : (all [.slot .b Parva.operand]).Accepts label.toList _ := ⟨[], hoperand, rfl⟩
  have haccepts := accepts_all_cons.mpr ⟨_, _, _, _, rfl, rfl, hspace, hslot⟩
  have haccepts := accepts_all_cons.mpr
    ⟨"j".toList, _, [], _, rfl, rfl, accepts_lit.mpr ⟨rfl, rfl⟩, haccepts⟩
  have hsome : (Rule.find? (rulesFor "j") s!"j {label}".toList).isSome = true := by
    rw [rulesFor_jump, hline, Rule.find?, List.findSome?_isSome_iff]
    refine ⟨_, List.mem_cons_of_mem _ (List.mem_singleton_self _), ?_⟩
    rw [Option.isSome_map]
    exact match?_isSome haccepts
  obtain ⟨action, hfind⟩ := Option.isSome_iff_exists.mp hsome
  have hfields : fields 1 s!"j {label}".toList = ["j", label] := by
    rw [hline, hj.fields gap_blank (solid_of_operand hoperand), fields, String.ofList_toList]
  have hopen : '(' ∉ label.toList := fun hmem => absurd (hname _ hmem) (by decide)
  obtain ⟨-, rfl⟩ := action_of_jump hfind hfields hopen
  have hfirst : folded (firstField s!"j {label}".toList) = "j" := by
    rw [hline, hj.firstField gap_blank, hj.folded]
  exact find?_of_rulesFor hfirst hfind

end Names

/-! ## The words -/

/-- The fields of a jump from zero. -/
def jumpFields (label : String) : List Field :=
  if isRegister label then
    [code "1111", code "1", .register (single "zero"), code "100", .register (basic label), unused]
  else
    [code "1111", code "0", .register (single "zero"), code "100", .value label 12 false false]

theorem jump_zero (label : String) : jump "zero" label = .emit (jumpFields label) 1 none := by
  unfold jump jumpFields
  split <;> rfl

/-- The fields of the first word of a call. -/
def linkFields : List Field :=
  [code "0", code "000", code "0", .register (single "pc"), .register (basic "ra"),
    .value "2" 12 true false]

theorem find?_link : Rule.find? dialect.rules "addi ra, pc, 2".toList =
    some (.emit linkFields 1 none) := rfl

section Encoded

variable {p : Program} {symbols : Symbols} {bits : Bits} {label : String}

/-- The word of a jump to a number. -/
theorem toNat_jump (hregister : isRegister label = false)
    (h : dialect.Encodes p symbols (jumpFields label) bits) :
    ∃ n low, dialect.operandValue? p symbols label false = some n ∧
      Bits.encodeField n 12 false = .ok low ∧ Bits.toNat bits = layout 30 8 4 (Bits.toNat low) := by
  simp only [jumpFields, hregister, Bool.false_eq_true, if_false, code, Dialect.encodes_cons,
    Dialect.encodes_nil, Dialect.encodesField_bits, Dialect.encodesField_register] at h
  obtain ⟨_, rest₁, rfl, rfl, _, rest₂, rfl, rfl, a, rest₃, rfl, ha, _, rest₄, rfl, rfl, low, _,
    rfl, hlow, rfl⟩ := h
  obtain ⟨n, hn, hencode⟩ := Dialect.exists_value_of_encodesField (by simp) hlow
  have hzero : single "zero" = .ok (Bits.ofNat 4 8) := rfl
  obtain rfl : Bits.ofNat 4 8 = a := Except.ok.inj (hzero.symm.trans ha)
  refine ⟨n, low, hn, hencode, ?_⟩
  rw [List.append_nil, ← List.append_assoc,
    toNat_layout (by decide) (by decide) (Bits.length_of_encodeField hencode)]
  rfl

/-- The word of a jump to a register. -/
theorem toNat_jump_register (index : RegisterIndex)
    (hname : Register.ofName? label = some (.basic index)) (hregister : isRegister label = true)
    (h : dialect.Encodes p symbols (jumpFields label) bits) :
    Bits.toNat bits = layout 31 8 4 (index.val * 512) := by
  simp only [jumpFields, hregister, if_true, code, unused, Dialect.encodes_cons,
    Dialect.encodes_nil, Dialect.encodesField_bits, Dialect.encodesField_register] at h
  obtain ⟨_, rest₁, rfl, rfl, _, rest₂, rfl, rfl, a, rest₃, rfl, ha, _, rest₄, rfl, rfl, b, rest₅,
    rfl, hb, _, _, rfl, rfl, rfl⟩ := h
  have hzero : single "zero" = .ok (Bits.ofNat 4 8) := rfl
  obtain rfl : Bits.ofNat 4 8 = a := Except.ok.inj (hzero.symm.trans ha)
  obtain ⟨found, hfound, hlength, hnat⟩ := exists_index_of_basic hb
  obtain rfl : found = index := by simpa [hname, eq_comm] using hfound
  rw [List.append_nil, ← List.append_assoc,
    toNat_layout (by decide) (by decide) (by simp [hlength]), toNat_unused, hnat]
  rfl

/-- The first word of a call. -/
theorem toNat_link (h : dialect.Encodes p symbols linkFields bits) :
    Bits.toNat bits = layout 0 9 0 2 := by
  simp only [linkFields, code, Dialect.encodes_cons, Dialect.encodes_nil,
    Dialect.encodesField_bits, Dialect.encodesField_register] at h
  obtain ⟨_, rest₁, rfl, rfl, _, rest₂, rfl, rfl, _, rest₃, rfl, rfl, a, rest₄, rfl, ha, d, rest₅,
    rfl, hd, low, _, rfl, hlow, rfl⟩ := h
  obtain ⟨n, hn, hencode⟩ := Dialect.exists_value_of_encodesField (by simp) hlow
  have htwo : dialect.operandValue? p symbols "2" false = some 2 := rfl
  obtain rfl : 2 = n := Option.some.inj (htwo.symm.trans hn)
  have hpc : single "pc" = .ok (Bits.ofNat 4 9) := rfl
  have hra : basic "ra" = .ok (Bits.ofNat 3 0) := rfl
  have hcode : Bits.encodeField 2 12 true = .ok (Bits.ofNat 12 2) := rfl
  obtain rfl : Bits.ofNat 4 9 = a := Except.ok.inj (hpc.symm.trans ha)
  obtain rfl : Bits.ofNat 3 0 = d := Except.ok.inj (hra.symm.trans hd)
  obtain rfl : Bits.ofNat 12 2 = low := Except.ok.inj (hcode.symm.trans hencode)
  decide

end Encoded

/-! ## The words of a line -/

theorem length_of_instructionBits {symbols : Symbols} {source : Source} {parts : List Part}
    {bits : Bits} (h : dialect.instructionBits symbols source parts = .ok bits) :
    bits.length = wordSize := by
  unfold Dialect.instructionBits at h
  split at h
  · simp at h
  · split at h
    · simp at h
    · rename_i found _ hwidth
      have hfixed : dialect.fixedWidth = some wordSize := rfl
      simp only [Dialect.widthFault?, hfixed, ite_eq_left_iff, reduceCtorEq, imp_false,
        not_not] at hwidth
      rw [← Except.ok.inj h, hwidth]

/-- An instruction that is resolved is one word. -/
theorem words_of_resolveLine {symbols : Symbols} {address : Nat} {source : Source}
    {parts : List Part} {line : OutputLine}
    (h : dialect.resolveLine symbols (.instruction address source parts) = .ok line) :
    ∃ bits, symbols.partsBits parts = .ok bits ∧
      line.words wordSize = [((address : Int), Bits.toNat bits)] := by
  rw [Dialect.resolveLine] at h
  split at h
  · simp at h
  · rename_i bits hbits
    refine ⟨bits, Dialect.partsBits_of_instructionBits hbits, ?_⟩
    have hlength : bits.length = wordSize := length_of_instructionBits hbits
    rw [← Except.ok.inj h, OutputLine.words, Bits.words_of_length (by decide) hlength]
    rfl

section Lines

variable {text : String} {number : Nat}

theorem exists_instruction_of_wordsAt (h : wordsAt text number ≠ []) :
    ∃ address bits source, source.line = number ∧
      .instruction address bits source ∈ (dialect.assemble text).lines := by
  obtain ⟨line, hmem⟩ : ∃ line, line ∈ dialect.outputAt text number := by
    refine List.exists_mem_of_ne_nil _ ?_
    intro hnil
    exact h (by rw [wordsAt, hnil]; rfl)
  obtain ⟨hline, hfrom⟩ := List.mem_filter.mp hmem
  cases line with
  | label name => simp [OutputLine.isFrom] at hfrom
  | instruction address bits source => exact ⟨address, bits, source, beq_iff_eq.mp hfrom, hline⟩

/-- Instructions of one word each lie one after the other. -/
theorem words_of_places {symbols : Symbols} (places : List (List Part × Source)) :
    ∀ {address : Nat} {lines : List OutputLine},
      List.Forall₂ (fun placed line => dialect.resolveLine symbols placed = .ok line)
        (Edit.instructions address (places.map fun place => .place place.1 1 place.2)) lines →
      ∃ words, List.Forall₂ (fun place bits => symbols.partsBits place.1 = .ok bits) places words ∧
        lines.flatMap (OutputLine.words wordSize) =
          words.mapIdx fun offset bits => (((address + offset : Nat) : Int), Bits.toNat bits) := by
  induction places with
  | nil =>
    intro address lines h
    obtain rfl := List.forall₂_nil_left_iff.mp h
    exact ⟨[], .nil, rfl⟩
  | cons place places ih =>
    intro address lines h
    obtain ⟨line, rest, hline, hrest, rfl⟩ := List.forall₂_cons_left_iff.mp h
    obtain ⟨words, hwords, hflat⟩ := ih hrest
    obtain ⟨bits, hbits, hword⟩ := words_of_resolveLine hline
    refine ⟨bits :: words, .cons hbits hwords, ?_⟩
    rw [List.flatMap_cons, hword, hflat, List.mapIdx_cons]
    simp [Nat.add_assoc, Nat.add_comm 1]

/-- The words of a line that places instructions of one word each. -/
theorem wordsAt_of_places (hok : (dialect.assemble text).errors = [])
    (hne : wordsAt text number ≠ []) {places : List (List Part × Source)}
    (hkept : (dialect.outcomeAt text number).kept =
      places.map fun place => .place place.1 1 place.2) :
    ∃ words, List.Forall₂ (fun place bits =>
        (dialect.symbols (dialect.firstPass text).1).partsBits place.1 = .ok bits) places words ∧
      wordsAt text number = words.mapIdx fun offset bits =>
        ((((dialect.programBefore text number).address + offset : Nat) : Int), Bits.toNat bits) := by
  have hplaces : ∀ e ∈ (dialect.outcomeAt text number).kept, e.isPlace = true := by
    intro e he
    rw [hkept] at he
    obtain ⟨place, -, rfl⟩ := List.mem_map.mp he
    rfl
  rcases Dialect.outputAt_cases wellFormed hok hplaces with hnil | hall
  · exact absurd (by rw [wordsAt, hnil]; rfl) hne
  · rw [hkept] at hall
    exact words_of_places places hall

theorem kept_of_fault (h : (dialect.outcomeAt text number).fault = none) :
    (dialect.outcomeAt text number).kept = (dialect.outcomeAt text number).edits := by
  rw [Outcome.kept, h]
  rfl

/-- A jump to a name from zero yields its word. -/
theorem yields_jump {p : Program} {levels : Nat} {label : String} {edits : List Edit}
    (hne : label.toList ≠ []) (hname : ∀ c ∈ label.toList, isNameChar c = true)
    (h : dialect.Yields p levels s!"j {label}(zero)" edits) :
    ∃ parts origin, dialect.fieldParts p (jumpFields label) = .ok parts ∧
      edits = [.place parts 1 origin] := by
  have hfind := find?_based hne hname
  have htext : s!"j {label}(zero)" ≠ "" := by
    change "j " ++ label ++ "(zero)" ≠ ""
    simp
  rw [jump_zero] at hfind
  exact h.of_emit htext hfind

/-- What a line with a jump to a name places. -/
theorem kept_of_to {w label : String} (hwords : wordsAt text number ≠ [])
    (hword : folded (firstField (dialect.instructionAt text number).toList) = "j")
    (hfields : fields 1 (dialect.instructionAt text number).toList = [w, label])
    (hname : ∀ c ∈ label.toList, isNameChar c = true) :
    ∃ parts origin, dialect.fieldParts (dialect.programBefore text number) (jumpFields label) =
        .ok parts ∧
      (dialect.outcomeAt text number).kept = [.place parts 1 origin] := by
  obtain ⟨address, bits, source, rfl, hline⟩ := exists_instruction_of_wordsAt hwords
  have hassembles := Dialect.assembles_of_mem_assemble wellFormed hline
  obtain ⟨hfault, -⟩ := Dialect.exists_place_of_mem_assemble_line wellFormed hline
  obtain ⟨action, hfind, hall⟩ := find?_of_assembles hassembles hword (by decide)
  have hopen : '(' ∉ label.toList := fun hmem => absurd (hname _ hmem) (by decide)
  obtain ⟨hne, rfl⟩ := action_of_jump hfind hfields hopen
  obtain ⟨further, -, hyields⟩ :=
    (Dialect.yields_of_fault hfault).of_expand hassembles.ne_empty hall
  rw [kept_of_fault hfault]
  exact yields_jump hne hname hyields

/-- What a line with a call of a name places. -/
theorem kept_of_call {w label : String} (hwords : wordsAt text number ≠ [])
    (hword : folded (firstField (dialect.instructionAt text number).toList) = "call")
    (hfields : fields 1 (dialect.instructionAt text number).toList = [w, label])
    (hname : ∀ c ∈ label.toList, isNameChar c = true) :
    ∃ link origin parts origin' q,
      dialect.fieldParts (dialect.programBefore text number) linkFields = .ok link ∧
      dialect.fieldParts q (jumpFields label) = .ok parts ∧
      (dialect.outcomeAt text number).kept = [.place link 1 origin, .place parts 1 origin'] := by
  obtain ⟨address, bits, source, rfl, hline⟩ := exists_instruction_of_wordsAt hwords
  have hassembles := Dialect.assembles_of_mem_assemble wellFormed hline
  obtain ⟨hfault, -⟩ := Dialect.exists_place_of_mem_assemble_line wellFormed hline
  obtain ⟨os, caps, hspelled, hlength, hcaps, hfind⟩ :=
    spelled_of_assembles [.a] hassembles hword (by decide) (by decide) rfl
  obtain ⟨o, rfl⟩ := List.length_eq_one_iff.mp hlength
  have hcaps_a : caps.get .a = String.ofList o := hcaps .a
  obtain ⟨w', -, hfields'⟩ := hspelled.fields_eq [] (by simp)
  obtain ⟨-, rfl⟩ : w = w' ∧ label = String.ofList o := by
    simpa using hfields.symm.trans hfields'
  have hne : (String.ofList o).toList ≠ [] := by
    obtain ⟨c, rest, rfl, -⟩ := solid_of_operand (hspelled.accepts (List.mem_singleton_self o))
    simp
  rw [hcaps_a] at hfind
  obtain ⟨further, first, second, hedits, hfirst, hsecond⟩ :=
    (Dialect.yields_of_fault hfault).of_expand_pair hassembles.ne_empty hfind
  obtain ⟨link, origin, hlink, rfl⟩ := hfirst.of_emit (by decide) find?_link
  have htext : s!"j {String.ofList o}" ≠ "" := by
    change "j " ++ String.ofList o ≠ ""
    simp
  obtain ⟨further', -, hjump⟩ := hsecond.of_expand htext (find?_alone hne hname)
  obtain ⟨parts, origin', hparts, rfl⟩ := yields_jump hne hname hjump
  exact ⟨link, origin, parts, origin', _, hlink, hparts, by rw [kept_of_fault hfault, hedits]; rfl⟩

/-- What a line with a return places. -/
theorem kept_of_ret (hwords : wordsAt text number ≠ [])
    (hword : folded (firstField (dialect.instructionAt text number).toList) = "ret") :
    ∃ parts origin, dialect.fieldParts (dialect.programBefore text number) (jumpFields "ra") =
        .ok parts ∧
      (dialect.outcomeAt text number).kept = [.place parts 1 origin] := by
  obtain ⟨address, bits, source, rfl, hline⟩ := exists_instruction_of_wordsAt hwords
  have hassembles := Dialect.assembles_of_mem_assemble wellFormed hline
  obtain ⟨hfault, -⟩ := Dialect.exists_place_of_mem_assemble_line wellFormed hline
  obtain ⟨action, hfind, hall⟩ := find?_of_assembles hassembles hword (by decide)
  have hrules : rulesFor "ret" = [⟨.lit "ret", fun _ => .expand ["j ra"]⟩] := rfl
  rw [hrules] at hfind
  obtain ⟨rule, hrule, caps, -, rfl⟩ := Rule.exists_of_find? hfind
  obtain rfl := List.mem_singleton.mp hrule
  obtain ⟨further, -, hyields⟩ :=
    (Dialect.yields_of_fault hfault).of_expand hassembles.ne_empty hall
  have hname : ∀ c ∈ "ra".toList, isNameChar c = true := List.all_eq_true.mp (by decide)
  have hne : "ra".toList ≠ [] := by decide
  have halone := find?_alone hne hname
  obtain ⟨further', -, hjump⟩ := hyields.of_expand (by decide) halone
  rw [kept_of_fault hfault]
  exact yields_jump (by decide) hname hjump

/-- The word of a jump to a label holds the address of the label. -/
theorem toNat_jump_label {q : Program} {label : String} {target : Nat} {parts : List Part}
    {bits : Bits} (hlabel : IsLabel text label target)
    (hparts : dialect.fieldParts q (jumpFields label) = .ok parts)
    (hbits : (dialect.symbols (dialect.firstPass text).1).partsBits parts = .ok bits) :
    target < 4096 ∧ Bits.toNat bits = layout 30 8 4 target := by
  obtain ⟨n, low, hn, hencode, hnumber⟩ :=
    toNat_jump hlabel.register (Dialect.encodes_of_partsBits hparts hbits)
  rw [Dialect.operandValue?_label rfl hlabel.number hlabel.character hlabel.address] at hn
  obtain rfl : (target : Int) = n := Option.some.inj hn
  have hspan : (Bits.span 12 : Int) = 4096 := by decide
  have hlt := Bits.lt_of_encodeField (by omega) hencode
  have hlow := Bits.toNat_of_encodeField hencode
  rw [hspan] at hlt hlow
  have htarget : Bits.toNat low = target := by
    rw [Int.emod_eq_of_lt (by omega) hlt] at hlow
    exact_mod_cast hlow
  exact ⟨by omega, by rw [hnumber, htarget]⟩

end Lines

/-! ## Where jumps go -/

section Runs

variable {text : String} {number : Nat} {s : State} {value : Nat} {rest : List (Int × Nat)}
  (hok : (dialect.assemble text).errors = [])
  (hpc : wordsAt text number = ((s.pc : Int), value) :: rest)
  (hmemory : ∀ word ∈ wordsAt text number, word.1 < wordCount ∧ s.memory.read word.1 = word.2)

include hok hpc hmemory

/-- The state holds the words of a line that places instructions of one word each. -/
theorem exists_words_in_memory (places : List (List Part × Source))
    (hkept : (dialect.outcomeAt text number).kept =
      places.map fun place => .place place.1 1 place.2) :
    ∃ words, List.Forall₂ (fun place bits =>
        (dialect.symbols (dialect.firstPass text).1).partsBits place.1 = .ok bits) places words ∧
      (wordsAt text number).length = words.length ∧
      ∀ i, ∀ bits, words[i]? = some bits →
        s.pc + i < wordCount ∧ s.memory.read ((s.pc + i : Nat) : Int) = Bits.toNat bits := by
  have hne : wordsAt text number ≠ [] := by simp [hpc]
  obtain ⟨words, hall, hwords⟩ := wordsAt_of_places hok hne hkept
  refine ⟨words, hall, by rw [hwords, List.length_mapIdx], fun i bits hi => ?_⟩
  have hstart : (dialect.programBefore text number).address = s.pc := by
    have hhead := congrArg List.head? (hwords.symm.trans hpc)
    cases words with
    | nil => simp at hhead
    | cons first words =>
      obtain ⟨haddress, -⟩ : (dialect.programBefore text number).address = s.pc ∧
          Bits.toNat first = value := by simpa using hhead
      exact haddress
  have hmem : (((s.pc + i : Nat) : Int), Bits.toNat bits) ∈ wordsAt text number := by
    rw [hwords, ← hstart, List.mem_iff_getElem?]
    exact ⟨i, by simp [hi]⟩
  obtain ⟨hlt, hread⟩ := hmemory _ hmem
  exact ⟨Int.ofNat_lt.mp hlt, hread⟩

/-- A jump to a label goes to its address in two's complement. -/
theorem to_lands {w label : String} {target : Nat}
    (hword : folded (firstField (dialect.instructionAt text number).toList) = "j")
    (hfields : fields 1 (dialect.instructionAt text number).toList = [w, label])
    (hlabel : IsLabel text label target) :
    target < 4096 ∧ (step^[(wordsAt text number).length] s).pc =
      if target < 2048 then target else target + 0xFFF000 := by
  obtain ⟨parts, origin, hparts, hkept⟩ := kept_of_to (by simp [hpc]) hword hfields
    (List.all_eq_true.mp hlabel.name)
  obtain ⟨words, hall, hlength, hread⟩ :=
    exists_words_in_memory hok hpc hmemory [(parts, origin)] hkept
  obtain ⟨bits, tail, hbits, htail, rfl⟩ := List.forall₂_cons_left_iff.mp hall
  obtain rfl := List.forall₂_nil_left_iff.mp htail
  obtain ⟨htarget, hnumber⟩ := toNat_jump_label hlabel hparts hbits
  have hmem := (hread 0 bits rfl).2
  rw [hnumber] at hmem
  refine ⟨htarget, ?_⟩
  rw [hlength, ← signExtend_jump htarget]
  exact congrArg State.pc (step_jump htarget hmem)

/-- A call of a label does so too, and sets `ra` to the address behind the line. -/
theorem call_lands {w label : String} {target : Nat}
    (hword : folded (firstField (dialect.instructionAt text number).toList) = "call")
    (hfields : fields 1 (dialect.instructionAt text number).toList = [w, label])
    (hlabel : IsLabel text label target) :
    target < 4096 ∧ (step^[(wordsAt text number).length] s).pc =
        (if target < 2048 then target else target + 0xFFF000) ∧
      (step^[(wordsAt text number).length] s).reg 0 = (s.pc + 2) % wordCount := by
  obtain ⟨link, origin, parts, origin', q, hlink, hparts, hkept⟩ := kept_of_call (by simp [hpc])
    hword hfields (List.all_eq_true.mp hlabel.name)
  obtain ⟨words, hall, hlength, hread⟩ := exists_words_in_memory hok hpc hmemory
    [(link, origin), (parts, origin')] hkept
  obtain ⟨first, tail, hfirst, htail, rfl⟩ := List.forall₂_cons_left_iff.mp hall
  obtain ⟨second, tail', hsecond, htail', rfl⟩ := List.forall₂_cons_left_iff.mp htail
  obtain rfl := List.forall₂_nil_left_iff.mp htail'
  have hmem := (hread 0 first rfl).2
  rw [toNat_link (Dialect.encodes_of_partsBits hlink hfirst)] at hmem
  have hstep := step_link hmem
  obtain ⟨htarget, hnumber⟩ := toNat_jump_label hlabel hparts hsecond
  obtain ⟨hlt, hmem'⟩ := hread 1 second rfl
  have hnext : (step s).pc = s.pc + 1 := by
    rw [hstep]
    exact Nat.mod_eq_of_lt hlt
  have hkeeps : (step s).memory = s.memory := by rw [hstep]; rfl
  rw [hnumber, ← hnext, ← hkeeps] at hmem'
  have hjump := step_jump htarget hmem'
  have htwice : step^[(wordsAt text number).length] s = step (step s) := by
    rw [hlength]
    rfl
  rw [htwice, hjump, ← signExtend_jump htarget]
  refine ⟨htarget, rfl, ?_⟩
  have hra : (step s).reg 0 = (s.setReg 0 (s.pc + 2 : Nat)).reg 0 := by rw [hstep]; rfl
  exact hra.trans (reg_setReg_self s 0 (s.pc + 2))

/-- A return goes to the address in `ra`. -/
theorem ret_lands
    (hword : folded (firstField (dialect.instructionAt text number).toList) = "ret")
    (hra : s.reg 0 < wordCount) : (step^[(wordsAt text number).length] s).pc = s.reg 0 := by
  obtain ⟨parts, origin, hparts, hkept⟩ := kept_of_ret (by simp [hpc]) hword
  obtain ⟨words, hall, hlength, hread⟩ :=
    exists_words_in_memory hok hpc hmemory [(parts, origin)] hkept
  obtain ⟨bits, tail, hbits, htail, rfl⟩ := List.forall₂_cons_left_iff.mp hall
  obtain rfl := List.forall₂_nil_left_iff.mp htail
  have hmem := (hread 0 bits rfl).2
  rw [toNat_jump_register 0 (by decide) (by decide)
    (Dialect.encodes_of_partsBits hparts hbits)] at hmem
  rw [hlength]
  refine (congrArg State.pc (step_jump_register hmem)).trans ?_
  exact Nat.mod_eq_of_lt hra

end Runs

/-- Where every jump goes.  In a text that is assembled without errors, take a line with a jump to a
label, a call or a return, and a state with the words of the line in its memory and its program
counter at the first of them.  After the words are executed the program counter is at the label if
the label lies below 2048, and `0xFFF000` words behind it otherwise; a call has set `ra` to the
address behind the line; and a return has gone to the address in `ra`. -/
theorem jump_lands (text : String) (hok : (dialect.assemble text).errors = []) {number : Nat}
    {jump : Jump} (hread : Jump.read? (dialect.instructionAt text number) = some jump)
    {s : State} {value : Nat} {rest : List (Int × Nat)}
    (hpc : wordsAt text number = ((s.pc : Int), value) :: rest)
    (hmemory : ∀ word ∈ wordsAt text number,
      word.1 < wordCount ∧ s.memory.read word.1 = word.2) :
    (∀ label target, jump.label? = some label → IsLabel text label target →
      target < 4096 ∧ (step^[(wordsAt text number).length] s).pc =
        if target < 2048 then target else target + 0xFFF000) ∧
    (∀ label target, jump = .call label → IsLabel text label target →
      (step^[(wordsAt text number).length] s).reg 0 = (s.pc + 2) % wordCount) ∧
    (jump = .ret → s.reg 0 < wordCount →
      (step^[(wordsAt text number).length] s).pc = s.reg 0) := by
  unfold Jump.read? at hread
  dsimp only at hread
  split at hread
  · rename_i w label hword hfields
    obtain rfl : Jump.to label = jump := Option.some.inj hread
    refine ⟨?_, by simp, by simp⟩
    rintro _ target ⟨rfl⟩ hlabel
    exact to_lands hok hpc hmemory hword hfields hlabel
  · rename_i w label hword hfields
    obtain rfl : Jump.call label = jump := Option.some.inj hread
    refine ⟨?_, ?_, by simp⟩
    · rintro _ target ⟨rfl⟩ hlabel
      obtain ⟨htarget, hlands, -⟩ := call_lands hok hpc hmemory hword hfields hlabel
      exact ⟨htarget, hlands⟩
    · rintro _ target ⟨rfl⟩ hlabel
      exact (call_lands hok hpc hmemory hword hfields hlabel).2.2
  · rename_i hword
    obtain rfl : Jump.ret = jump := Option.some.inj hread
    exact ⟨by simp [Jump.label?], by simp, fun _ => ret_lands hok hpc hmemory hword⟩
  · simp at hread

/-- A call goes to its label and comes back behind itself. -/
theorem call_reaches_near_label :
    let text := "call near\n.data 0\nnear:\nret"
    let words := [((0 : Int), layout 0 9 0 2), (1, layout 30 8 4 3)]
    let s : State := ⟨Memory.empty.writeAll words, .cleared, 0, 0, .blank⟩
    (dialect.assemble text).errors = [] ∧ wordsAt text 0 = words ∧ IsLabel text "near" 3 ∧
      (step^[2] s).pc = 3 ∧ (step^[2] s).reg 0 = 2 := by
  intro text words s
  obtain ⟨hok, hwords, haddress, hread⟩ :
      (dialect.assemble text).errors = [] ∧ wordsAt text 0 = words ∧
        List.lookup "near" (dialect.firstPass text).1.labels = some ((3 : Nat) : Int) ∧
        Jump.read? (dialect.instructionAt text 0) = some (.call "near") := by
    decide +kernel
  have hlabel : IsLabel text "near" 3 :=
    ⟨haddress, by decide +kernel, by decide +kernel, by decide +kernel, by decide +kernel⟩
  have hmemory : ∀ word ∈ wordsAt text 0, word.1 < wordCount ∧ s.memory.read word.1 = word.2 := by
    rw [hwords]
    simp [words, s, Memory.writeAll, Memory.read_write, wordCount]
  obtain ⟨hpc, hra, -⟩ := jump_lands text hok hread hwords hmemory
  rw [hwords] at hpc hra
  exact ⟨hok, hwords, hlabel, (hpc "near" 3 rfl hlabel).2, hra "near" 3 rfl hlabel⟩

/-- A jump to a label at 2048 does not reach it. -/
theorem jump_misses_far_label :
    let text := ".address 2048\nfar:\n.address 0\nj far"
    let words := [((0 : Int), layout 30 8 4 2048)]
    let s : State := ⟨Memory.empty.writeAll words, .cleared, 0, 0, .blank⟩
    (dialect.assemble text).errors = [] ∧ wordsAt text 3 = words ∧
      Jump.read? (dialect.instructionAt text 3) = some (.to "far") ∧ IsLabel text "far" 2048 ∧
      (∀ word ∈ wordsAt text 3, word.1 < wordCount ∧ s.memory.read word.1 = word.2) ∧
      (step^[1] s).pc ≠ 2048 := by
  intro text words s
  obtain ⟨hok, hwords, haddress, hread⟩ :
      (dialect.assemble text).errors = [] ∧ wordsAt text 3 = words ∧
        List.lookup "far" (dialect.firstPass text).1.labels = some ((2048 : Nat) : Int) ∧
        Jump.read? (dialect.instructionAt text 3) = some (.to "far") := by
    decide +kernel
  have hlabel : IsLabel text "far" 2048 :=
    ⟨haddress, by decide +kernel, by decide +kernel, by decide +kernel, by decide +kernel⟩
  have hmemory : ∀ word ∈ wordsAt text 3, word.1 < wordCount ∧ s.memory.read word.1 = word.2 := by
    rw [hwords]
    simp [words, s, Memory.writeAll, Memory.read_write, wordCount]
  have hfirst : (0, layout 30 8 4 2048) ∈ wordsAt text 3 := hwords ▸ List.mem_singleton_self _
  have hword : s.memory.read s.pc = layout 30 8 4 2048 := (hmemory _ hfirst).2
  have hpc : (step^[1] s).pc = 0xFFF800 := congrArg State.pc (step_jump (by decide) hword)
  exact ⟨hok, hwords, hread, hlabel, hmemory, by rw [hpc]; decide⟩

end PocketAsm.Parva

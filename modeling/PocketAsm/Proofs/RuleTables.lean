/-
  Proofs/RuleTables.lean --- what holds of every rule of the four dialects.

  Two things are written by hand in each rule and have to agree: the fields of
  an instruction and the number of words it takes.  A rule is well formed if
  its fields fill its words whatever the operands are, if its expansions never
  begin with a point, and if it is a directive only where its pattern begins
  with one.  Then an expansion never reaches a directive.

  `Dialect.WellFormed` puts this together with what a dialect says about its
  words, and `Architecture.wellFormed` proves it for every architecture.
-/
import PocketAsm.Architecture
import PocketAsm.Proofs.Matching

set_option autoImplicit false

namespace PocketAsm

/-! ## Fields -/

/-- A field takes so many bits, whatever operand it is made from. -/
def Field.HasWidth (n : Nat) : Field → Prop
  | .bits fixed => fixed.length = n
  | .register code => ∀ found, code = .ok found → found.length = n
  | .value _ width _ _ => width = n

/-- The fields of an instruction take so many bits in all. -/
def Fills (fields : List Field) (total : Nat) : Prop :=
  ∃ widths, List.Forall₂ (fun field n => field.HasWidth n) fields widths ∧ widths.sum = total

@[simp] theorem hasWidth_code {n : Nat} (digits : String) :
    (Operand.code digits).HasWidth n ↔ digits.toList.length = n := by
  simp [Operand.code, Field.HasWidth, Bits.ofText]

@[simp] theorem hasWidth_bits {n : Nat} (bits : Bits) :
    (Field.bits bits).HasWidth n ↔ bits.length = n := Iff.rfl

@[simp] theorem hasWidth_value {n : Nat} (text : String) (width : Nat) (signed relative : Bool) :
    (Field.value text width signed relative).HasWidth n ↔ width = n := Iff.rfl

/-! ## Actions and rules -/

/-- The text begins with a sign other than the point. -/
def Unpointed (text : String) : Prop :=
  (text.toList.head?.map (Text.sameLetter '.')) = some false

instance (text : String) : Decidable (Unpointed text) := inferInstanceAs (Decidable (_ = _))

/-- What is added behind a text does not change how it begins. -/
theorem Unpointed.append {s : String} (h : Unpointed s) (t : String) : Unpointed (s ++ t) := by
  obtain ⟨c, hc, hpoint⟩ := Option.map_eq_some_iff.mp h
  simp [Unpointed, String.toList_append, List.head?_append, hc, hpoint]

/-- The action is neither an instruction nor a label. -/
def Action.isDirective : Action → Bool
  | .emit .. | .expand _ | .reject _ | .label _ => false
  | _ => true

/-- The fields of an instruction fill its words, and an expansion leads to no directive. -/
def Action.WellFormed (wordSize maxWords : Nat) : Action → Prop
  | .emit fields words _ => 1 ≤ words ∧ words ≤ maxWords ∧ Fills fields (words * wordSize)
  | .expand lines => ∀ line ∈ lines, Unpointed line
  | .data _ symbolWords => 1 ≤ symbolWords ∧ symbolWords ≤ maxWords
  | .repeat _ _ symbolWords => 1 ≤ symbolWords ∧ symbolWords ≤ maxWords
  | _ => True

/-- A rule with well-formed actions, which begins with a point if it is a directive. -/
structure Rule.WellFormed (wordSize maxWords : Nat) (rule : Rule) : Prop where
  action : ∀ caps, (rule.action caps).WellFormed wordSize maxWords
  directive : ∀ caps, (rule.action caps).isDirective = true →
    rule.pattern.BeginsWith (Text.sameLetter '.')

/-- A rule that is no directive. -/
theorem Rule.WellFormed.ofAction {wordSize maxWords : Nat} {pattern : Pattern}
    {action : Captures → Action}
    (h : ∀ caps, (action caps).WellFormed wordSize maxWords ∧ (action caps).isDirective = false) :
    Rule.WellFormed wordSize maxWords ⟨pattern, action⟩ where
  action caps := (h caps).1
  directive caps hdirective := absurd hdirective (by simp [(h caps).2])

/-- A rule that places instructions whose fields have the given widths. -/
theorem Rule.WellFormed.ofWidths {wordSize maxWords words : Nat} {pattern : Pattern}
    {fields : Captures → List Field} (widths : List Nat)
    (hwords : 1 ≤ words ∧ words ≤ maxWords) (htotal : widths.sum = words * wordSize)
    (h : ∀ caps, List.Forall₂ (fun field n => field.HasWidth n) (fields caps) widths) :
    Rule.WellFormed wordSize maxWords ⟨pattern, fun caps => .emit (fields caps) words none⟩ :=
  .ofAction fun caps => ⟨⟨hwords.1, hwords.2, widths, h caps, htotal⟩, rfl⟩

/-- A rule that expands into lines which do not begin with a point. -/
theorem Rule.WellFormed.ofExpansion {wordSize maxWords : Nat} {pattern : Pattern}
    {lines : Captures → List String} (h : ∀ caps, ∀ line ∈ lines caps, Unpointed line) :
    Rule.WellFormed wordSize maxWords ⟨pattern, fun caps => .expand (lines caps)⟩ :=
  .ofAction fun caps => ⟨h caps, rfl⟩

/-- A rule that is a directive: its pattern begins with a text that begins with a point. -/
theorem Rule.WellFormed.ofDirective {wordSize maxWords : Nat} {s : String}
    {patterns : List Pattern} {action : Captures → Action}
    (h : ∀ caps, (action caps).WellFormed wordSize maxWords) (hs : s.toList.head? = some '.') :
    Rule.WellFormed wordSize maxWords ⟨.all (.lit s :: patterns), action⟩ where
  action := h
  directive _ _ := (Pattern.beginsWith_lit hs).all patterns

/-! ## The common directives -/

namespace Directive

variable {wordSize maxWords symbolWords : Nat}

theorem dataRule_wellFormed (h : 1 ≤ symbolWords ∧ symbolWords ≤ maxWords) (cut : Pattern) :
    (dataRule cut symbolWords).WellFormed wordSize maxWords :=
  .ofDirective (fun _ => h) (by decide)

theorem labelRule_wellFormed (name : Pattern) : (labelRule name).WellFormed wordSize maxWords :=
  .ofAction fun _ => ⟨trivial, rfl⟩

theorem addressRule_wellFormed (operand : Pattern) :
    (addressRule operand).WellFormed wordSize maxWords :=
  .ofDirective (fun _ => trivial) (by decide)

theorem common_wellFormed (h : 1 ≤ symbolWords ∧ symbolWords ≤ maxWords) (operand cut : Pattern) :
    ∀ rule ∈ common operand cut symbolWords, rule.WellFormed wordSize maxWords := by
  simp only [common, List.forall_mem_cons]
  refine ⟨labelRule_wellFormed _, dataRule_wellFormed h _, ?_, ?_, addressRule_wellFormed _, ?_,
    ?_, ?_, by simp⟩
  · exact .ofDirective (fun _ => h) (by decide)
  · exact .ofDirective (fun _ => trivial) (by decide)
  · exact .ofDirective (fun _ => trivial) (by decide)
  · exact ⟨fun _ => trivial, fun _ _ => Pattern.beginsWith_lit (by decide)⟩
  · exact ⟨fun _ => trivial, fun _ _ => Pattern.beginsWith_lit (by decide)⟩

/-- The common rules are those of directives and of labels. -/
theorem isDirective_of_mem_common (operand cut : Pattern) (symbolWords : Nat) :
    ∀ rule ∈ common operand cut symbolWords, ∀ caps,
      (rule.action caps).isDirective = true ∨ ∃ name, rule.action caps = .label name := by
  simp only [common, List.forall_mem_cons]
  exact ⟨fun _ => .inr ⟨_, rfl⟩, fun _ => .inl rfl, fun _ => .inl rfl, fun _ => .inl rfl,
    fun _ => .inl rfl, fun _ => .inl rfl, fun _ => .inl rfl, fun _ => .inl rfl,
    List.forall_mem_nil _⟩

/-- What holds of all directives and labels holds of whatever the common rules do. -/
theorem forall_common {operand cut : Pattern} {symbolWords : Nat} {P : Action → Prop}
    (hdirective : ∀ action : Action, action.isDirective = true → P action)
    (hlabel : ∀ name, P (.label name)) :
    ∀ rule ∈ common operand cut symbolWords, ∀ caps, P (rule.action caps) := by
  intro rule hrule caps
  obtain hrule | ⟨name, hrule⟩ := isDirective_of_mem_common operand cut symbolWords rule hrule caps
  · exact hdirective _ hrule
  · rw [hrule]
    exact hlabel name

end Directive

/-! ## The Bitzzy -/

namespace Bitzzy

@[simp] theorem hasWidth_opcode {n : Nat} (op : Op) : (opcode op).HasWidth n ↔ 8 = n := by
  simp [opcode]

@[simp] theorem plain_wellFormed (pattern : Pattern) (op : Op) :
    (plain pattern op).WellFormed 8 4 :=
  .ofWidths [8] (by decide) rfl fun _ => by simp

@[simp] theorem withImmediate_wellFormed (pattern : Pattern) (op : Op) :
    (withImmediate pattern op).WellFormed 8 4 :=
  .ofWidths [8, 8] (by decide) rfl fun _ => by simp

@[simp] theorem withAddress_wellFormed (pattern : Pattern) (op : Op) :
    (withAddress pattern op).WellFormed 8 4 :=
  .ofWidths [8, 16] (by decide) rfl fun _ => by simp

@[simp] theorem withBoth_wellFormed (pattern : Pattern) (op : Op) :
    (withBoth pattern op).WellFormed 8 4 :=
  .ofWidths [8, 16, 8] (by decide) rfl fun _ => by simp

@[simp] theorem refused_wellFormed (pattern : Pattern) (mnemonic first second : String) :
    (refused pattern mnemonic first second).WellFormed 8 4 :=
  .ofAction fun _ => ⟨trivial, rfl⟩

theorem respelled_wellFormed (pattern : Pattern) {s : String} (t : Captures → String)
    (h : Unpointed s) : (respelled pattern fun caps => s ++ t caps).WellFormed 8 4 :=
  .ofExpansion fun caps => by simpa using h.append (t caps)

theorem control_wellFormed : ∀ rule ∈ control, rule.WellFormed 8 4 := by
  simp only [control, List.forall_mem_append, List.forall_mem_cons, List.forall_mem_map]
  simp

theorem exchanges_wellFormed : ∀ rule ∈ exchanges, rule.WellFormed 8 4 := by
  intro rule h
  obtain ⟨⟨a, b⟩, _, hrule⟩ := List.mem_flatMap.mp h
  rcases List.mem_pair.mp hrule with rfl | rfl
  · exact plain_wellFormed _ _
  · exact respelled_wellFormed _ _ (by decide)

theorem comparisons_wellFormed (ifZero ifGreater zeroName greaterName : String) (call : Bool) :
    ∀ rule ∈ comparisons ifZero ifGreater zeroName greaterName call, rule.WellFormed 8 4 := by
  simp [comparisons, or_imp, forall_and]

theorem conditionalJumps_wellFormed : ∀ rule ∈ conditionalJumps, rule.WellFormed 8 4 := by
  simp only [conditionalJumps, List.forall_mem_append]
  refine ⟨⟨comparisons_wellFormed _ _ _ _ _, ?_⟩, by simp⟩
  intro rule h
  obtain ⟨⟨a, b⟩, _, hrule⟩ := List.mem_flatMap.mp h
  rcases List.mem_pair.mp hrule with rfl | rfl
  · exact withAddress_wellFormed _ _
  · refine .ofExpansion fun caps => List.forall_mem_singleton.mpr ?_
    exact Unpointed.append (.append (.append (by decide) _) _) _

theorem transfers_wellFormed : ∀ rule ∈ transfers, rule.WellFormed 8 4 := by
  simp only [transfers, List.forall_mem_append, List.forall_mem_map, Prod.forall]
  simp

theorem arithmetic_wellFormed : ∀ rule ∈ arithmetic, rule.WellFormed 8 4 := by
  simp only [arithmetic, List.forall_mem_append, List.forall_mem_flatMap, List.forall_mem_map,
    Prod.forall]
  simp

theorem conditionalCalls_wellFormed : ∀ rule ∈ conditionalCalls, rule.WellFormed 8 4 := by
  simp only [conditionalCalls, List.forall_mem_append, List.forall_mem_cons, List.forall_mem_map]
  refine ⟨⟨comparisons_wellFormed _ _ _ _ _, by simp, ?_, by simp⟩, by simp⟩
  exact respelled_wellFormed _ _ (by decide)

theorem rules_wellFormed : ∀ rule ∈ dialect.rules, rule.WellFormed 8 4 := by
  simp only [dialect, instructions, List.forall_mem_append]
  exact ⟨⟨⟨⟨⟨⟨control_wellFormed, exchanges_wellFormed⟩, conditionalJumps_wellFormed⟩,
    conditionalCalls_wellFormed⟩, transfers_wellFormed⟩, arithmetic_wellFormed⟩,
    Directive.common_wellFormed (by decide) _ _⟩


end Bitzzy

/-! ## The V8 and the Lodestar -/

namespace V8

@[simp] theorem hasWidth_registerBits (name : String) :
    (Field.register (registerBits name)).HasWidth 3 := by
  intro found hfound
  unfold registerBits at hfound
  split at hfound
  · rw [← Except.ok.inj hfound]
    exact Bits.length_ofNat 3 _
  · simp at hfound

theorem plain_wellFormed (mnemonic : String) {opcode : String} (h : opcode.toList.length = 8) :
    (plain mnemonic opcode).WellFormed 8 2 :=
  .ofWidths [8] (by decide) rfl fun _ => by simp [h]

theorem jump_wellFormed (target : Pattern) (mnemonic : String) {opcode : String}
    (h : opcode.toList.length = 8) : (jump target mnemonic opcode).WellFormed 8 2 :=
  .ofWidths [8, 8] (by decide) rfl fun _ => by simp [h]

theorem onRegister_wellFormed (operands : Pattern) (mnemonic : String) {opcode : String}
    (h : opcode.toList.length = 5) : (onRegister operands mnemonic opcode).WellFormed 8 2 :=
  .ofWidths [5, 3] (by decide) rfl fun _ => by simp [h]

theorem memory_wellFormed (mnemonic : String) (source : Pattern) {opcode : String}
    (h : opcode.toList.length = 5) : (memory mnemonic source opcode).WellFormed 8 2 :=
  .ofWidths [5, 3, 8] (by decide) rfl fun _ => by simp [h]

theorem move_wellFormed : move.WellFormed 8 2 :=
  .ofWidths [2, 3, 3] (by decide) rfl fun _ => by simp

/-- The opcodes in the tables have the widths that the rules expect. -/
theorem codes_length :
    (∀ e ∈ plainCodes, e.2.toList.length = 8) ∧ (∀ e ∈ jumpCodes, e.2.toList.length = 8) ∧
      (∀ e ∈ accumulatorCodes, e.2.toList.length = 5) ∧
      (∀ e ∈ registerCodes, e.2.toList.length = 5) := by
  decide

theorem rules_wellFormed : ∀ rule ∈ dialect.rules, rule.WellFormed 8 2 := by
  obtain ⟨hplain, hjump, haccumulator, hregister⟩ := codes_length
  simp only [dialect, instructions, List.forall_mem_append, List.forall_mem_map,
    List.forall_mem_cons]
  refine ⟨⟨⟨⟨⟨⟨fun e he => plain_wellFormed _ (hplain e he), ?_⟩,
    fun e he => jump_wellFormed _ _ (hjump e he)⟩,
    fun e he => onRegister_wellFormed _ _ (haccumulator e he)⟩,
    fun e he => onRegister_wellFormed _ _ (hregister e he)⟩, ?_⟩,
    Directive.common_wellFormed (by decide) _ _⟩
  · exact ⟨jump_wellFormed _ _ (by decide), jump_wellFormed _ _ (by decide), by simp⟩
  · refine ⟨move_wellFormed, ?_, ?_, ?_, ?_, ?_, ?_, ?_, ?_, ?_, by simp⟩
    iterate 7 exact memory_wellFormed _ _ (by decide)
    iterate 2 exact onRegister_wellFormed _ _ (by decide)

end V8

namespace Lodestar

@[simp] theorem hasWidth_registerBits (name : String) :
    (Field.register (registerBits name)).HasWidth 3 := by
  intro found hfound
  unfold registerBits at hfound
  split at hfound
  · rw [← Except.ok.inj hfound]
    exact Bits.length_ofNat 3 _
  · simp at hfound

theorem onRegister_wellFormed (operands : Pattern) (mnemonic : String) {opcode : String}
    (h : opcode.toList.length = 5) : (onRegister operands mnemonic opcode).WellFormed 8 2 :=
  .ofWidths [5, 3] (by decide) rfl fun _ => by simp [h]

theorem memory_wellFormed (mnemonic : String) (source : Pattern) {opcode : String}
    (h : opcode.toList.length = 5) : (memory mnemonic source opcode).WellFormed 8 2 :=
  .ofWidths [5, 3, 8] (by decide) rfl fun _ => by simp [h]

theorem move_wellFormed : move.WellFormed 8 2 :=
  .ofWidths [2, 3, 3] (by decide) rfl fun _ => by simp

theorem rules_wellFormed : ∀ rule ∈ dialect.rules, rule.WellFormed 8 2 := by
  obtain ⟨hplain, hjump, haccumulator, hregister⟩ := V8.codes_length
  simp only [dialect, rules, List.forall_mem_append, List.forall_mem_map, List.forall_mem_cons]
  refine ⟨⟨⟨⟨⟨⟨V8.plain_wellFormed _ (by decide), V8.plain_wellFormed _ (by decide),
    V8.jump_wellFormed _ _ (by decide), by simp⟩,
    fun e he => V8.jump_wellFormed _ _ (hjump e he)⟩,
    fun e he => V8.plain_wellFormed _ (hplain e (List.mem_of_mem_drop he))⟩,
    fun e he => onRegister_wellFormed _ _ (haccumulator e he)⟩,
    fun e he => onRegister_wellFormed _ _ (hregister e he)⟩, ?_⟩
  refine ⟨move_wellFormed, ?_, ?_, ?_, ?_, ?_, ?_, ?_, ?_, ?_,
    Directive.dataRule_wellFormed (by decide) _, Directive.addressRule_wellFormed _,
    Directive.labelRule_wellFormed _, by simp⟩
  iterate 7 exact memory_wellFormed _ _ (by decide)
  iterate 2 exact onRegister_wellFormed _ _ (by decide)

end Lodestar

/-! ## The Parva -/

namespace Parva

@[simp] theorem hasWidth_basic (written : String) :
    (Field.register (basic written)).HasWidth 3 := by
  intro found hfound
  simp only [basic] at hfound
  split at hfound
  · rw [← Except.ok.inj hfound]
    exact Bits.length_ofNat 3 _
  · split at hfound
    · simp at hfound
    · split at hfound <;> simp at hfound

@[simp] theorem hasWidth_single (written : String) :
    (Field.register (single written)).HasWidth 4 := by
  intro found hfound
  simp only [single] at hfound
  split at hfound
  · rw [← Except.ok.inj hfound]
    exact Bits.length_ofNat 4 _
  · split at hfound <;> simp at hfound

@[simp] theorem hasWidth_double (written : String) :
    (Field.register (double written)).HasWidth 3 := by
  intro found hfound
  simp only [double] at hfound
  split at hfound
  · rw [← Except.ok.inj hfound]
    exact Bits.length_ofNat 3 _
  · split at hfound <;> simp at hfound

@[simp] theorem hasWidth_leading (written : String) :
    (Field.register (leading (basic written))).HasWidth 1 := by
  intro found hfound
  cases hbasic : basic written with
  | error e => simp [leading, hbasic, Except.map] at hfound
  | ok bits =>
    have hbits : bits.length = 3 := hasWidth_basic written bits hbasic
    rw [leading, hbasic] at hfound
    rw [← Except.ok.inj hfound, List.length_take, hbits]
    rfl

@[simp] theorem hasWidth_trailing (written : String) :
    (Field.register (trailing (basic written))).HasWidth 2 := by
  intro found hfound
  cases hbasic : basic written with
  | error e => simp [trailing, hbasic, Except.map] at hfound
  | ok bits =>
    have hbits : bits.length = 3 := hasWidth_basic written bits hbasic
    rw [trailing, hbasic] at hfound
    rw [← Except.ok.inj hfound, List.length_drop, hbits]

@[simp] theorem hasWidth_unused {n : Nat} : unused.HasWidth n ↔ 9 = n := by
  simp [unused]

/-- A rule that places one word whose fields have the given widths. -/
theorem wellFormed_word {pattern : Pattern} {fields : Captures → List Field} (widths : List Nat)
    (htotal : widths.sum = 24)
    (h : ∀ caps, List.Forall₂ (fun field n => field.HasWidth n) (fields caps) widths) :
    Rule.WellFormed 24 1 ⟨pattern, fun caps => word (fields caps)⟩ :=
  .ofWidths widths (by decide) (by simpa using htotal) h

theorem operation_wellFormed (mnemonic : String) {bits : String} (signed : Bool)
    (h : bits.toList.length = 3) :
    ∀ rule ∈ operation mnemonic bits signed, rule.WellFormed 24 1 := by
  simp only [operation, List.forall_mem_cons]
  refine ⟨?_, ?_, by simp⟩
  · exact wellFormed_word [1, 3, 1, 4, 3, 3, 9] rfl fun caps => by simp [h]
  · exact wellFormed_word [1, 3, 1, 4, 3, 12] rfl fun caps => by simp [h]

theorem product_wellFormed (mnemonic : String) {bits : String} (h : bits.toList.length = 2) :
    ∀ rule ∈ product mnemonic bits, rule.WellFormed 24 1 := by
  simp only [product, List.forall_mem_cons]
  refine ⟨?_, ?_, by simp⟩
  · exact wellFormed_word [1, 2, 1, 3, 2, 3, 3, 9] rfl fun caps => by simp [h]
  · exact wellFormed_word [1, 2, 1, 3, 2, 3, 12] rfl fun caps => by simp [h]

theorem subtraction_wellFormed : subtraction.WellFormed 24 1 :=
  wellFormed_word [5, 4, 3, 3, 9] rfl fun caps => by simp

theorem loadUpper_wellFormed : loadUpper.WellFormed 24 1 :=
  wellFormed_word [5, 4, 3, 12] rfl fun caps => by simp

theorem access_wellFormed (mnemonic : String) {bits : String}
    {destination : String → Except Fault Bits} (h : bits.toList.length = 2)
    (hdestination : ∀ name, (Field.register (destination name)).HasWidth 3) :
    ∀ rule ∈ access mnemonic bits destination, rule.WellFormed 24 1 := by
  simp only [access, List.forall_mem_cons]
  refine ⟨?_, ?_, by simp⟩
  · exact wellFormed_word [2, 2, 1, 4, 3, 3, 9] rfl fun caps => by simp [h, hdestination]
  · exact wellFormed_word [2, 2, 1, 4, 3, 12] rfl fun caps => by simp [h, hdestination]

theorem branch_wellFormed (mnemonic : String) {bits : String} (swapped : Bool)
    (h : bits.toList.length = 3) : (branch mnemonic bits swapped).WellFormed 24 1 :=
  wellFormed_word [2, 3, 4, 3, 12] rfl fun caps => by simp [h]

theorem branchSign_wellFormed (mnemonic : String) {bits : String} (h : bits.toList.length = 3) :
    (branchSign mnemonic bits).WellFormed 24 1 :=
  wellFormed_word [2, 3, 4, 3, 12] rfl fun caps => by simp [h]

theorem jump_wellFormed (a b : String) :
    (jump a b).WellFormed 24 1 ∧ (jump a b).isDirective = false := by
  unfold jump
  split
  · exact ⟨⟨by decide, by decide, [4, 1, 4, 3, 3, 9], by simp, rfl⟩, rfl⟩
  · exact ⟨⟨by decide, by decide, [4, 1, 4, 3, 12], by simp, rfl⟩, rfl⟩

theorem loadNumber_wellFormed (d a : String) :
    (loadNumber d a).WellFormed 24 1 ∧ (loadNumber d a).isDirective = false := by
  have hadd : Unpointed s!"addi {d}, zero, {a}" := .append (.append (.append (by decide) _) _) _
  unfold loadNumber
  split
  · exact ⟨trivial, rfl⟩
  · exact ⟨List.forall_mem_singleton.mpr hadd, rfl⟩
  · split
    · exact ⟨trivial, rfl⟩
    · split
      · exact ⟨List.forall_mem_singleton.mpr hadd, rfl⟩
      · refine ⟨List.forall_mem_cons.mpr ⟨?_, List.forall_mem_singleton.mpr ?_⟩, rfl⟩
        · exact .append (.append (.append (by decide) _) _) _
        · exact .append (.append (.append (.append (.append (by decide) _) _) _) _) _

theorem branchAlways_wellFormed (a : String) :
    (branchAlways a).WellFormed 24 1 ∧ (branchAlways a).isDirective = false := by
  unfold branchAlways
  split
  · exact ⟨List.forall_mem_singleton.mpr (.append (.append (by decide) _) _), rfl⟩
  · exact ⟨List.forall_mem_singleton.mpr (.append (by decide) _), rfl⟩

theorem accessAbsolute_wellFormed {mnemonic : String} (h : Unpointed mnemonic) :
    (accessAbsolute mnemonic).WellFormed 24 1 :=
  .ofExpansion fun _ => List.forall_mem_singleton.mpr
    (.append (.append (.append (.append (.append h _) _) _) _) _)

theorem branchZero_wellFormed (mnemonic : String) {real : String} (h : Unpointed real) :
    (branchZero mnemonic real).WellFormed 24 1 :=
  .ofExpansion fun _ => List.forall_mem_singleton.mpr
    (.append (.append (.append (.append h _) _) _) _)

theorem textDirectives_wellFormed : ∀ rule ∈ textDirectives, rule.WellFormed 24 1 := by
  simp only [textDirectives, List.forall_mem_cons]
  refine ⟨?_, ?_, by simp⟩
  · exact .ofDirective (fun _ => trivial) (by decide)
  · exact .ofDirective (fun _ => trivial) (by decide)

theorem rules_wellFormed : ∀ rule ∈ dialect.rules, rule.WellFormed 24 1 := by
  simp only [dialect, instructions, List.forall_mem_append, List.forall_mem_flatMap,
    List.forall_mem_map, and_assoc]
  refine ⟨operation_wellFormed _ _ (by decide), ?_, ?_, ?_, ?_,
    access_wellFormed _ (by decide) hasWidth_basic, access_wellFormed _ (by decide) hasWidth_basic,
    access_wellFormed _ (by decide) hasWidth_double,
    access_wellFormed _ (by decide) hasWidth_double,
    ?_, ?_, ?_, ?_, ?_, ?_, ?_, Directive.common_wellFormed (by decide) _ _,
    textDirectives_wellFormed⟩
  · simp only [List.forall_mem_cons]
    exact ⟨subtraction_wellFormed, loadUpper_wellFormed, by simp⟩
  · exact fun e he => operation_wellFormed _ _ (by revert e; decide)
  · exact fun e he => product_wellFormed _ (by revert e; decide)
  · simp only [List.forall_mem_cons]
    refine ⟨?_, ?_, ?_, by simp⟩
    · exact .ofExpansion fun _ => by decide
    · exact .ofExpansion fun _ => List.forall_mem_singleton.mpr
        (.append (.append (.append (by decide) _) _) _)
    · exact .ofAction fun _ => loadNumber_wellFormed _ _
  · exact fun mnemonic h => accessAbsolute_wellFormed (by revert mnemonic; decide)
  · simp only [List.forall_mem_cons]
    refine ⟨?_, ?_, by simp⟩
    · refine .ofExpansion fun _ => List.forall_mem_cons.mpr ⟨.append (.append (by decide) _) _, ?_⟩
      decide
    · refine .ofExpansion fun _ => List.forall_mem_cons.mpr ⟨by decide, ?_⟩
      exact List.forall_mem_singleton.mpr (.append (.append (by decide) _) _)
  · exact fun e he => branch_wellFormed _ _ (by revert e; decide)
  · exact fun e he => branch_wellFormed _ _ (by revert e; decide)
  · exact fun e he => branchZero_wellFormed _ (by revert e; decide)
  · exact fun e he => branchSign_wellFormed _ (by revert e; decide)
  · simp only [List.forall_mem_cons]
    refine ⟨?_, ?_, ?_, ?_, ?_, ?_, by simp⟩
    · exact .ofAction fun _ => jump_wellFormed _ _
    · exact .ofExpansion fun _ => List.forall_mem_singleton.mpr (.append (.append (by decide) _) _)
    · exact .ofAction fun _ => branchAlways_wellFormed _
    · exact .ofExpansion fun _ => by decide
    · refine .ofExpansion fun _ => List.forall_mem_cons.mpr ⟨by decide, ?_⟩
      exact List.forall_mem_singleton.mpr (.append (by decide) _)
    · exact .ofExpansion fun _ => by decide

end Parva

/-! ## Dialects -/

/-- A dialect whose rules agree with its words, in which every character encoding fits a word. -/
structure Dialect.WellFormed (dialect : Dialect) (maxWords : Nat) : Prop where
  rules : ∀ rule ∈ dialect.rules, rule.WellFormed dialect.wordSize maxWords
  one_le_maxWords : 1 ≤ maxWords
  eight_le_wordSize : 8 ≤ dialect.wordSize
  fixedWidth : ∀ width, dialect.fixedWidth = some width →
    width = dialect.wordSize ∧ maxWords = 1
  encoding : ∀ encoding, dialect.encoding = some encoding → encoding.width ≤ dialect.wordSize

namespace Dialect.WellFormed

variable {dialect : Dialect} {maxWords : Nat}

/-- Whatever the rules do with a text is well formed. -/
theorem action (h : dialect.WellFormed maxWords) {text : String} {action : Action}
    (hfind : Rule.find? dialect.rules text.toList = some action) :
    action.WellFormed dialect.wordSize maxWords := by
  obtain ⟨rule, hmem, caps, _, rfl⟩ := Rule.exists_of_find? hfind
  exact (h.rules rule hmem).action caps

/-- A text that does not begin with a point is no directive. -/
theorem isDirective_eq_false (h : dialect.WellFormed maxWords) {text : String} {action : Action}
    (htext : Unpointed text) (hfind : Rule.find? dialect.rules text.toList = some action) :
    action.isDirective = false := by
  obtain ⟨rule, hmem, caps, hmatch, rfl⟩ := Rule.exists_of_find? hfind
  by_contra hdirective
  have hbegins := (h.rules rule hmem).directive caps (by simpa using hdirective)
  obtain ⟨c, rest, hcs, hpoint⟩ := hbegins.head_of_match? hmatch
  simp [Unpointed, hcs, hpoint] at htext

end Dialect.WellFormed

theorem Architecture.wellFormed {a : Architecture} (ha : a ∈ Architecture.all) :
    a.dialect.WellFormed a.maxWords := by
  simp only [all, List.mem_cons, List.not_mem_nil, or_false] at ha
  rcases ha with rfl | rfl | rfl | rfl
  · exact ⟨Bitzzy.rules_wellFormed, by decide, by decide, nofun, nofun⟩
  · exact ⟨V8.rules_wellFormed, by decide, by decide, nofun, nofun⟩
  · exact ⟨Lodestar.rules_wellFormed, by decide, by decide, nofun, nofun⟩
  · refine ⟨Parva.rules_wellFormed, by decide, by decide, ?_, ?_⟩
    · rintro width hwidth
      exact ⟨(Option.some.inj hwidth).symm, rfl⟩
    · rintro encoding hencoding
      rw [← Option.some.inj hencoding]
      decide

end PocketAsm

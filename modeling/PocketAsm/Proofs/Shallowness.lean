/-
  Proofs/Shallowness.lean --- expansions are shallow.

  The V8 and the Lodestar expand no line.  The Bitzzy expands a line with two
  registers in the wrong order into one in which they are in order, and such a
  line is not expanded (`Bitzzy.bounded`).  The Parva nests two expansions at
  most (`Parva.bounded`).  So the limit on expansions is never reached, and no
  line but a directive stands for more than two instructions
  (`expansions_are_shallow`).
-/
import PocketAsm.Proofs.Bitzzy.Lines
import PocketAsm.Proofs.Parva.Expansions

set_option autoImplicit false

namespace PocketAsm

/-- The line is a directive. -/
def Dialect.isDirective (dialect : Dialect) (raw : String) : Bool :=
  match Rule.find? dialect.rules (dialect.instructionOf raw).toList with
  | some action => action.isDirective
  | none => false

/-! ## The common directives -/

namespace Directive

variable (operand cut : Pattern) (symbolWords : Nat)

@[simp] theorem final_labelRule : (labelRule operand).Final := nofun

@[simp] theorem final_dataRule : (dataRule cut symbolWords).Final := nofun

@[simp] theorem final_addressRule : (addressRule operand).Final := nofun

@[simp] theorem neverTooDeep_labelRule : (labelRule operand).NeverTooDeep := fun _ => trivial

@[simp] theorem neverTooDeep_dataRule : (dataRule cut symbolWords).NeverTooDeep := fun _ => trivial

@[simp] theorem neverTooDeep_addressRule : (addressRule operand).NeverTooDeep := fun _ => trivial

theorem final_common : ∀ rule ∈ common operand cut symbolWords, rule.Final :=
  forall_common (P := fun action => ∀ lines, action ≠ .expand lines)
    (fun action h lines hexpand => by simp [hexpand, Action.isDirective] at h) fun _ _ => nofun

theorem neverTooDeep_common : ∀ rule ∈ common operand cut symbolWords, rule.NeverTooDeep :=
  forall_common (P := Action.NeverTooDeep)
    (fun action h => by cases action <;> trivial) fun _ => trivial

end Directive

/-! ## Rules that emit fields -/

/-- The rule emits fields whose registers are not reported as expansions. -/
def Rule.Emits (rule : Rule) : Prop :=
  ∀ caps, ∃ fields words mark, rule.action caps = .emit fields words mark ∧
    ∀ field ∈ fields, field.NeverTooDeep

namespace Rule.Emits

theorem of_fields {pattern : Pattern} {fields : Captures → List Field} {words : Nat}
    (h : ∀ caps, ∀ field ∈ fields caps, field.NeverTooDeep) :
    Rule.Emits ⟨pattern, fun caps => .emit (fields caps) words none⟩ :=
  fun caps => ⟨fields caps, words, none, rfl, h caps⟩

variable {rule : Rule}

theorem final (h : rule.Emits) : rule.Final := by
  intro caps lines hexpand
  obtain ⟨fields, words, mark, hemit, -⟩ := h caps
  rw [hemit] at hexpand
  cases hexpand

theorem neverTooDeep (h : rule.Emits) : rule.NeverTooDeep := by
  intro caps
  obtain ⟨fields, words, mark, hemit, hfields⟩ := h caps
  rw [hemit]
  exact hfields

end Rule.Emits

/-! ## The V8 and the Lodestar -/

section Fields

@[simp] theorem neverTooDeep_bits (bits : Bits) : (Field.bits bits).NeverTooDeep := nofun

@[simp] theorem neverTooDeep_code (digits : String) : (Operand.code digits).NeverTooDeep := nofun

@[simp] theorem neverTooDeep_value (text : String) (width : Nat) (signed relative : Bool) :
    (Field.value text width signed relative).NeverTooDeep := nofun

end Fields

namespace V8

@[simp] theorem neverTooDeep_registerBits (name : String) :
    (Field.register (registerBits name)).NeverTooDeep := by
  rintro e he
  unfold registerBits at he
  split at he
  · simp at he
  · cases he
    rfl

@[simp] theorem emits_plain (mnemonic opcode : String) : (plain mnemonic opcode).Emits :=
  .of_fields fun _ => by simp

@[simp] theorem emits_jump (target : Pattern) (mnemonic opcode : String) :
    (jump target mnemonic opcode).Emits :=
  .of_fields fun _ => by simp

@[simp] theorem emits_onRegister (operands : Pattern) (mnemonic opcode : String) :
    (onRegister operands mnemonic opcode).Emits :=
  .of_fields fun _ => by simp

@[simp] theorem emits_memory (mnemonic : String) (source : Pattern) (opcode : String) :
    (memory mnemonic source opcode).Emits :=
  .of_fields fun _ => by simp

@[simp] theorem emits_move : move.Emits :=
  .of_fields fun _ => by simp

theorem emits_instructions : ∀ rule ∈ instructions, rule.Emits := by
  simp only [instructions, List.forall_mem_append, List.forall_mem_map]
  simp

theorem final_rules : ∀ rule ∈ dialect.rules, rule.Final :=
  List.forall_mem_append.mpr
    ⟨fun rule h => (emits_instructions rule h).final, Directive.final_common _ _ _⟩

theorem neverTooDeep_rules : ∀ rule ∈ dialect.rules, rule.NeverTooDeep :=
  List.forall_mem_append.mpr
    ⟨fun rule h => (emits_instructions rule h).neverTooDeep, Directive.neverTooDeep_common _ _ _⟩

end V8

namespace Lodestar

@[simp] theorem neverTooDeep_registerBits (name : String) :
    (Field.register (registerBits name)).NeverTooDeep := by
  rintro e he
  unfold registerBits at he
  split at he
  · simp at he
  · cases he
    rfl

@[simp] theorem emits_onRegister (operands : Pattern) (mnemonic opcode : String) :
    (onRegister operands mnemonic opcode).Emits :=
  .of_fields fun _ => by simp

@[simp] theorem emits_memory (mnemonic : String) (source : Pattern) (opcode : String) :
    (memory mnemonic source opcode).Emits :=
  .of_fields fun _ => by simp

@[simp] theorem emits_move : move.Emits :=
  .of_fields fun _ => by simp

theorem final_rules : ∀ rule ∈ dialect.rules, rule.Final := by
  simp only [dialect, rules, List.forall_mem_append, List.forall_mem_map]
  simp [Rule.Emits.final]

theorem neverTooDeep_rules : ∀ rule ∈ dialect.rules, rule.NeverTooDeep := by
  simp only [dialect, rules, List.forall_mem_append, List.forall_mem_map]
  simp [Rule.Emits.neverTooDeep]

end Lodestar

/-! ## The Parva -/

namespace Parva

@[simp] theorem neverTooDeep_basic (written : String) :
    (Field.register (basic written)).NeverTooDeep := by
  rintro e he
  simp only [basic, Field.register.injEq] at he
  split at he
  · simp at he
  · split at he
    · cases he
      rfl
    · split at he <;> cases he <;> rfl

@[simp] theorem neverTooDeep_single (written : String) :
    (Field.register (single written)).NeverTooDeep := by
  rintro e he
  simp only [single, Field.register.injEq] at he
  split at he
  · simp at he
  · split at he <;> cases he <;> rfl

@[simp] theorem neverTooDeep_double (written : String) :
    (Field.register (double written)).NeverTooDeep := by
  rintro e he
  simp only [double, Field.register.injEq] at he
  split at he
  · simp at he
  · split at he <;> cases he <;> rfl

/-- A part of a register's bits has its faults. -/
theorem neverTooDeep_map {code : Except Fault Bits} (part : Bits → Bits)
    (h : (Field.register code).NeverTooDeep) : (Field.register (code.map part)).NeverTooDeep := by
  rintro e he
  cases code with
  | ok bits => simp [Except.map] at he
  | error fault => exact h e (by simpa [Except.map] using he)

theorem neverTooDeep_loadNumber (d a : String) : (loadNumber d a).NeverTooDeep := by
  unfold loadNumber
  split
  · rename_i e he
    exact Fault.isTooDeep_of_isOperand (NumberSyntax.isOperand_of_read he)
  · trivial
  · split
    · rename_i e he
      exact Fault.isTooDeep_of_isOperand (Bits.isOperand_of_encodeField he)
    · split <;> trivial

theorem neverTooDeep_jump (a b : String) : (jump a b).NeverTooDeep := by
  unfold jump
  split <;> simp [word, Action.NeverTooDeep, unused]

theorem neverTooDeep_branchAlways (a : String) : (branchAlways a).NeverTooDeep := by
  unfold branchAlways
  split <;> trivial

theorem neverTooDeep_operation (mnemonic bits : String) (signed : Bool) :
    ∀ rule ∈ operation mnemonic bits signed, rule.NeverTooDeep := by
  simp [operation, Rule.NeverTooDeep, word, Action.NeverTooDeep, unused]

theorem neverTooDeep_product (mnemonic bits : String) :
    ∀ rule ∈ product mnemonic bits, rule.NeverTooDeep := by
  have hpart (name : String) : (Field.register (leading (basic name))).NeverTooDeep ∧
      (Field.register (trailing (basic name))).NeverTooDeep :=
    ⟨neverTooDeep_map _ (neverTooDeep_basic name), neverTooDeep_map _ (neverTooDeep_basic name)⟩
  simp [product, Rule.NeverTooDeep, word, Action.NeverTooDeep, unused, hpart]

theorem neverTooDeep_access (mnemonic bits : String) {destination : String → Except Fault Bits}
    (h : ∀ name, (Field.register (destination name)).NeverTooDeep) :
    ∀ rule ∈ access mnemonic bits destination, rule.NeverTooDeep := by
  simp [access, Rule.NeverTooDeep, word, Action.NeverTooDeep, unused, h]

theorem neverTooDeep_rules : ∀ rule ∈ dialect.rules, rule.NeverTooDeep := by
  simp only [dialect, instructions, List.forall_mem_append, List.forall_mem_flatMap,
    List.forall_mem_map, and_assoc]
  refine ⟨neverTooDeep_operation _ _ _, ?_, fun e _ => neverTooDeep_operation _ _ _,
    fun e _ => neverTooDeep_product _ _, ?_, neverTooDeep_access _ _ neverTooDeep_basic,
    neverTooDeep_access _ _ neverTooDeep_basic, neverTooDeep_access _ _ neverTooDeep_double,
    neverTooDeep_access _ _ neverTooDeep_double, fun _ _ _ => trivial, ?_, ?_, ?_,
    fun _ _ _ => trivial, ?_, ?_, Directive.neverTooDeep_common _ _ _, ?_⟩
  · simp [subtraction, loadUpper, Rule.NeverTooDeep, word, Action.NeverTooDeep, unused]
  · simp only [List.forall_mem_cons, Rule.NeverTooDeep]
    exact ⟨fun _ => trivial, fun _ => trivial, fun _ => neverTooDeep_loadNumber _ _, by simp⟩
  · simp [Rule.NeverTooDeep, Action.NeverTooDeep]
  · simp [branch, Rule.NeverTooDeep, word, Action.NeverTooDeep]
  · simp [branch, Rule.NeverTooDeep, word, Action.NeverTooDeep]
  · simp [branchSign, Rule.NeverTooDeep, word, Action.NeverTooDeep]
  · simp only [List.forall_mem_cons, Rule.NeverTooDeep]
    exact ⟨fun _ => neverTooDeep_jump _ _, fun _ => trivial, fun _ => neverTooDeep_branchAlways _,
      fun _ => trivial, fun _ => trivial, fun _ => trivial, by simp⟩
  · simp [textDirectives, Rule.NeverTooDeep, Action.NeverTooDeep]

end Parva

/-! ## The Bitzzy -/

namespace Bitzzy

open Operand Pattern Text

/-- The first two operands of a line are these registers. -/
def Names (cs : List Char) (r r' : Reg) : Prop :=
  (((tokens cs).drop 1).take 2).map Statement.register? = [some r, some r']

instance (cs : List Char) (r r' : Reg) : Decidable (Names cs r r') :=
  inferInstanceAs (Decidable (_ = _))

theorem Names.unique {cs : List Char} {r r' s s' : Reg} (h : Names cs r r') (h' : Names cs s s') :
    r = s ∧ r' = s' := by
  simpa using h.symm.trans h'

/-- Operands that follow do not change the first two. -/
theorem Names.append {listed : String} {r r' : Reg} (h : Names listed.toList r r')
    (hopen : '(' ∉ listed.toList) (rest : String) :
    Names (listed ++ ", " ++ rest).toList r r' := by
  have hlength := congrArg List.length h
  simp only [List.length_map, List.length_take, List.length_drop, List.length_cons,
    List.length_nil] at hlength
  rw [Names, String.toList_append, String.toList_append, List.append_assoc,
    tokens_append_gap hopen gap_comma, List.drop_append_of_le_length (by omega),
    List.take_append_of_le_length (by rw [List.length_drop]; omega)]
  exact h

/-- The action is no expansion, or it writes the registers of its line in the other order, in which
they belong. -/
def Reorders (cs : List Char) : Action → Prop
  | .expand lines => ∃ line r r', lines = [line] ∧ (r, r') ∈ pairs ∧ Names cs r' r ∧
      Names line.toList r r'
  | _ => True

/-- The rule does so with every line that it matches, and reports none as too deep. -/
structure Orderly (rule : Rule) : Prop where
  reorders : ∀ cs caps, rule.pattern.match? cs = some caps → Reorders cs (rule.action caps)
  neverTooDeep : rule.NeverTooDeep

theorem names_of_match? {mnemonic : String} (hmnemonic : IsMnemonic mnemonic) {r r' : Reg}
    {shapes : List Shape} {cs : List Char} {caps : Captures}
    (h : (line mnemonic ((.register r :: .register r' :: shapes).map Shape.pattern)).match? cs =
      some caps) : Names cs r r' := by
  obtain ⟨ops, haccepts, -⟩ := accepts_of_match? h
  obtain ⟨os, hspelled, heach⟩ := accepts_line.mp haccepts
  obtain ⟨hfits, -, hos⟩ := fitEach_of_acceptsEach heach
  obtain ⟨w, -, htokens⟩ := tokens_of_spelled hmnemonic hos hspelled
  obtain ⟨o, rest, ho, hrest, hcons⟩ := List.forall₂_cons_left_iff.mp hfits
  obtain ⟨o', rest', ho', -, rfl⟩ := List.forall₂_cons_left_iff.mp hrest
  rw [Names, htokens, hcons]
  simp [ho.1, ho'.1]

/-- Two registers that are spelled anew, with further operands or without. -/
theorem orderly_respelled {mnemonic : String} (hmnemonic : IsMnemonic mnemonic)
    (shapes : List Shape) {r r' : Reg} (hpair : (r, r') ∈ pairs) {text : Captures → String}
    (htext : ∀ caps, Names (text caps).toList r r') :
    Orderly (respelled
      (line mnemonic ((.register r' :: .register r :: shapes).map Shape.pattern)) text) where
  reorders _ caps hmatch :=
    ⟨text caps, r, r', rfl, hpair, names_of_match? hmnemonic hmatch, htext caps⟩
  neverTooDeep _ := trivial

/-- A rule that expands no line leaves the registers as they are. -/
theorem orderly_of_final {rule : Rule} (hfinal : rule.Final) (hnever : rule.NeverTooDeep) :
    Orderly rule where
  reorders cs caps _ := by
    cases haction : rule.action caps with
    | expand lines => exact absurd haction (hfinal caps lines)
    | _ => trivial
  neverTooDeep := hnever

/-- A rule that places one instruction. -/
theorem orderly_emit {pattern : Pattern} {fields : Captures → List Field} {words : Nat}
    (h : ∀ caps, ∀ field ∈ fields caps, field.NeverTooDeep) :
    Orderly ⟨pattern, fun caps => .emit (fields caps) words none⟩ :=
  orderly_of_final (fun _ _ => nofun) h

@[simp] theorem orderly_plain (pattern : Pattern) (op : Op) : Orderly (plain pattern op) :=
  orderly_emit fun _ => by simp [opcode]

@[simp] theorem orderly_withImmediate (pattern : Pattern) (op : Op) :
    Orderly (withImmediate pattern op) :=
  orderly_emit fun _ => by simp [opcode]

@[simp] theorem orderly_withAddress (pattern : Pattern) (op : Op) :
    Orderly (withAddress pattern op) :=
  orderly_emit fun _ => by simp [opcode]

@[simp] theorem orderly_withBoth (pattern : Pattern) (op : Op) : Orderly (withBoth pattern op) :=
  orderly_emit fun _ => by simp [opcode]

@[simp] theorem orderly_refused (pattern : Pattern) (mnemonic first second : String) :
    Orderly (refused pattern mnemonic first second) :=
  orderly_of_final (fun _ _ => nofun) fun _ => rfl

theorem orderly_exchanges : ∀ rule ∈ exchanges, Orderly rule := by
  have hnames : ∀ e ∈ pairs, Names ("SWP " ++ inOrder e.1 e.2).toList e.1 e.2 := by decide
  intro rule h
  obtain ⟨⟨r, r'⟩, hpair, hrule⟩ := List.mem_flatMap.mp h
  rcases List.mem_pair.mp hrule with rfl | rfl
  · exact orderly_plain _ _
  · exact orderly_respelled (by decide) [] hpair fun _ => hnames (r, r') hpair

theorem orderly_conditionalJumps : ∀ rule ∈ conditionalJumps, Orderly rule := by
  have hnames : ∀ e ∈ pairs, Names ("JMPEQ " ++ inOrder e.1 e.2).toList e.1 e.2 ∧
      '(' ∉ ("JMPEQ " ++ inOrder e.1 e.2).toList := by decide
  simp only [conditionalJumps, List.forall_mem_append]
  refine ⟨⟨by simp [comparisons, or_imp, forall_and], ?_⟩, by simp⟩
  intro rule h
  obtain ⟨⟨r, r'⟩, hpair, hrule⟩ := List.mem_flatMap.mp h
  rcases List.mem_pair.mp hrule with rfl | rfl
  · exact orderly_withAddress _ _
  · exact orderly_respelled (by decide) [.address .a] hpair fun caps =>
      (hnames _ hpair).1.append (hnames _ hpair).2 _

theorem orderly_conditionalCalls : ∀ rule ∈ conditionalCalls, Orderly rule := by
  simp only [conditionalCalls, List.forall_mem_append, List.forall_mem_cons, List.forall_mem_map]
  refine ⟨⟨by simp [comparisons, or_imp, forall_and], by simp, ?_, by simp⟩, by simp⟩
  have hpair : (Reg.x, Reg.y) ∈ pairs := by decide
  have hnames : Names "JSREQ X, Y".toList .x .y := by decide
  have hlisted : "JSREQ X, Y, " = "JSREQ X, Y" ++ ", " := by decide
  refine orderly_respelled (by decide) [.address .a] hpair fun caps => ?_
  rw [hlisted]
  exact hnames.append (by decide) _

theorem orderly_rules : ∀ rule ∈ dialect.rules, Orderly rule := by
  simp only [dialect, instructions, List.forall_mem_append]
  refine ⟨⟨⟨⟨⟨⟨?_, orderly_exchanges⟩, orderly_conditionalJumps⟩,
    orderly_conditionalCalls⟩, ?_⟩, ?_⟩,
    fun rule h => orderly_of_final (Directive.final_common _ _ _ rule h)
      (Directive.neverTooDeep_common _ _ _ rule h)⟩
  · simp only [control, List.forall_mem_append, List.forall_mem_cons, List.forall_mem_map]
    simp
  · simp only [transfers, List.forall_mem_append, List.forall_mem_map, Prod.forall]
    simp
  · simp only [arithmetic, List.forall_mem_append, List.forall_mem_flatMap, List.forall_mem_map,
      Prod.forall]
    simp

/-- A line is expanded once at most: the registers of an expansion are in order. -/
theorem bounded (text : String) : dialect.Bounded 1 1 text := by
  have hreorders {text : String} {lines : List String}
      (h : Rule.find? dialect.rules text.toList = some (.expand lines)) :
      Reorders text.toList (.expand lines) := by
    obtain ⟨rule, hmem, caps, hmatch, hexpand⟩ := Rule.exists_of_find? h
    exact hexpand ▸ (orderly_rules rule hmem).reorders _ caps hmatch
  have horder : ∀ e ∈ pairs, (e.2, e.1) ∉ pairs := by decide
  refine .of_lines le_rfl fun lines hfind => ?_
  obtain ⟨line, r, r', rfl, hpair, -, hnames⟩ := hreorders hfind
  refine ⟨le_rfl, List.forall_mem_singleton.mpr ⟨le_rfl, fun lines' hfind' => ?_⟩⟩
  obtain ⟨line', s, s', -, hpair', hnames', -⟩ := hreorders hfind'
  obtain ⟨rfl, rfl⟩ := hnames.unique hnames'
  exact horder _ hpair hpair'

end Bitzzy

/-! ## All targets -/

namespace Architecture

variable {a : Architecture}

theorem bounded (ha : a ∈ Architecture.all) (text : String) : a.dialect.Bounded 2 2 text := by
  simp only [all, List.mem_cons, List.not_mem_nil, or_false] at ha
  rcases ha with rfl | rfl | rfl | rfl
  · exact (Bitzzy.bounded text).mono (by decide) (by decide)
  · exact (Dialect.Bounded.of_final V8.final_rules text).mono (by decide) (by decide)
  · exact (Dialect.Bounded.of_final Lodestar.final_rules text).mono (by decide) (by decide)
  · exact Parva.bounded text

theorem neverTooDeep_rules (ha : a ∈ Architecture.all) :
    ∀ rule ∈ a.dialect.rules, rule.NeverTooDeep := by
  simp only [all, List.mem_cons, List.not_mem_nil, or_false] at ha
  rcases ha with rfl | rfl | rfl | rfl
  · exact fun rule h => (Bitzzy.orderly_rules rule h).neverTooDeep
  · exact V8.neverTooDeep_rules
  · exact Lodestar.neverTooDeep_rules
  · exact Parva.neverTooDeep_rules

end Architecture

namespace Dialect

variable {dialect : Dialect} {maxWords : Nat}

/-- A fault of the first pass is that of a line. -/
theorem exists_line_of_mem_passFaults {d : Diagnostic} (lines : List String) :
    ∀ (number : Nat) (p : Program), d ∈ dialect.passFaults number lines p →
      ∃ n raw q, (dialect.placeLine n raw q).fault = some d.fault := by
  induction lines with
  | nil => intro number p h; simp [passFaults] at h
  | cons raw rest ih =>
    intro number p h
    rw [passFaults_cons] at h
    rcases List.mem_append.mp h with h | h
    · obtain ⟨e, he, rfl⟩ := Option.map_eq_some_iff.mp (Option.mem_toList.mp h)
      exact ⟨number, raw, p, he⟩
    · exact ih _ _ h

/-- A diagnostic is that of an operand in the second pass, or that of a line in the first one. -/
theorem isOperand_or_exists_line (hdialect : dialect.WellFormed maxWords) {text : String}
    {d : Diagnostic} (h : d ∈ (dialect.assemble text).errors) :
    d.fault.isOperand = true ∨ ∃ n raw q, (dialect.placeLine n raw q).fault = some d.fault := by
  rcases List.mem_append.mp h with h | h
  · rw [← firstPass, firstPass_eq hdialect, List.toList_toArray] at h
    exact Or.inr (exists_line_of_mem_passFaults _ _ _ h)
  · exact Or.inl (isOperand_of_mem_failed hdialect h)

theorem isTooDeep_of_placeLine {a : Architecture} (ha : a ∈ Architecture.all) {number : Nat}
    {raw : String} {p : Program} {e : Fault}
    (h : (a.dialect.placeLine number raw p).fault = some e) : e.isTooDeep = false :=
  (Architecture.bounded ha _).isTooDeep_eq_false (Architecture.neverTooDeep_rules ha) (by decide) h

theorem countP_isPlace_placeLine {a : Architecture} (ha : a ∈ Architecture.all) {number : Nat}
    {raw : String} (hline : a.dialect.isDirective raw = false) (p : Program) :
    (a.dialect.placeLine number raw p).edits.countP Edit.isPlace ≤ 2 := by
  refine (Architecture.bounded ha _).countP_isPlace_le (Architecture.wellFormed ha) ?_ _ _ p
  intro action hfind
  rwa [isDirective, hfind] at hline

end Dialect

open Dialect in
/-- Expansions are shallow.  In the dialect of every target, no text leads through more than two
expansions; no text is reported for an expansion that is too deep; and a line that is no directive
places two instructions at most, on every program.  Whatever the rules of a dialect are, a text is
placed by what they say of texts that are `maxExpansions` expansions away at most.  A text that
leads further fails, and if its expansions go on with their first lines, that is what is reported.
-/
theorem expansions_are_shallow :
    (∀ a ∈ Architecture.all,
      (∀ (n : Nat) (text last : String), a.dialect.Unfolds n text last → n ≤ 2) ∧
      (∀ text : String, ∀ d ∈ (a.dialect.assemble text).errors, ∀ line limit,
        d.fault ≠ .tooDeep line limit) ∧
      ∀ (number : Nat) (raw : String) (p : Program), a.dialect.isDirective raw = false →
        (a.dialect.placeLine number raw p).edits.countP Edit.isPlace ≤ 2) ∧
    ∀ (dialect : Dialect) (source : Source) (text : String) (p : Program),
      (∀ rules : List Rule,
        (∀ n line, n ≤ maxExpansions → dialect.Unfolds n text line →
          Rule.find? rules line.toList = Rule.find? dialect.rules line.toList) →
        { dialect with rules := rules }.placeText maxExpansions source text p =
          dialect.placeText maxExpansions source text p) ∧
      (∀ last, dialect.Unfolds (maxExpansions + 1) text last →
        (dialect.placeText maxExpansions source text p).fault ≠ none) ∧
      ∀ last, dialect.follow? (maxExpansions + 1) text = some last →
        dialect.placeText maxExpansions source text p =
          .refused (.tooDeep last maxExpansions) := by
  refine ⟨fun a ha => ⟨fun n text last h => (Architecture.bounded ha text).le_of_unfolds h, ?_,
    fun number raw p h => countP_isPlace_placeLine ha h p⟩, fun dialect source text p =>
    ⟨fun rules h => placeText_congr_rules h source p, fun last h => fault_of_unfolds h source p,
      fun last h => placeText_of_follow h source p⟩⟩
  intro text d hd line limit hfault
  have hnever : d.fault.isTooDeep = false := by
    rcases isOperand_or_exists_line (Architecture.wellFormed ha) hd with h | ⟨n, raw, q, h⟩
    · exact Fault.isTooDeep_of_isOperand h
    · exact isTooDeep_of_placeLine ha h
  rw [hfault] at hnever
  exact Bool.noConfusion hnever

open Dialect in
/-- A `wfi` nests two expansions and a call places two instructions; and where a line is expanded
into itself, the ninth expansion is refused. -/
theorem wfi_nests_two_expansions :
    let loop : Dialect := { Parva.dialect with rules := [⟨.lit "loop", fun _ => .expand ["loop"]⟩] }
    Parva.dialect.Unfolds 2 "wfi" "beq x0, x0, 0" ∧ 2 ≤ 2 ∧
      ((Parva.dialect.placeLine 0 "call 7" (.start none)).edits.countP Edit.isPlace = 2 ∧
        (Parva.dialect.placeLine 0 "call 7" (.start none)).edits.countP Edit.isPlace ≤ 2) ∧
      (∀ d ∈ (Parva.dialect.assemble "wfi").errors, ∀ line limit,
        d.fault ≠ .tooDeep line limit) ∧
      loop.placeText maxExpansions ⟨0, "loop", "loop", "loop"⟩ "loop" (.start none) =
        .refused (.tooDeep "loop" 8) := by
  intro loop
  obtain ⟨htargets, hdialects⟩ := expansions_are_shallow
  obtain ⟨hdepth, hnever, hcount⟩ := htargets .parva (by simp [Architecture.all])
  have hbranch : Rule.find? Parva.dialect.rules "b 0".toList =
      some (.expand ["beq x0, x0, 0"]) := rfl
  have hwfi : Rule.find? Parva.dialect.rules "wfi".toList = some (.expand ["b 0"]) := rfl
  have hchain : Parva.dialect.Unfolds 2 "wfi" "beq x0, x0, 0" :=
    .step (by decide) hwfi (List.mem_singleton_self _)
      (.step (by decide) hbranch (List.mem_singleton_self _) (.refl _))
  obtain ⟨-, -, hrefused⟩ := hdialects loop ⟨0, "loop", "loop", "loop"⟩ "loop" (.start none)
  exact ⟨hchain, hdepth 2 _ _ hchain, ⟨by decide +kernel, hcount 0 "call 7" _ (by decide +kernel)⟩,
    hnever "wfi", hrefused "loop" (by decide +kernel)⟩

end PocketAsm

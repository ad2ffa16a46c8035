/-
  Proofs/Parva/Expansions.lean --- how far the expansions of the Parva go.

  A mnemonic whose rules all place instructions is expanded no further; most
  expansions write such a mnemonic.  The others write a load, a store or a jump
  with a base in parentheses, for which there is a rule with a base before the
  one that expands (`bounded_access`, `bounded_jump_based`).  So a jump or a
  branch is expanded once at most, and the lines that write those, with `wfi`,
  `ret` and `call`, twice (`bounded`).
-/
import PocketAsm.Proofs.Expansions
import PocketAsm.Proofs.Parva.Jumps

set_option autoImplicit false

namespace PocketAsm.Parva

open Operand Pattern Text

/-! ## Lines by their mnemonics -/

/-- The text begins with the mnemonic and a blank. -/
def Opens (word text : String) : Prop := (word ++ " ").toList <+: text.toList

instance (word text : String) : Decidable (Opens word text) :=
  inferInstanceAs (Decidable (_ <+: _))

/-- What is added behind a text does not change how it begins. -/
theorem Opens.append {word text : String} (h : Opens word text) (t : String) :
    Opens word (text ++ t) := by
  have htext : (text ++ t).toList = text.toList ++ t.toList := String.toList_append
  rw [Opens, htext]
  exact h.trans (List.prefix_append _ _)

theorem Opens.firstField {word text : String} (h : Opens word text) (hword : IsWord word) :
    folded (firstField text.toList) = word := by
  obtain ⟨rest, hrest⟩ := h
  rw [← hrest, String.toList_append, List.append_assoc, hword.firstField gap_blank, hword.folded]

/-- An expansion is the work of a rule with the mnemonic of the line. -/
theorem find?_of_expand {cs : List Char} {lines : List String}
    (h : Rule.find? dialect.rules cs = some (.expand lines)) :
    Rule.find? (rulesFor (folded (firstField cs))) cs = some (.expand lines) := by
  have hrules : dialect.rules =
      instructions ++ (Directive.common Parva.operand .separator 1 ++ textDirectives) :=
    List.append_assoc _ _ _
  rw [rulesFor, ← Rule.find?_eq_withWord instructions_begin]
  rw [hrules, Rule.find?, List.findSome?_append, Option.or_eq_some_iff] at h
  rcases h with h | ⟨-, h⟩
  · exact h
  · -- directives and labels are not expanded
    obtain ⟨rule, hmem, caps, -, hexpand⟩ := Rule.exists_of_find? h
    rcases directives_of_mem rule hmem caps with hdirective | ⟨name, hlabel⟩
    · simp [hexpand, Action.isDirective] at hdirective
    · simp [hexpand] at hlabel

/-- The action places instructions, or it expands the line into few others, which are bounded. -/
def Leads (depth count : Nat) : Action → Prop
  | .expand lines => lines.length ≤ count ∧ ∀ line ∈ lines, dialect.Bounded depth 1 line
  | _ => True

/-- The rule does so with every line that it matches. -/
def LeadsAll (depth count : Nat) (rule : Rule) : Prop :=
  ∀ cs caps, rule.pattern.match? cs = some caps → Leads depth count (rule.action caps)

section Words

variable {word text : String} {depth count : Nat}

/-- A text is bounded by what the rules with its mnemonic do. -/
theorem bounded_of_word (hword : folded (firstField text.toList) = word) (hcount : 1 ≤ count)
    (h : ∀ rule ∈ rulesFor word, LeadsAll depth count rule) :
    dialect.Bounded (depth + 1) count text := by
  refine .of_lines hcount fun lines hfind => ?_
  obtain ⟨rule, hmem, caps, hmatch, hexpand⟩ := Rule.exists_of_find? (find?_of_expand hfind)
  have hleads := h rule (hword ▸ hmem) _ caps hmatch
  rwa [hexpand] at hleads

/-- A text whose mnemonic has rules that place instructions, one of which matches, is not expanded,
whatever rules come after them. -/
theorem bounded_of_match (first : List Rule) {second : List Rule} {rule : Rule}
    (hword : folded (firstField text.toList) = word) (hrules : rulesFor word = first ++ second)
    (hfinal : ∀ rule ∈ first, rule.Final) (hrule : rule ∈ first)
    (hmatch : (rule.pattern.match? text.toList).isSome = true) : dialect.Bounded 0 1 text := by
  refine ⟨le_rfl, fun lines hfind => ?_⟩
  have hfirst : (Rule.find? first text.toList).isSome = true := by
    rw [Rule.find?, List.findSome?_isSome_iff]
    exact ⟨rule, hrule, by rwa [Option.isSome_map]⟩
  obtain ⟨action, haction⟩ := Option.isSome_iff_exists.mp hfirst
  have hexpand := find?_of_expand hfind
  rw [hword, hrules, Rule.find?, List.findSome?_append, ← Rule.find?, haction, Option.some_or]
    at hexpand
  obtain ⟨other, hmem, caps, -, hother⟩ := Rule.exists_of_find? haction
  exact hfinal other hmem caps lines (hother.trans (Option.some.inj hexpand))

/-- A text whose mnemonic has only rules that place instructions is not expanded. -/
theorem bounded_of_final (hopens : Opens word text) (hword : IsWord word)
    (hfinal : ∀ rule ∈ rulesFor word, rule.Final) : dialect.Bounded 0 1 text := by
  refine ⟨le_rfl, fun lines hfind => ?_⟩
  obtain ⟨rule, hmem, caps, -, hexpand⟩ := Rule.exists_of_find? (find?_of_expand hfind)
  exact hfinal rule (hopens.firstField hword ▸ hmem) caps lines hexpand

end Words

/-- Mnemonics that expansions write and that are expanded no further, whatever their operands. -/
def finalWords : List String := ["add", "addi", "lui", "ori", "beq", "bne", "blt", "bge"]

theorem final_of_mem : ∀ word ∈ finalWords,
    IsWord word ∧ ∀ rule ∈ rulesFor word, rule.Final := by
  intro word hword
  simp only [finalWords, List.mem_cons, List.not_mem_nil, or_false] at hword
  have hone {rule : Rule} {word : String} (h : rulesFor word = [rule]) (hrule : rule.Final) :
      ∀ rule ∈ rulesFor word, rule.Final := by
    rw [h]
    simpa using hrule
  rcases hword with rfl | rfl | rfl | rfl | rfl | rfl | rfl | rfl
  all_goals exact ⟨by decide, hone rfl (fun _ _ h => Action.noConfusion h)⟩

theorem bounded_of_opens (word : String) {text : String}
    (hword : word ∈ finalWords)
    (h : Opens word text) : dialect.Bounded 0 1 text :=
  bounded_of_final h (final_of_mem word hword).1 (final_of_mem word hword).2

theorem final_operation (mnemonic bits : String) (signed : Bool) :
    ∀ rule ∈ operation mnemonic bits signed, rule.Final := by
  simp [operation, Rule.Final, Parva.word]

theorem final_product (mnemonic bits : String) : ∀ rule ∈ product mnemonic bits, rule.Final := by
  simp [product, Rule.Final, Parva.word]

theorem final_access (mnemonic bits : String) (destination : String → Except Fault Bits) :
    ∀ rule ∈ Parva.access mnemonic bits destination, rule.Final := by
  simp [Parva.access, Rule.Final, Parva.word]

/-! ## Lines with a base -/

theorem final_jump (pattern : Pattern) :
    Rule.Final ⟨pattern, fun caps => jump (caps.get .a) (caps.get .b)⟩ := by
  intro caps lines
  dsimp only
  unfold jump
  split <;> exact nofun

theorem accepts_blank : space.Accepts " ".toList [] :=
  accepts_oneOrMore.mpr ⟨by decide, List.all_eq_true.mp (by decide), rfl⟩

theorem accepts_comma : separator.Accepts ", ".toList [] :=
  ⟨[], ", ".toList, [], [], rfl, rfl, ⟨by simp, rfl⟩, [','], " ".toList, [], [], rfl, rfl,
    ⟨⟨',', rfl, by decide⟩, rfl⟩, List.all_eq_true.mp (by decide), rfl⟩

section Based

variable {b base : String} (hb : Parva.operand.Accepts b.toList [])
  (hbase : Parva.operand.Accepts base.toList [])

include hb hbase

theorem accepts_offset_base :
    ∃ ops, (based Parva.operand).Accepts (b.toList ++ '(' :: (base.toList ++ [')'])) ops :=
  ⟨_, (accepts_based rfl).mpr ⟨⟨b.toList, [], [], base.toList, []⟩,
    ⟨hb, hbase, by simp, by simp, by simp⟩, rfl, rfl⟩⟩

/-- A load or store with a base matches the pattern of such lines. -/
theorem accepts_indexed_line {word d text : String} (hd : Parva.operand.Accepts d.toList [])
    (htext : text.toList = word.toList ++ (" ".toList ++ (d.toList ++ (", ".toList ++
      (b.toList ++ '(' :: (base.toList ++ [')'])))))) :
    ∃ ops, (indexed word Parva.operand).Accepts text.toList ops := by
  have hbased : BasedText.Fits Parva.operand ⟨b.toList, [], [], base.toList, []⟩ :=
    ⟨hb, hbase, by simp, by simp, by simp⟩
  exact ⟨_, (accepts_indexed rfl).mpr ⟨⟨word.toList, " ".toList, d.toList, ", ".toList, _⟩,
    ⟨accepts_lit.mpr ⟨rfl, rfl⟩, accepts_blank, hd, accepts_comma, hbased⟩, htext, rfl⟩⟩

/-- A load or store with a base is not expanded. -/
theorem bounded_access {word d text : String} {access : Access}
    (haccess : (word, access) ∈ Statement.accesses) (hd : Parva.operand.Accepts d.toList [])
    (htext : text.toList = word.toList ++ (" ".toList ++ (d.toList ++ (", ".toList ++
      (b.toList ++ '(' :: (base.toList ++ [')'])))))) : dialect.Bounded 0 1 text := by
  obtain ⟨-, hword, hrules⟩ := rulesFor_access haccess
  obtain ⟨ops, hline⟩ := accepts_indexed_line hb hbase hd htext
  refine bounded_of_match _ ?_ hrules ?_ (List.mem_cons_of_mem _ List.mem_cons_self)
    (match?_isSome hline)
  · rw [htext, hword.firstField gap_blank, hword.folded]
  · exact final_access _ _ _

/-- A jump with a base is not expanded. -/
theorem bounded_jump_based {text : String}
    (htext : text.toList = "j".toList ++ (" ".toList ++
      (b.toList ++ '(' :: (base.toList ++ [')'])))) : dialect.Bounded 0 1 text := by
  have hj : IsWord "j" := by decide
  obtain ⟨ops, hbased⟩ := accepts_offset_base hb hbase
  have hline : (all [.lit "j", .space, based Parva.operand]).Accepts text.toList ops := by
    rw [htext]
    refine accepts_all_cons.mpr ⟨_, _, [], _, rfl, (List.append_nil _).symm,
      accepts_lit.mpr ⟨rfl, rfl⟩, ?_⟩
    exact accepts_all_cons.mpr ⟨_, _, [], ops, rfl, (List.append_nil _).symm, accepts_blank, hbased⟩
  refine bounded_of_match [_] ?_ rulesFor_jump ?_ List.mem_cons_self (match?_isSome hline)
  · rw [htext, hj.firstField gap_blank, hj.folded]
  · exact List.forall_mem_singleton.mpr (final_jump _)

end Based

/-! ## The rules that expand -/

theorem leads_mono {depth depth' count count' : Nat} (hdepth : depth ≤ depth')
    (hcount : count ≤ count') {rule : Rule} (h : LeadsAll depth count rule) :
    LeadsAll depth' count' rule := by
  intro cs caps hmatch
  have hleads := h cs caps hmatch
  revert hleads
  cases rule.action caps with
  | expand lines =>
    exact fun hleads => ⟨hleads.1.trans hcount, fun line hline =>
      (hleads.2 line hline).mono hdepth le_rfl⟩
  | _ => exact id

theorem leadsAll_of_final {depth count : Nat} {rule : Rule} (h : rule.Final) :
    LeadsAll depth count rule := by
  intro cs caps _
  cases haction : rule.action caps with
  | expand lines => exact absurd haction (h caps lines)
  | _ => trivial

/-- An expansion into one line. -/
theorem leads_one {depth count : Nat} (hcount : 1 ≤ count) {line : String}
    (h : dialect.Bounded depth 1 line) : Leads depth count (.expand [line]) :=
  ⟨hcount, List.forall_mem_singleton.mpr h⟩

/-- An expansion into two lines. -/
theorem leads_two {depth : Nat} {first second : String} (h₁ : dialect.Bounded depth 1 first)
    (h₂ : dialect.Bounded depth 1 second) : Leads depth 2 (.expand [first, second]) :=
  ⟨le_rfl, List.forall_mem_cons.mpr ⟨h₁, List.forall_mem_singleton.mpr h₂⟩⟩

/-- A slot of a line with one operand holds an operand. -/
theorem operand_of_one {word : String} {slot : Slot} {cs : List Char} {caps : Captures}
    (hword : IsWord word) (h : (one word slot).match? cs = some caps) :
    Parva.operand.Accepts (caps.get slot).toList [] := by
  obtain ⟨os, hspelled, hlength, hcaps⟩ := spelled_of_match? [slot] hword h
  obtain ⟨o, rfl⟩ := List.length_eq_one_iff.mp hlength
  have hcaptured : caps.get slot = String.ofList o := by
    rw [hcaps]
    simp [captured]
  rw [hcaptured, String.toList_ofList]
  exact hspelled.accepts (List.mem_singleton_self o)

/-- The slots of a line with two operands hold operands. -/
theorem operands_of_two {word : String} {first second : Slot} (hne : first ≠ second)
    {cs : List Char} {caps : Captures} (hword : IsWord word)
    (h : (two word first second).match? cs = some caps) :
    Parva.operand.Accepts (caps.get first).toList [] ∧
      Parva.operand.Accepts (caps.get second).toList [] := by
  obtain ⟨os, hspelled, hlength, hcaps⟩ := spelled_of_match? [first, second] hword h
  obtain ⟨o, o', rfl⟩ := List.length_eq_two.mp hlength
  have hfirst : caps.get first = String.ofList o := by
    rw [hcaps]
    simp [captured, List.lookup_cons, beq_eq_false_iff_ne.mpr hne]
  have hsecond : caps.get second = String.ofList o' := by
    rw [hcaps]
    simp [captured]
  rw [hfirst, hsecond, String.toList_ofList, String.toList_ofList]
  exact ⟨hspelled.accepts (by simp), hspelled.accepts (by simp)⟩

/-- The names and numbers that expansions write are operands. -/
theorem accepts_written : ∀ name ∈ ["zero", "pc", "0", "sp"],
    Parva.operand.Accepts name.toList [] := by
  have hnames : ∀ name ∈ ["zero", "pc", "0", "sp"],
      name.toList ≠ [] ∧ name.toList.all isNameChar = true := by decide
  intro name hmem
  obtain ⟨hne, hall⟩ := hnames name hmem
  exact operand_of_name hne (List.all_eq_true.mp hall)

/-- A number is loaded by an addition, or by two halves. -/
theorem leads_loadNumber (d a : String) : Leads 0 2 (loadNumber d a) := by
  have hadd : dialect.Bounded 0 1 s!"addi {d}, zero, {a}" :=
    bounded_of_opens "addi" (by decide) (.append (.append (.append (by decide) _) _) _)
  unfold loadNumber
  split
  · trivial
  · exact leads_one (by decide) hadd
  · split
    · trivial
    · split
      · exact leads_one (by decide) hadd
      · refine leads_two (bounded_of_opens "lui" (by decide) ?_)
          (bounded_of_opens "ori" (by decide) ?_)
        · exact .append (.append (.append (by decide) _) _) _
        · exact .append (.append (.append (.append (.append (by decide) _) _) _) _) _

/-- An access to an address is expanded into one from zero. -/
theorem leads_accessAbsolute {word : String} {access : Access}
    (haccess : (word, access) ∈ Statement.accesses) : LeadsAll 0 1 (accessAbsolute word) := by
  obtain ⟨-, hword, -⟩ := rulesFor_access haccess
  intro cs caps hmatch
  obtain ⟨hd, hb⟩ := operands_of_two (by decide) hword hmatch
  refine leads_one le_rfl (bounded_access hb (accepts_written "zero" (by decide)) haccess hd ?_)
  change (word ++ " " ++ caps.get .d ++ ", " ++ caps.get .b ++ "(zero)").toList = _
  simp [String.toList_append]

theorem leads_branchAlways {a : String} (ha : Parva.operand.Accepts a.toList []) :
    Leads 0 1 (branchAlways a) := by
  unfold branchAlways
  split
  · refine leads_one le_rfl (bounded_jump_based ha (accepts_written "pc" (by decide)) ?_)
    change ("j " ++ a ++ "(pc)").toList = _
    simp [String.toList_append]
  · exact leads_one le_rfl (bounded_of_opens "beq" (by decide) (.append (by decide) _))

/-- A load or store at the top of the stack. -/
theorem bounded_stack {word a text : String} {access : Access}
    (haccess : (word, access) ∈ Statement.accesses) (ha : Parva.operand.Accepts a.toList [])
    (htext : text.toList = word.toList ++ (" ".toList ++ (a.toList ++ ", 0(sp)".toList))) :
    dialect.Bounded 0 1 text :=
  bounded_access (accepts_written "0" (by decide)) (accepts_written "sp" (by decide)) haccess ha
    (by rw [htext]; rfl)

/-- A jump without a base is expanded into one from zero. -/
theorem leads_jumpAlone :
    LeadsAll 0 1 ⟨one "j" .b, fun caps => .expand [s!"j {caps.get .b}(zero)"]⟩ := by
  intro cs caps hmatch
  have hb := operand_of_one (by decide) hmatch
  refine leads_one le_rfl (bounded_jump_based hb (accepts_written "zero" (by decide)) ?_)
  change ("j " ++ caps.get .b ++ "(zero)").toList = _
  simp [String.toList_append]

/-- A jump is expanded once at most. -/
theorem bounded_jump {text : String} (hword : folded (firstField text.toList) = "j") :
    dialect.Bounded 1 1 text := by
  refine bounded_of_word hword le_rfl ?_
  rw [rulesFor_jump, List.forall_mem_cons, List.forall_mem_singleton]
  exact ⟨leadsAll_of_final (final_jump _), leads_jumpAlone⟩

/-- A branch that is always taken is a jump in one form and a comparison in the other. -/
theorem leads_branchAlone :
    LeadsAll 0 1 ⟨one "b" .a, fun caps => branchAlways (caps.get .a)⟩ := by
  intro cs caps hmatch
  dsimp only
  exact leads_branchAlways (operand_of_one (by decide) hmatch)

/-- A branch that is always taken is expanded once. -/
theorem bounded_branch {text : String} (hword : folded (firstField text.toList) = "b") :
    dialect.Bounded 1 1 text := by
  have hrules : rulesFor "b" = [⟨one "b" .a, fun caps => branchAlways (caps.get .a)⟩] := rfl
  refine bounded_of_word hword le_rfl ?_
  rw [hrules, List.forall_mem_singleton]
  exact leads_branchAlone

theorem leads_branchZero (mnemonic : String) {real : String}
    (hreal : real ∈ finalWords)
    (hopens : Opens real (real ++ " zero, ")) : LeadsAll 0 1 (branchZero mnemonic real) :=
  fun _ _ _ => leads_one le_rfl
    (bounded_of_opens real hreal (.append (.append (.append hopens _) _) _))

/-- Every rule expands a line into two others at most, which are expanded once at most. -/
theorem leads_instructions : ∀ rule ∈ instructions, LeadsAll 1 2 rule := by
  simp only [instructions, List.forall_mem_append, List.forall_mem_flatMap,
    List.forall_mem_map, and_assoc]
  have hfinal {rule : Rule} (h : rule.Final) : LeadsAll 1 2 rule := leadsAll_of_final h
  have honce {rule : Rule} {count : Nat} (hcount : count ≤ 2) (h : LeadsAll 0 count rule) :
      LeadsAll 1 2 rule := leads_mono (by decide) hcount h
  refine ⟨fun rule h => hfinal (final_operation _ _ _ rule h), ?_,
    fun e _ rule h => hfinal (final_operation _ _ _ rule h),
    fun e _ rule h => hfinal (final_product _ _ rule h), ?_,
    fun rule h => hfinal (final_access _ _ _ rule h),
    fun rule h => hfinal (final_access _ _ _ rule h),
    fun rule h => hfinal (final_access _ _ _ rule h),
    fun rule h => hfinal (final_access _ _ _ rule h), ?_, ?_, ?_, ?_, ?_, ?_, ?_⟩
  · simp only [List.forall_mem_cons]
    exact ⟨hfinal fun _ _ h => Action.noConfusion h,
      hfinal fun _ _ h => Action.noConfusion h, by simp⟩
  · simp only [List.forall_mem_cons]
    refine ⟨?_, ?_, ?_, by simp⟩
    · exact honce (by decide) fun _ _ _ => leads_one le_rfl
        (bounded_of_opens "addi" (by decide) (by decide))
    · exact honce (by decide) fun _ _ _ => leads_one le_rfl
        (bounded_of_opens "add" (by decide) (.append (.append (.append (by decide) _) _) _))
    · exact honce le_rfl fun _ _ _ => leads_loadNumber _ _
  · intro word hword
    have hwords : word ∈ Statement.accesses.map (·.1) := hword
    obtain ⟨e, he, rfl⟩ := List.mem_map.mp hwords
    exact honce (by decide) (leads_accessAbsolute he)
  · simp only [List.forall_mem_cons]
    have hsp : ∀ line ∈ ["addi sp, sp, 1", "addi sp, sp, -1"], dialect.Bounded 0 1 line := by
      simp only [List.forall_mem_cons]
      exact ⟨bounded_of_opens "addi" (by decide) (by decide),
        bounded_of_opens "addi" (by decide) (by decide), by simp⟩
    refine ⟨?_, ?_, by simp⟩
    · refine honce le_rfl fun cs caps hmatch => leads_two ?_ (hsp _ (by decide))
      have hsw : ("sw", Access.sw) ∈ Statement.accesses := by decide
      refine bounded_stack hsw (operand_of_one (by decide) hmatch) ?_
      change ("sw " ++ caps.get .a ++ ", 0(sp)").toList = _
      simp [String.toList_append]
    · refine honce le_rfl fun cs caps hmatch => leads_two (hsp _ (by decide)) ?_
      have hlw : ("lw", Access.lw) ∈ Statement.accesses := by decide
      refine bounded_stack hlw (operand_of_one (by decide) hmatch) ?_
      change ("lw " ++ caps.get .a ++ ", 0(sp)").toList = _
      simp [String.toList_append]
  · exact fun e _ => hfinal fun _ _ h => Action.noConfusion h
  · exact fun e _ => hfinal fun _ _ h => Action.noConfusion h
  · intro e he
    have hreal : ∀ e ∈ [("beqz", "beq"), ("bnez", "bne"), ("bgtz", "blt"), ("blez", "bge")],
        e.2 ∈ finalWords ∧
          Opens e.2 (e.2 ++ " zero, ") := by decide
    obtain ⟨hmem, hopens⟩ := hreal e he
    exact honce (by decide) (leads_branchZero _ hmem hopens)
  · exact fun e _ => hfinal fun _ _ h => Action.noConfusion h
  · simp only [List.forall_mem_cons]
    refine ⟨?_, ?_, ?_, ?_, ?_, ?_, by simp⟩
    · exact hfinal (final_jump _)
    · exact honce (by decide) leads_jumpAlone
    · exact honce (by decide) leads_branchAlone
    · exact fun _ _ _ => leads_one (by decide) (bounded_branch (by decide))
    · refine fun cs caps _ => leads_two ?_ (bounded_jump ?_)
      · exact (bounded_of_opens "addi" (by decide) (by decide)).mono (by decide) le_rfl
      · exact Opens.firstField (.append (by decide) _) (by decide)
    · exact fun _ _ _ => leads_one (by decide) (bounded_jump (by decide))

/-- No line nests more than two expansions or stands for more than two instructions. -/
theorem bounded (text : String) : dialect.Bounded 2 2 text := by
  refine .of_lines (by decide) fun lines hfind => ?_
  obtain ⟨rule, hmem, caps, hmatch, hexpand⟩ := Rule.exists_of_find? (find?_of_expand hfind)
  have hmem : rule ∈ instructions := by
    obtain ⟨pair, hpair, rfl⟩ := List.mem_map.mp hmem
    exact (List.of_mem_zip (List.mem_of_mem_filter hpair)).2
  have hleads := leads_instructions rule hmem _ caps hmatch
  rwa [hexpand] at hleads

end PocketAsm.Parva

/-
  Proofs/Lodestar/Lines.lean --- lines that the V8 and the Lodestar both accept.

  A colon tells a label, a point a directive, and an instruction has neither,
  in both languages; so a line that both accept is the same kind of line in
  both (`kindred_of_find?`).  Carried out, it makes edits that correspond one
  to one (`corresponds_placeText`): they define the same label, move to the same
  address, or place instructions that become the same bytes where the labels
  have the same addresses in the end.
-/
import PocketAsm.Proofs.Lodestar.Rules

set_option autoImplicit false

namespace PocketAsm

/-! ## Tables told apart by signs -/

/-- Instructions have neither a point nor a colon, names of labels have no point, and directives
begin with one. -/
structure Signs (instructions directives : List Rule) (name : Pattern) : Prop where
  instructions : ∀ rule ∈ instructions,
    rule.pattern.avoids '.' = true ∧ rule.pattern.avoids ':' = true
  name : name.avoids '.' = true ∧ name.slotFree = true
  directives : ∀ rule ∈ directives, rule.pattern.BeginsWith (Text.sameLetter '.')

namespace Signs

variable {instructions directives : List Rule} {name : Pattern} {cs : List Char}

theorem find?_instructions_of_point (h : Signs instructions directives name) (hc : '.' ∈ cs) :
    Rule.find? instructions cs = none :=
  Rule.find?_eq_none fun rule hrule =>
    Pattern.match?_eq_none_of_avoids (h.instructions rule hrule).1 hc

theorem find?_instructions_of_colon (h : Signs instructions directives name) (hc : ':' ∈ cs) :
    Rule.find? instructions cs = none :=
  Rule.find?_eq_none fun rule hrule =>
    Pattern.match?_eq_none_of_avoids (h.instructions rule hrule).2 hc

theorem find?_directives_of_not_point (h : Signs instructions directives name) (hc : '.' ∉ cs) :
    Rule.find? directives cs = none := by
  refine Rule.find?_eq_none fun rule hrule => ?_
  rw [Option.eq_none_iff_forall_ne_some]
  intro caps hcaps
  obtain ⟨c, rest, rfl, hpoint⟩ := (h.directives rule hrule).head_of_match? hcaps
  have hsame : Text.foldLetter '.' = Text.foldLetter c := by simpa [Text.sameLetter] using hpoint
  rw [Text.eq_of_foldLetter_eq (.inl (by decide)) hsame.symm] at hc
  exact hc List.mem_cons_self

/-- A label is its name before a colon. -/
theorem exists_name_of_match? (h : Signs instructions directives name) {caps : Captures}
    (hmatch : (Directive.labelRule name).pattern.match? cs = some caps) :
    ∃ x, cs = x ++ [':'] ∧ name.Accepts x [] ∧ caps.get .a = String.ofList x := by
  obtain ⟨ops, haccepts, hcaps⟩ := Pattern.accepts_of_match? hmatch
  obtain ⟨x, y, u, v, rfl, rfl, hslot, hcolon⟩ := Pattern.accepts_all_cons.mp haccepts
  obtain ⟨hname, rfl⟩ := Pattern.accepts_slot h.name.2 hslot
  obtain ⟨-, rfl⟩ := Pattern.accepts_lit.mp hcolon
  obtain rfl := Pattern.accepts_sign (c := ':') (by decide) (by decide) hcolon
  exact ⟨x, rfl, hname, hcaps .a⟩

theorem find?_label_of_point (h : Signs instructions directives name) (hc : '.' ∈ cs) :
    Rule.find? [Directive.labelRule name] cs = none := by
  refine Rule.find?_eq_none fun rule hrule => ?_
  rw [List.mem_singleton.mp hrule, Option.eq_none_iff_forall_ne_some]
  intro caps hcaps
  obtain ⟨x, rfl, hname, -⟩ := h.exists_name_of_match? hcaps
  exact Pattern.not_mem_of_accepts h.name.1 hname (by simpa using hc)

theorem find?_label_of_not_colon (h : Signs instructions directives name) (hc : ':' ∉ cs) :
    Rule.find? [Directive.labelRule name] cs = none := by
  refine Rule.find?_eq_none fun rule hrule => ?_
  rw [List.mem_singleton.mp hrule, Option.eq_none_iff_forall_ne_some]
  intro caps hcaps
  obtain ⟨x, rfl, -⟩ := h.exists_name_of_match? hcaps
  simp at hc

/-- Where the table of labels decides, it decides for the name before the colon. -/
theorem exists_name_of_find? (h : Signs instructions directives name) {action : Action}
    (hfind : Rule.find? [Directive.labelRule name] cs = some action) :
    ∃ x, cs = x ++ [':'] ∧ name.Accepts x [] ∧ action = .label (String.ofList x) := by
  obtain ⟨rule, hrule, caps, hmatch, rfl⟩ := Rule.exists_of_find? hfind
  obtain rfl := List.mem_singleton.mp hrule
  obtain ⟨x, hcs, hname, hcaptured⟩ := h.exists_name_of_match? hmatch
  exact ⟨x, hcs, hname, congrArg Action.label hcaptured⟩

end Signs

namespace Lodestar

open Bits Operand Pattern Text
open V8 (Statement valueOf)

/-- The directives of the V8. -/
def v8Directives : List Rule := (Directive.common V8.operand .comma 1).tail

theorem v8_signs : Signs V8.instructions v8Directives V8.operand where
  instructions := by decide +kernel
  name := by decide +kernel
  directives := by
    simp only [v8Directives, Directive.common, List.tail_cons, List.forall_mem_cons,
      List.not_mem_nil, false_imp_iff, implies_true, and_true]
    exact ⟨(beginsWith_lit (by decide)).all _, (beginsWith_lit (by decide)).all _,
      (beginsWith_lit (by decide)).all _, (beginsWith_lit (by decide)).all _,
      (beginsWith_lit (by decide)).all _, beginsWith_lit (by decide), beginsWith_lit (by decide)⟩

theorem signs : Signs instructions [Directive.dataRule .comma 1, Directive.addressRule number]
    label where
  instructions := by decide +kernel
  name := by decide +kernel
  directives := by
    simp only [List.forall_mem_cons, List.not_mem_nil, false_imp_iff, implies_true, and_true]
    exact ⟨(beginsWith_lit (by decide)).all _, (beginsWith_lit (by decide)).all _⟩

theorem wellFormed : dialect.WellFormed 2 :=
  Architecture.wellFormed (List.mem_cons_of_mem _ (List.mem_cons_of_mem _ List.mem_cons_self))

/-! ## Kindred actions -/

/-- The fields take the same number of words, and become the same bytes where the labels have the
same addresses.  Either is known only where both become bits at all. -/
def SameBytes (fields fields' : List Field) (words words' : Nat) : Prop :=
  ∀ p q labels labels' bits bits', Native p labels → Native q labels' →
    V8.dialect.Encodes p ⟨.dollar, labels, []⟩ fields bits →
    V8.dialect.Encodes q ⟨.dollar, labels', []⟩ fields' bits' →
      words = words' ∧ (labels = labels' → Bits.words 8 bits = Bits.words 8 bits')

/-- The languages do the same with a line: they emit the same bytes, or it is the same label or
directive. -/
inductive Kindred : Action → Action → Prop
  | emit {fields fields' : List Field} {words words' : Nat} (mark mark' : Option String)
      (h : SameBytes fields fields' words words') :
      Kindred (.emit fields words mark) (.emit fields' words' mark')
  | label {name : String} (h : Lodestar.label.Accepts name.toList []) :
      Kindred (.label name) (.label name)
  | data (items : List String) : Kindred (.data items 1) (.data items 1)
  | address (value : String) : Kindred (.address value) (.address value)

/-- A statement codes one string of bytes only. -/
theorem codedAs_unique {value : String → Option Int} {first second : List Nat}
    {statement : Statement} (h : statement.CodedAs value first)
    (h' : statement.CodedAs value second) : first = second := by
  obtain ⟨op, operand?⟩ := statement
  cases operand? with
  | none =>
    obtain ⟨-, rfl⟩ := h
    obtain ⟨-, rfl⟩ := h'
    rfl
  | some text =>
    obtain ⟨-, n, hn, rfl⟩ := h
    obtain ⟨-, m, hm, rfl⟩ := h'
    obtain rfl := Option.some.inj (hn.symm.trans hm)
    rfl

theorem valued_of_codedAs {p : Program} {labels : SymbolTable} {bytes : List Nat}
    {statement : Statement} (h : statement.CodedAs (valueOf p ⟨.dollar, labels, []⟩) bytes) :
    Valued p labels statement := by
  intro text htext
  obtain ⟨op, operand?⟩ := statement
  obtain rfl : operand? = some text := htext
  obtain ⟨-, n, hn, -⟩ := h
  exact ⟨n, hn⟩

/-- An absolute operand has its value wherever the line stands. -/
theorem valueOf_congr {p q : Program} (hp : p.encoding = none) (hq : q.encoding = none)
    (symbols : Symbols) : valueOf p symbols = valueOf q symbols := by
  funext text
  have hliteral : V8.dialect.literal? p text = V8.dialect.literal? q text :=
    (Dialect.literal?_eq_read hp text).trans (Dialect.literal?_eq_read hq text).symm
  have hvalue : symbols.value text p.address false = symbols.value text q.address false := by
    simp [Symbols.value, Symbols.atom, Symbols.labelValue?]
  rw [valueOf, valueOf, Dialect.operandValue?, Dialect.operandValue?, hliteral, hvalue]

/-- An instruction on both: the bytes are those of the statement that the line reads as. -/
theorem kindred_of_instructions {cs : List Char} {v l : Action}
    (hbare : isBareJump (String.ofList cs) = false)
    (hv : Rule.find? V8.instructions cs = some v) (hl : Rule.find? instructions cs = some l) :
    Kindred v l := by
  have hagrees := V8.instructions_read.of_find? (by simp) hv
  have hfollows := instructions_follow.of_find? (by simp) hl hbare
  cases v with
  | emit fields words mark =>
    cases l with
    | emit fields' words' mark' =>
      refine .emit mark mark' fun p q labels labels' bits bits' hp hq hbits hbits' => ?_
      obtain ⟨statement, hread, rfl, hcoded⟩ := hagrees p _ bits hbits
      obtain ⟨rfl, hcoded'⟩ := hfollows q p labels' labels bits' statement hq hbits' hread hp
        (valued_of_codedAs hcoded)
      refine ⟨rfl, ?_⟩
      rintro rfl
      rw [valueOf_congr hq.encoding hp.encoding] at hcoded'
      exact codedAs_unique hcoded hcoded'
    | _ => exact hfollows.elim
  | _ => exact hagrees.elim

/-- The address that an `.address` line moves to is its second field. -/
theorem fields_of_address {name : Pattern} (hfree : name.slotFree = true)
    (hsolid : ∀ o, name.Accepts o [] → Solid o) {cs : List Char} {caps : Captures}
    (h : (Directive.addressRule name).pattern.match? cs = some caps) :
    ∃ first, Text.fields 1 cs = [first, caps.get .a] := by
  obtain ⟨ops, haccepts, hcaps⟩ := accepts_of_match? h
  obtain ⟨w, gap, o, rfl, hw, hgap, hslot⟩ := accepts_spaced.mp haccepts
  obtain ⟨ho, rfl⟩ := accepts_slot hfree hslot
  have hword : IsWord ".address" := by decide
  obtain ⟨-, hplain, -⟩ := accepts_word hword hw
  refine ⟨String.ofList w, ?_⟩
  rw [fields_append 0 hplain (accepts_space hgap).1 (hsolid o ho), Text.fields, hcaps .a]
  rfl

theorem Spelled.solid {o : List Char} (h : Spelled o) : Solid o :=
  Plain.solid (fun c hc => isSeparator_of_isAtomChar (h.isAtom c hc)) h.ne_nil

theorem solid_of_operand {o : List Char} (h : V8.operand.Accepts o []) : Solid o :=
  (ends_of_value (by decide) h).1

/-- The words of the directives of the V8, in the order of the table. -/
def directiveWords : List String :=
  [".data", ".repeat", ".eq", ".address", ".align", ".start", ".end"]

theorem directives_begin : List.Forall₂ Rule.Begins directiveWords v8Directives := by
  refine .cons (Rule.begins_spaced (by decide)) (.cons (Rule.begins_spaced (by decide))
    (.cons (Rule.begins_spaced (by decide)) (.cons (Rule.begins_spaced (by decide))
      (.cons (Rule.begins_spaced (by decide)) (.cons (Rule.begins_alone (by decide))
        (.cons (Rule.begins_alone (by decide)) .nil))))))

/-- A directive on both: `.data` and `.address` are all that the Lodestar knows. -/
theorem kindred_of_directives {cs : List Char} {v l : Action}
    (hv : Rule.find? v8Directives cs = some v)
    (hl : Rule.find? [Directive.dataRule .comma 1, Directive.addressRule number] cs = some l) :
    Kindred v l := by
  rw [Rule.find?_eq_withWord directives_begin] at hv
  cases hdata : (Directive.dataRule .comma 1).pattern.match? cs with
  | some caps =>
    have hword : folded (firstField cs) = ".data" := Rule.begins_spaced (by decide) cs caps hdata
    have htable : Rule.withWord directiveWords v8Directives ".data" =
      [Directive.dataRule .comma 1] := rfl
    rw [Rule.find?_of_match hdata] at hl
    rw [hword, htable, Rule.find?_of_match hdata] at hv
    obtain rfl := Option.some.inj hl
    obtain rfl := Option.some.inj hv
    exact .data _
  | none =>
    rw [Rule.find?_of_no_match hdata] at hl
    obtain ⟨rule, hrule, caps, hmatch, rfl⟩ := Rule.exists_of_find? hl
    obtain rfl := List.mem_singleton.mp hrule
    have hword : folded (firstField cs) = ".address" :=
      Rule.begins_spaced (by decide) cs caps hmatch
    have htable : Rule.withWord directiveWords v8Directives ".address" =
      [Directive.addressRule V8.operand] := rfl
    rw [hword, htable] at hv
    obtain ⟨rule, hrule, caps', hmatch', rfl⟩ := Rule.exists_of_find? hv
    obtain rfl := List.mem_singleton.mp hrule
    obtain ⟨first, hfields⟩ :=
      fields_of_address rfl (fun _ h => (spelled_of_number h).solid) hmatch
    obtain ⟨first', hfields'⟩ := fields_of_address rfl (fun _ => solid_of_operand) hmatch'
    have hsame : first' = first ∧ caps'.get .a = caps.get .a := by
      simpa using hfields'.symm.trans hfields
    change Kindred (.address (caps'.get .a)) (.address (caps.get .a))
    rw [hsame.2]
    exact .address _

/-- A line that both languages accept is kindred in them, unless it is a `jmp` with a bare
operand. -/
theorem kindred_of_find? {cs : List Char} {v l : Action}
    (hbare : isBareJump (String.ofList cs) = false)
    (hv : Rule.find? V8.dialect.rules cs = some v)
    (hl : Rule.find? dialect.rules cs = some l) : Kindred v l := by
  have hv8 : V8.dialect.rules =
      V8.instructions ++ ([Directive.labelRule V8.operand] ++ v8Directives) := rfl
  have hlodestar : dialect.rules = instructions ++
      ([Directive.dataRule .comma 1, Directive.addressRule number] ++
        [Directive.labelRule label]) := rules_eq
  rw [hv8, Rule.find?_append, Rule.find?_append] at hv
  rw [hlodestar, Rule.find?_append, Rule.find?_append] at hl
  by_cases hpoint : '.' ∈ cs
  · rw [v8_signs.find?_instructions_of_point hpoint, v8_signs.find?_label_of_point hpoint,
      Option.none_or, Option.none_or] at hv
    rw [signs.find?_instructions_of_point hpoint, signs.find?_label_of_point hpoint,
      Option.none_or, Option.or_none] at hl
    exact kindred_of_directives hv hl
  rw [v8_signs.find?_directives_of_not_point hpoint, Option.or_none] at hv
  rw [signs.find?_directives_of_not_point hpoint, Option.none_or] at hl
  by_cases hcolon : ':' ∈ cs
  · rw [v8_signs.find?_instructions_of_colon hcolon, Option.none_or] at hv
    rw [signs.find?_instructions_of_colon hcolon, Option.none_or] at hl
    obtain ⟨x, rfl, -, rfl⟩ := v8_signs.exists_name_of_find? hv
    obtain ⟨y, hcs, hname, rfl⟩ := signs.exists_name_of_find? hl
    obtain rfl := List.append_cancel_right hcs
    exact .label (by rwa [String.toList_ofList])
  · rw [v8_signs.find?_label_of_not_colon hcolon, Option.or_none] at hv
    rw [signs.find?_label_of_not_colon hcolon, Option.or_none] at hl
    exact kindred_of_instructions hbare hv hl

/-! ## Edits that correspond -/

/-- Placed parts take the same number of words, and become the same bytes where the labels have the
same addresses. -/
def Alike (parts parts' : List Part) (words words' : Nat) : Prop :=
  ∀ labels labels' bits bits', Named labels → Named labels' →
    (⟨.dollar, labels, []⟩ : Symbols).partsBits parts = .ok bits →
    (⟨.lodestar, labels', []⟩ : Symbols).partsBits parts' = .ok bits' →
      words = words' ∧ (labels = labels' → Bits.words 8 bits = Bits.words 8 bits')

/-- The first edit on the V8 does what the second one does on the Lodestar. -/
def Corresponds : Edit → Edit → Prop
  | .place parts n _, .place parts' n' _ => Alike parts parts' n n'
  | .label name _, .label name' _ => name = name' ∧ label.Accepts name.toList []
  | .moveTo address, .moveTo address' => address = address'
  | _, _ => False

section Edits

variable {p q : Program} {source source' : Source} {edits edits' : List Edit}

theorem alike_of_sameBytes {fields fields' : List Field} {words words' : Nat}
    {parts parts' : List Part} (h : SameBytes fields fields' words words')
    (hp : p.encoding = none) (hq : q.encoding = none)
    (hparts : V8.dialect.fieldParts p fields = .ok parts)
    (hparts' : dialect.fieldParts q fields' = .ok parts') : Alike parts parts' words words' := by
  intro labels labels' bits bits' hnamed hnamed' hbits hbits'
  have hnative : Native q labels' := ⟨hq, hnamed'⟩
  exact h p q labels labels' bits bits' ⟨hp, hnamed⟩ hnative
    (Dialect.encodes_of_partsBits hparts hbits)
    (encodes_of_encodes hnative (Dialect.encodes_of_partsBits hparts' hbits'))

/-- An item of data is the same operand in both languages. -/
theorem sameBytes_item (item : String) :
    SameBytes [.value item 8 false false] [.value item 8 false false] 1 1 := by
  rintro p q labels labels' bits bits' hp hq hbits hbits'
  refine ⟨rfl, ?_⟩
  rintro rfl
  obtain ⟨first, rest, rfl, hfirst, rfl⟩ := hbits
  obtain ⟨first', rest', rfl, hfirst', rfl⟩ := hbits'
  obtain ⟨n, hn, hencode⟩ := Dialect.exists_value_of_encodesField (by simp) hfirst
  obtain ⟨m, hm, hencode'⟩ := Dialect.exists_value_of_encodesField (by simp) hfirst'
  have hsame := congrFun (valueOf_congr hp.encoding hq.encoding ⟨.dollar, labels, []⟩) item
  rw [valueOf, valueOf, hn, hm] at hsame
  obtain rfl := Option.some.inj hsame
  rw [Except.ok.inj (hencode.symm.trans hencode')]

/-- An item of data that is placed is a field of one word. -/
theorem exists_part_of_placeItem {d : Dialect} {item : String}
    (h : d.placeItem 1 source item p = ⟨edits, none⟩) :
    ∃ part, d.fieldParts p [.value item d.wordSize false false] = .ok [part] ∧
      edits = [.place [part] 1 source] := by
  unfold Dialect.placeItem at h
  split at h
  · cases h
  · simp only [ite_self, Nat.one_mul] at h
    split at h
    · cases h
    · rename_i part hpart
      refine ⟨part, ?_, (congrArg Outcome.edits h).symm⟩
      simp only [Dialect.fieldParts, Dialect.fieldPart, hpart]

theorem corresponds_items (items : List String) :
    ∀ {p q : Program} {done done' : List Edit}, p.encoding = none → q.encoding = none →
      List.Forall₂ Corresponds done done' →
      Dialect.placeAll (V8.dialect.placeItem 1 source) items p done = ⟨edits, none⟩ →
      Dialect.placeAll (dialect.placeItem 1 source') items q done' = ⟨edits', none⟩ →
        List.Forall₂ Corresponds edits edits' := by
  induction items with
  | nil =>
    intro p q done done' _ _ hdone hv hl
    obtain rfl := congrArg Outcome.edits hv
    obtain rfl := congrArg Outcome.edits hl
    exact List.forall₂_reverse_iff.mpr hdone
  | cons item items ih =>
    intro p q done done' hp hq hdone hv hl
    obtain ⟨first, hfirst, hv⟩ := Dialect.placeAll_cons_eq hv
    obtain ⟨first', hfirst', hl⟩ := Dialect.placeAll_cons_eq hl
    obtain ⟨part, hpart, rfl⟩ := exists_part_of_placeItem hfirst
    obtain ⟨part', hpart', rfl⟩ := exists_part_of_placeItem hfirst'
    refine ih (by simpa [Program.apply] using hp) (by simpa [Program.apply] using hq) ?_ hv hl
    exact .cons (alike_of_sameBytes (sameBytes_item item) hp hq hpart hpart') hdone

/-- A literal that both languages accept is the same number in both. -/
theorem literal_unique {value : String} {n m : Int} (hp : p.encoding = none)
    (hq : q.encoding = none) (hv : V8.dialect.literal p value = .ok n)
    (hl : dialect.literal q value = .ok m) : n = m := by
  have hv8 : V8.dialect.literal? p value = NumberSyntax.dollar.read value :=
    Dialect.literal?_eq_read hp value
  have hlodestar : dialect.literal? q value = NumberSyntax.lodestar.read value :=
    Dialect.literal?_eq_read hq value
  rw [Dialect.literal, hlodestar] at hl
  split at hl
  · cases hl
  · rename_i k hread
    rw [Dialect.literal, hv8, read_of_read hread] at hv
    exact (Except.ok.inj hv).symm.trans (Except.ok.inj hl)
  · cases hl

/-- Kindred actions make edits that correspond, where both succeed. -/
theorem corresponds_perform {v l : Action} (h : Kindred v l) (hp : p.encoding = none)
    (hq : q.encoding = none) (hv : V8.dialect.perform source p v = ⟨edits, none⟩)
    (hl : dialect.perform source' q l = ⟨edits', none⟩) :
    List.Forall₂ Corresponds edits edits' := by
  cases h with
  | emit mark mark' hbytes =>
    unfold Dialect.perform at hv hl
    dsimp only at hv hl
    split at hv
    · cases hv
    · rename_i parts hparts
      split at hl
      · cases hl
      · rename_i parts' hparts'
        obtain rfl := congrArg Outcome.edits hv
        obtain rfl := congrArg Outcome.edits hl
        exact .cons (alike_of_sameBytes hbytes hp hq hparts hparts') .nil
  | label hname =>
    unfold Dialect.perform Program.defineLabel at hv hl
    dsimp only at hv hl
    split at hv
    · cases hv
    · split at hl
      · cases hl
      · obtain rfl := congrArg Outcome.edits hv
        obtain rfl := congrArg Outcome.edits hl
        exact .cons ⟨rfl, hname⟩ .nil
  | data items => exact corresponds_items items hp hq .nil hv hl
  | address value =>
    unfold Dialect.perform at hv hl
    dsimp only at hv hl
    split at hv
    · cases hv
    · rename_i n hn
      split at hl
      · cases hl
      · rename_i m hm
        obtain rfl := literal_unique hp hq hn hm
        unfold Program.setAddress at hv hl
        split at hv
        · cases hv
        · rename_i hnonneg
          rw [if_neg hnonneg] at hl
          obtain rfl := congrArg Outcome.edits hv
          obtain rfl := congrArg Outcome.edits hl
          exact .cons rfl .nil

/-! ## Lines -/

/-- A text that both languages carry out makes edits that correspond. -/
theorem corresponds_placeText {text : String} (hbare : isBareJump text = false)
    (hp : p.encoding = none) (hq : q.encoding = none) (levels : Nat)
    (hv : V8.dialect.placeText levels source text p = ⟨edits, none⟩)
    (hl : dialect.placeText levels source' text q = ⟨edits', none⟩) :
    List.Forall₂ Corresponds edits edits' := by
  by_cases hempty : text = ""
  · rw [Dialect.placeText, if_pos hempty] at hv hl
    obtain rfl := congrArg Outcome.edits hv
    obtain rfl := congrArg Outcome.edits hl
    exact .nil
  · rw [Dialect.placeText, if_neg hempty] at hv hl
    cases hfind : Rule.find? V8.dialect.rules text.toList with
    | none => simp [hfind, Outcome.refused] at hv
    | some v =>
      cases hfind' : Rule.find? dialect.rules text.toList with
      | none => simp [hfind', Outcome.refused] at hl
      | some l =>
        have hkindred : Kindred v l :=
          kindred_of_find? (by rwa [String.ofList_toList]) hfind hfind'
        rw [hfind] at hv
        rw [hfind'] at hl
        -- neither action expands the line, so it is carried out
        cases hkindred with
        | emit mark mark' hbytes => exact corresponds_perform (.emit mark mark' hbytes) hp hq hv hl
        | label hname => exact corresponds_perform (.label hname) hp hq hv hl
        | data items => exact corresponds_perform (.data items) hp hq hv hl
        | address value => exact corresponds_perform (.address value) hp hq hv hl

end Edits

end Lodestar

end PocketAsm

/-
  Proofs/Lodestar/Operands.lean --- what the Lodestar and the V8 read alike.

  The two languages spell operands differently.  The Lodestar has no octal
  numbers, and its names are shorter in what they may hold; the V8 has pairs
  everywhere.  But where the names of the labels are names of the Lodestar
  (`Named`), whatever the Lodestar can resolve has the same value in the
  language of the V8 (`value_of_value`), and so the fields of an instruction
  become the same bits (`encodes_of_encodes`).

  The Lodestar folds its lines to lower case first.  A text that is its own
  lower case keeps each of its lines (`lower_eq_self_of_subset`).
-/
import PocketAsm.Isa.Lodestar.Dialect
import PocketAsm.Proofs.Literals
import PocketAsm.Proofs.V8.Rules

set_option autoImplicit false

namespace PocketAsm

namespace Text

/-! ## Texts in lower case -/

/-- The character is its own lower case, wherever in a word it stands. -/
def IsSmall (c : Char) : Prop := lowerChar c = c ∧ c.toNat ≠ 0x3A3 ∧ c.toNat ≠ 0x130

theorem lowerChars_eq_self {cs : List Char} (h : ∀ c ∈ cs, IsSmall c) (before : List Char) :
    lowerChars before cs = cs := by
  induction cs generalizing before with
  | nil => rfl
  | cons c cs ih =>
    obtain ⟨⟨hlower, hsigma, hdotted⟩, hcs⟩ := List.forall_mem_cons.mp h
    rw [lowerChars, if_neg hsigma, if_neg hdotted, hlower, ih hcs]
    rfl

/-- Where lower case changes nothing, it changes no character: the two capitals that are handled
apart are never kept. -/
theorem isSmall_of_lowerChars {before cs : List Char} (h : lowerChars before cs = cs) :
    ∀ c ∈ cs, IsSmall c := by
  induction cs generalizing before with
  | nil => simp
  | cons c cs ih =>
    have hne {d : Char} {rest : List Char} (hhead : d :: rest = c :: cs) {n : Nat}
        (hc : c.toNat = n) (hd : d.toNat ≠ n) : False :=
      hd ((congrArg Char.toNat (List.cons.inj hhead).1).trans hc)
    rw [lowerChars] at h
    by_cases hsigma : c.toNat = 0x3A3
    · rw [if_pos hsigma] at h
      split at h
      · exact (hne h hsigma (by decide)).elim
      · exact (hne h hsigma (by decide)).elim
    · rw [if_neg hsigma] at h
      by_cases hdotted : c.toNat = 0x130
      · rw [if_pos hdotted] at h
        exact (hne h hdotted (by decide)).elim
      · rw [if_neg hdotted] at h
        obtain ⟨hlower, hcs⟩ := List.cons.inj h
        exact List.forall_mem_cons.mpr ⟨⟨hlower, hsigma, hdotted⟩, ih hcs⟩

/-- A text made of characters of a text in lower case is in lower case. -/
theorem lower_eq_self_of_subset {s t : String} (h : lower s = s) (hsub : t.toList ⊆ s.toList) :
    lower t = t := by
  have hs : lowerChars [] s.toList = s.toList := by
    rw [← String.toList_ofList (l := lowerChars [] s.toList)]
    exact congrArg String.toList h
  rw [lower, lowerChars_eq_self fun c hc => isSmall_of_lowerChars hs c (hsub hc),
    String.ofList_toList]

/-- The pieces between separators are made of characters of the text. -/
theorem subset_of_mem_splitOnP {p : Char → Bool} (cs : List Char) :
    ∀ piece ∈ cs.splitOnP p, piece ⊆ cs := by
  induction cs with
  | nil => simp
  | cons d cs ih =>
    intro piece hpiece
    rw [List.splitOnP_cons_eq_if_modifyHead] at hpiece
    split at hpiece
    · rcases List.mem_cons.mp hpiece with rfl | hpiece
      · exact List.nil_subset _
      · exact List.subset_cons_of_subset d (ih piece hpiece)
    · obtain ⟨first, rest, hsplit⟩ := List.exists_cons_of_ne_nil (List.splitOnP_ne_nil p cs)
      rw [hsplit, List.modifyHead_cons] at hpiece
      rw [hsplit] at ih
      rcases List.mem_cons.mp hpiece with rfl | hpiece
      · exact List.cons_subset_cons d (ih first List.mem_cons_self)
      · exact List.subset_cons_of_subset d (ih piece (List.mem_cons_of_mem first hpiece))

theorem toList_subset_of_mem_lines {s line : String} (h : line ∈ lines s) :
    line.toList ⊆ s.toList := by
  obtain ⟨piece, hpiece, rfl⟩ := List.mem_map.mp h
  rw [String.toList_ofList]
  exact subset_of_mem_splitOnP s.toList piece hpiece

theorem trim_subset (p : Char → Bool) (cs : List Char) : trim p cs ⊆ cs := by
  intro c hc
  have hleft := (List.dropWhile_sublist p).subset (List.mem_reverse.mp hc)
  exact (List.dropWhile_sublist p).subset (List.mem_reverse.mp hleft)

end Text

namespace Dialect

theorem beforeComment_subset (marks : List (List Char)) (cs : List Char) :
    beforeComment marks cs ⊆ cs := by
  induction cs with
  | nil => exact List.nil_subset _
  | cons c cs ih =>
    rw [beforeComment]
    split
    · exact List.nil_subset _
    · exact List.cons_subset_cons c ih

theorem stripComment_subset (dialect : Dialect) (raw : String) :
    (dialect.stripComment raw).toList ⊆ raw.toList := by
  rw [stripComment, String.toList_ofList]
  exact List.Subset.trans (Text.trim_subset _ _) (beforeComment_subset _ _)

/-- A line of a text in lower case is read as it stands, whether the dialect folds case or not. -/
theorem instructionOf_of_lower (dialect : Dialect) {text raw : String}
    (htext : Text.lower text = text) (hraw : raw ∈ Text.lines text) :
    dialect.instructionOf raw = dialect.stripComment raw := by
  have hsub := List.Subset.trans (dialect.stripComment_subset raw)
    (Text.toList_subset_of_mem_lines hraw)
  simp [instructionOf, Text.lower_eq_self_of_subset htext hsub]

/-! ## Fields -/

section Fields

variable {dialect : Dialect} {p : Program} {symbols : Symbols}

/-- Without a character encoding only numbers are literals. -/
theorem literal?_eq_read (hp : p.encoding = none) (text : String) :
    dialect.literal? p text = dialect.numbers.read text := by
  rw [literal?, hp]
  cases dialect.numbers.read text with
  | error e => rfl
  | ok found => cases found <;> rfl

end Fields

end Dialect

namespace Lodestar

open Pattern Text
open RadixMark (takeMinus_of_ne dropMark_of_ne accepts_number_of_read?)

/-! ## Numbers -/

/-- The characters that a number of the V8 begins with. -/
def beginsNumber (c : Char) : Bool :=
  c == '-' || c == '$' || c == '%' || c == '@' || Text.isDigit c

/-- What begins as no number does is no number. -/
theorem parse?_eq_none {text : String} {c : Char} {cs : List Char} (htext : text.toList = c :: cs)
    (hc : beginsNumber c = false) : NumberSyntax.dollar.parse? text = none := by
  simp only [beginsNumber, Bool.or_eq_false_iff, beq_eq_false_iff_ne] at hc
  obtain ⟨⟨⟨⟨hminus, hdollar⟩, hpercent⟩, hat⟩, hdigit⟩ := hc
  have hten : RadixMark.isDigit 10 c = false := by
    rw [Bool.eq_false_iff]
    exact fun h => Bool.eq_false_iff.mp hdigit (RadixMark.isDigit_of_isDigit_ten h)
  have hsign {d : Char} (hd : d.toNat < 97) (hfold : foldLetter d = d) (hne : c ≠ d) :
      sameLetter d c = false := by
    rw [sameLetter, beq_eq_false_iff_ne, hfold]
    exact fun h => hne (eq_of_foldLetter_eq (.inl hd) h.symm)
  rw [← String.ofList_toList (s := text), htext]
  refine NumberSyntax.parse?_eq_none_of_opens hminus ?_ cs
  simp only [NumberSyntax.dollar, List.forall_mem_cons]
  exact ⟨hsign (by decide) (by decide) hdollar, hsign (by decide) (by decide) hpercent,
    hsign (by decide) (by decide) hat, hten, by simp⟩

/-- A decimal number is no octal one. -/
theorem read?_octal_eq_none {cs : List Char} {n : Int}
    (h : RadixMark.read? ⟨[], 10, false⟩ cs = some n) :
    RadixMark.read? ⟨['@'], 8, true⟩ cs = none := by
  have hdrop : RadixMark.dropMark ['@'] (RadixMark.takeMinus cs).2 = none := by
    cases hcs : (RadixMark.takeMinus cs).2 with
    | nil => rfl
    | cons c rest =>
      refine dropMark_of_ne (by decide) (by decide) ?_ [] rest
      rintro rfl
      have hdigit : RadixMark.isDigit 10 '@' = false := by decide
      simp [RadixMark.read?, RadixMark.dropMark, hcs, RadixMark.magnitude?, hdigit] at h
  simp only [RadixMark.read?, hdrop]

/-- The Lodestar tries the same radixes as the V8, except for the octal one. -/
theorem parse?_of_parse? {text : String} {n : Int}
    (h : NumberSyntax.lodestar.parse? text = some n) :
    NumberSyntax.dollar.parse? text = some n := by
  simp only [NumberSyntax.parse?, NumberSyntax.lodestar, NumberSyntax.dollar, List.findSome?_cons,
    List.findSome?_nil] at h ⊢
  cases hsixteen : RadixMark.read? ⟨['$'], 16, true⟩ text.toList with
  | some m => simpa only [hsixteen] using h
  | none =>
    cases htwo : RadixMark.read? ⟨['%'], 2, true⟩ text.toList with
    | some m => simpa only [hsixteen, htwo] using h
    | none =>
      cases hten : RadixMark.read? ⟨[], 10, false⟩ text.toList with
      | some m => simpa only [hsixteen, htwo, hten, read?_octal_eq_none hten] using h
      | none => simp [hsixteen, htwo, hten] at h

theorem isOverlong_eq (text : String) :
    NumberSyntax.lodestar.isOverlong text = NumberSyntax.dollar.isOverlong text := by
  simp [NumberSyntax.isOverlong, NumberSyntax.lodestar, NumberSyntax.dollar]

/-- A number of the Lodestar is the same number on the V8. -/
theorem read_of_read {text : String} {n : Int}
    (h : NumberSyntax.lodestar.read text = .ok (some n)) :
    NumberSyntax.dollar.read text = .ok (some n) := by
  rw [NumberSyntax.read, isOverlong_eq] at h
  rw [NumberSyntax.read]
  split at h
  · simp at h
  · rename_i hshort
    rw [if_neg hshort, parse?_of_parse? (Except.ok.inj h)]

/-! ## Names -/

/-- The characters that a name of the Lodestar begins with. -/
def beginsName (c : Char) : Bool := Text.isLetter c || c == '_'

theorem beginsNumber_of_beginsName {c : Char} (hc : beginsName c = true) :
    beginsNumber c = false := by
  rw [Bool.eq_false_iff]
  intro hbegins
  have hascii : c.toNat < 128 := by
    simp only [beginsNumber, Bool.or_eq_true, beq_iff_eq] at hbegins
    rcases hbegins with (((rfl | rfl) | rfl) | rfl) | hdigit
    any_goals decide
    obtain ⟨-, hhigh⟩ := Bool.and_eq_true_iff.mp hdigit
    have hhigh : c.toNat ≤ 57 := of_decide_eq_true hhigh
    omega
  exact ascii_forall (P := fun c => beginsNumber c = true → beginsName c ≠ true)
    (by decide +kernel) hascii hbegins hc

/-- The names of the labels are names of the Lodestar. -/
def Named (labels : SymbolTable) : Prop := ∀ entry ∈ labels, label.Accepts entry.1.toList []

theorem exists_head_of_label {cs : List Char} {ops : List (Slot × String)}
    (h : label.Accepts cs ops) : ∃ c rest, cs = c :: rest ∧ beginsName c = true := by
  obtain ⟨x, rest, u, v, rfl, -, ⟨⟨c, rfl, hc⟩, -⟩, -⟩ := h
  exact ⟨c, rest, rfl, hc⟩

/-! ## Values -/

section Values

variable {labels : SymbolTable} {text : String} {origin n : Int} {relative : Bool}

theorem exists_head_of_labelValue? {numbers : NumberSyntax} {constants : SymbolTable}
    (hnamed : Named labels)
    (h : (⟨numbers, labels, constants⟩ : Symbols).labelValue? text origin relative = some n) :
    ∃ c rest, text.toList = c :: rest ∧ beginsName c = true := by
  obtain ⟨address, hlookup, -⟩ := Option.map_eq_some_iff.mp h
  obtain ⟨before, after, rfl, -⟩ := List.lookup_eq_some_iff.mp hlookup
  exact exists_head_of_label (hnamed (text, address) (by simp))

/-- Where a label has the name, it is no number of the V8. -/
theorem read_of_labelValue? {numbers : NumberSyntax} {constants : SymbolTable}
    (hnamed : Named labels)
    (h : (⟨numbers, labels, constants⟩ : Symbols).labelValue? text origin relative = some n) :
    NumberSyntax.dollar.read text = .ok none := by
  obtain ⟨c, rest, htext, hc⟩ := exists_head_of_labelValue? hnamed h
  exact Dialect.read_eq_none (parse?_eq_none htext (beginsNumber_of_beginsName hc))

/-- What the Lodestar resolves has the same value on the V8. -/
theorem atom_of_atom (hnamed : Named labels)
    (h : (⟨.lodestar, labels, []⟩ : Symbols).atom text origin relative = .ok n) :
    (⟨.dollar, labels, []⟩ : Symbols).atom text origin relative = .ok n := by
  unfold Symbols.atom at h ⊢
  cases hread : NumberSyntax.lodestar.read text with
  | error e => simp [hread] at h
  | ok found =>
    cases found with
    | some m =>
      rw [read_of_read hread]
      simpa [hread] using h
    | none =>
      simp only [hread] at h
      cases hlabel : (⟨.lodestar, labels, []⟩ : Symbols).labelValue? text origin relative with
      | none => simp [hlabel] at h
      | some m =>
        simp only [hlabel] at h
        simp only [read_of_labelValue? hnamed hlabel]
        have hsame : (⟨.dollar, labels, []⟩ : Symbols).labelValue? text origin relative = some m :=
          hlabel
        rw [hsame]
        exact h

/-- A pair stands in parentheses. -/
theorem exists_paren_of_pair {cs : List Char} {caps : Captures}
    (h : Symbols.pairPattern.match? cs = some caps) : ∃ rest, cs = '(' :: rest := by
  obtain ⟨ops, haccepts, -⟩ := accepts_of_match? h
  obtain ⟨x, y, u, v, rfl, -, hopen, -⟩ := accepts_all_cons.mp haccepts
  exact ⟨y, by rw [accepts_sign (by decide) (by decide) hopen]; rfl⟩

@[inherit_doc atom_of_atom]
theorem value_of_value (hnamed : Named labels)
    (h : (⟨.lodestar, labels, []⟩ : Symbols).value text origin relative = .ok n) :
    NumberSyntax.dollar.read text = NumberSyntax.lodestar.read text ∧
      (⟨.dollar, labels, []⟩ : Symbols).value text origin relative = .ok n := by
  unfold Symbols.value at h ⊢
  cases hread : NumberSyntax.lodestar.read text with
  | error e => simp [hread] at h
  | ok found =>
    cases found with
    | some m =>
      rw [read_of_read hread]
      exact ⟨rfl, by simpa [hread] using h⟩
    | none =>
      simp only [hread] at h
      cases hlabel : (⟨.lodestar, labels, []⟩ : Symbols).labelValue? text origin relative with
      | some m =>
        have hsame : (⟨.dollar, labels, []⟩ : Symbols).labelValue? text origin relative = some m :=
          hlabel
        simp only [hlabel] at h
        simp only [read_of_labelValue? hnamed hlabel, hsame]
        exact ⟨trivial, h⟩
      | none =>
        have hsame : (⟨.dollar, labels, []⟩ : Symbols).labelValue? text origin relative = none :=
          hlabel
        simp only [hlabel] at h
        cases hpair : Symbols.pairPattern.match? text.toList with
        | none => simp [hpair] at h
        | some caps =>
          obtain ⟨rest, htext⟩ := exists_paren_of_pair hpair
          have hnumber : NumberSyntax.dollar.read text = .ok none :=
            Dialect.read_eq_none (parse?_eq_none htext (by decide))
          simp only [hpair] at h
          simp only [hnumber, hsame]
          refine ⟨trivial, ?_⟩
          split at h
          · simp at h
          · rename_i base hbase
            split at h
            · simp at h
            · rename_i offset hoffset
              rw [atom_of_atom hnamed hbase]
              dsimp only
              rw [atom_of_atom hnamed hoffset]
              exact h

end Values

/-! ## Fields -/

/-- A program and labels of the Lodestar: no character encoding is in force, and the names are its
own. -/
structure Native (p : Program) (labels : SymbolTable) : Prop where
  encoding : p.encoding = none
  named : Named labels

section Fields

variable {p : Program} {labels : SymbolTable}

/-- An operand that the Lodestar resolves becomes the same part and the same bits on the V8. -/
theorem operand_of_operand (hnative : Native p labels) {text : String} {width : Nat}
    {signed relative : Bool} {part : Part} {bits : Bits}
    (hpart : dialect.operand p text width signed relative = .ok part)
    (hbits : (⟨.lodestar, labels, []⟩ : Symbols).partBits part = .ok bits) :
    V8.dialect.operand p text width signed relative = .ok part ∧
      (⟨.dollar, labels, []⟩ : Symbols).partBits part = .ok bits := by
  have hlodestar : dialect.literal? p text = NumberSyntax.lodestar.read text :=
    Dialect.literal?_eq_read hnative.encoding text
  have hv8 : V8.dialect.literal? p text = NumberSyntax.dollar.read text :=
    Dialect.literal?_eq_read hnative.encoding text
  unfold Dialect.operand at hpart ⊢
  rw [hlodestar] at hpart
  rw [hv8]
  cases hread : NumberSyntax.lodestar.read text with
  | error e => simp [hread] at hpart
  | ok found =>
    cases found with
    | some m =>
      simp only [hread] at hpart
      simp only [read_of_read hread]
      refine ⟨hpart, ?_⟩
      split at hpart
      · simp at hpart
      · rw [← Except.ok.inj hpart] at hbits ⊢
        exact hbits
    | none =>
      simp only [hread] at hpart
      obtain rfl := Except.ok.inj hpart
      unfold Symbols.partBits at hbits ⊢
      dsimp only at hbits ⊢
      split at hbits
      · simp at hbits
      · rename_i m hvalue
        obtain ⟨hsame, hvalue⟩ := value_of_value hnative.named hvalue
        rw [hsame, hread, hvalue]
        exact ⟨rfl, hbits⟩

theorem encodesField_of_encodesField (hnative : Native p labels) {field : Field} {bits : Bits}
    (h : dialect.EncodesField p ⟨.lodestar, labels, []⟩ field bits) :
    V8.dialect.EncodesField p ⟨.dollar, labels, []⟩ field bits := by
  cases field with
  | bits fixed => exact Dialect.encodesField_bits.mpr (Dialect.encodesField_bits.mp h)
  | register code => exact Dialect.encodesField_register.mpr (Dialect.encodesField_register.mp h)
  | value text width signed relative =>
    obtain ⟨part, hpart, hbits⟩ := h
    exact ⟨part, operand_of_operand hnative hpart hbits⟩

/-- Fields that become bits on the Lodestar become the same bits on the V8. -/
theorem encodes_of_encodes (hnative : Native p labels) {fields : List Field} {bits : Bits}
    (h : dialect.Encodes p ⟨.lodestar, labels, []⟩ fields bits) :
    V8.dialect.Encodes p ⟨.dollar, labels, []⟩ fields bits := by
  induction fields generalizing bits with
  | nil => exact h
  | cons field fields ih =>
    obtain ⟨first, rest, rfl, hfirst, hrest⟩ := h
    exact ⟨first, rest, rfl, encodesField_of_encodesField hnative hfirst, ih hrest⟩

end Fields

/-! ## What operands look like -/

/-- A number or a name: perhaps the mark of a radix, then characters of names. -/
def Spelled (cs : List Char) : Prop :=
  ∃ mark name, cs = mark ++ name ∧ (mark = [] ∨ mark = ['%'] ∨ mark = ['$']) ∧ name ≠ [] ∧
    ∀ c ∈ name, Operand.isNameChar c = true

section Shapes

variable {cs : List Char} {ops : List (Slot × String)}

theorem Spelled.ne_nil (h : Spelled cs) : cs ≠ [] := by
  obtain ⟨mark, name, rfl, -, hne, -⟩ := h
  simp [hne]

theorem Spelled.isAtom (h : Spelled cs) : ∀ c ∈ cs, Operand.isAtomChar c = true := by
  obtain ⟨mark, name, rfl, hmark, -, hname⟩ := h
  refine List.forall_mem_append.mpr ⟨?_, fun c hc => Operand.isAtomChar_of_isNameChar (hname c hc)⟩
  rcases hmark with rfl | rfl | rfl
  · simp
  · exact List.forall_mem_singleton.mpr (by decide)
  · exact List.forall_mem_singleton.mpr (by decide)

/-- An operand is one token. -/
theorem Spelled.whole (h : Spelled cs) : Whole cs := Operand.whole_of_atom h.isAtom

theorem Spelled.not_mem (h : Spelled cs) {c : Char} (hc : Operand.isAtomChar c = false) :
    c ∉ cs := fun hmem => by simp [h.isAtom c hmem] at hc

theorem isNameChar_of_isLetterIn {c : Char} (h : isLetterIn 'a' 'f' c = true) :
    Operand.isNameChar c = true := by
  obtain ⟨hlow, hhigh⟩ := Bool.and_eq_true_iff.mp h
  have hhigh : foldLetter c ≤ 'z' := (of_decide_eq_true hhigh).trans (by decide)
  simp [Operand.isNameChar, Text.isLetter, of_decide_eq_true hlow, hhigh]

theorem spelled_of_number (h : number.Accepts cs ops) : Spelled cs := by
  obtain ⟨mark, y, u, v, rfl, -, hmark, hy⟩ := accepts_all_cons.mp h
  obtain ⟨minus, digits, u', v', rfl, -, hminus, hdigits⟩ := accepts_all_cons.mp hy
  obtain ⟨hne, hdigits, -⟩ := accepts_oneOrMore.mp hdigits
  refine ⟨mark, minus ++ digits, rfl, ?_, by simp [hne], List.forall_mem_append.mpr ⟨?_, ?_⟩⟩
  · rcases hmark with ⟨⟨c, rfl, hc⟩, -⟩ | ⟨rfl, -⟩
    · simpa using hc
    · exact Or.inl rfl
  · rcases hminus with hminus | ⟨rfl, -⟩
    · rw [accepts_sign (by decide) (by decide) hminus]
      exact List.forall_mem_singleton.mpr (by decide)
    · simp
  · intro c hc
    have hdigit := hdigits c hc
    simp only [Bool.or_eq_true] at hdigit
    rcases hdigit with (hdigit | hletter) | hscore
    · simp [Operand.isNameChar, hdigit]
    · exact isNameChar_of_isLetterIn hletter
    · simp [Operand.isNameChar, hscore]

theorem spelled_of_label (h : label.Accepts cs ops) : Spelled cs := by
  obtain ⟨x, name, u, v, rfl, -, ⟨⟨c, rfl, hc⟩, -⟩, hname⟩ := h
  obtain ⟨-, hname, -⟩ := accepts_oneOrMore.mp hname
  refine ⟨[], c :: name, rfl, Or.inl rfl, by simp, List.forall_mem_cons.mpr ⟨?_, fun d hd => ?_⟩⟩
  · rcases Bool.or_eq_true_iff.mp hc with hletter | hscore
    · simp [Operand.isNameChar, hletter]
    · simp [Operand.isNameChar, hscore]
  · have hd := hname d hd
    simp only [Bool.or_eq_true] at hd
    rcases hd with (hd | hd) | hd
    all_goals simp [Operand.isNameChar, hd]

theorem spelled_of_absolute (h : absolute.Accepts cs ops) : Spelled cs := by
  rcases h with h | h
  · exact spelled_of_number h
  · exact spelled_of_label h

end Shapes

/-! ## Operands of the V8 -/

section Numbers

variable {cs : List Char} {ops : List (Slot × String)} {n : Int}

variable {p : Program} {labels : SymbolTable}

/-- What begins as no name and no pair has a value as a number only. -/
theorem parse?_isSome_of_valueOf (hnative : Native p labels) {text : String} {c : Char}
    {rest : List Char} (htext : text.toList = c :: rest) (hname : beginsName c = false)
    (hparen : c ≠ '(') (h : V8.valueOf p ⟨.dollar, labels, []⟩ text = some n) :
    (NumberSyntax.dollar.parse? text).isSome = true := by
  by_contra hnone
  have hread := Dialect.read_eq_none (Option.not_isSome_iff_eq_none.mp hnone)
  have hliteral : V8.dialect.literal? p text = .ok none :=
    (Dialect.literal?_eq_read hnative.encoding _).trans hread
  have hlabel :
      (⟨.dollar, labels, []⟩ : Symbols).labelValue? text p.address false = none := by
    by_contra hsome
    obtain ⟨m, hm⟩ := Option.ne_none_iff_exists'.mp hsome
    obtain ⟨d, others, hothers, hd⟩ := exists_head_of_labelValue? hnative.named hm
    rw [htext] at hothers
    rw [← (List.cons.inj hothers).1, hname] at hd
    cases hd
  have hpair : Symbols.pairPattern.match? text.toList = none := by
    by_contra hsome
    obtain ⟨caps, hcaps⟩ := Option.ne_none_iff_exists'.mp hsome
    obtain ⟨others, hothers⟩ := exists_paren_of_pair hcaps
    rw [htext] at hothers
    exact hparen (List.cons.inj hothers).1
  simp [V8.valueOf, Dialect.operandValue?, hliteral, Symbols.value, hread, hlabel, hpair,
    Except.toOption] at h

/-- An operand of the Lodestar that has a value is an operand of the V8. -/
theorem accepts_operand (hnative : Native p labels) (h : Spelled cs)
    (hvalue : V8.valueOf p ⟨.dollar, labels, []⟩ (String.ofList cs) = some n) :
    V8.operand.Accepts cs [] := by
  obtain ⟨mark, name, rfl, hmark, hne, hname⟩ := h
  have hnumber {c : Char} (hc : beginsName c = false) (hparen : c ≠ '(')
      (hvalue : V8.valueOf p ⟨.dollar, labels, []⟩ (String.ofList ([c] ++ name)) = some n) :
      V8.operand.Accepts ([c] ++ name) [] := by
    obtain ⟨m, hm⟩ := Option.isSome_iff_exists.mp
      (parse?_isSome_of_valueOf hnative String.toList_ofList hc hparen hvalue)
    obtain ⟨mark, hmark, hread⟩ := List.exists_of_findSome?_eq_some hm
    rw [String.toList_ofList] at hread
    exact Or.inl (Operand.accepts_atom_number hmark (accepts_number_of_read? hread))
  rcases hmark with rfl | rfl | rfl
  · exact Or.inl (Operand.accepts_atom_name hne hname)
  · exact hnumber (by decide) (by decide) hvalue
  · exact hnumber (by decide) (by decide) hvalue

end Numbers

end Lodestar

end PocketAsm

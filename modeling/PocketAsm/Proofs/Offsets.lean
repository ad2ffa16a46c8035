/-
  Proofs/Offsets.lean --- pairs of a label and a number.

  The texts `(label+number)` and `(label-number)` stand for the addresses so
  many words behind and before a label (`value_side`).  No dialect takes them
  for literals, and every dialect with pairs takes them for operands; but their
  inside may be a name, since a name may have hyphens in it.
-/
import PocketAsm.Proofs.Encoding
import PocketAsm.Proofs.Pairs
import PocketAsm.Proofs.Twins

set_option autoImplicit false

namespace PocketAsm

open Pattern Text

/-! ## Letters -/

namespace Text

/-- A letter belongs to ASCII, or it is one of four others. -/
theorem toNat_of_isLetter {c : Char} (h : isLetter c = true) :
    c.toNat < 128 ∨ c.toNat ∈ [0x17F, 0x212A, 0x130, 0x131] := by
  by_contra hnot
  obtain ⟨hhigh, hothers⟩ := not_or.mp hnot
  simp only [List.mem_cons, List.not_mem_nil, or_false, not_or] at hothers
  obtain ⟨hs, hk, hi, hj⟩ := hothers
  have hlower : c.toLower = c := toLower_of_le (Nat.not_lt.mp hhigh)
  rw [isLetter, foldLetter, if_neg hs, if_neg hk, if_neg hi, if_neg hj, hlower] at h
  have hle : c.toNat ≤ 122 := of_decide_eq_true (Bool.and_eq_true_iff.mp h).2
  omega

theorem isWordChar_of_isLetter {c : Char} (h : isLetter c = true) : isWordChar c = true := by
  rcases toNat_of_isLetter h with hascii | hother
  · have hclass : isLetter c = true → isWordChar c = true :=
      ascii_forall (P := fun d => isLetter d = true → isWordChar d = true) (by decide +kernel)
        hascii
    exact hclass h
  · have hothers : ∀ n ∈ [0x17F, 0x212A, 0x130, 0x131], isWordChar (Char.ofNat n) = true := by
      decide +kernel
    rw [← Char.ofNat_toNat c]
    exact hothers _ hother

theorem isLetter_eq_false_of_isDigit {c : Char} (h : isDigit c = true) : isLetter c = false := by
  have hle : c ≤ '9' := of_decide_eq_true (Bool.and_eq_true_iff.mp h).2
  have hle : c.toNat ≤ 57 := hle
  have hclass : isDigit c = true → isLetter c = false :=
    ascii_forall (P := fun d => isDigit d = true → isLetter d = false) (by decide +kernel)
      (by omega)
  exact hclass h

/-- A letter is no sign. -/
theorem ne_of_isLetter {c d : Char} (hc : isLetter c = true) (hd : isLetter d = false) : c ≠ d := by
  rintro rfl
  rw [hc] at hd
  cases hd

end Text

namespace Operand

theorem isBlank_eq_false_of_isNameChar {c : Char} (h : isNameChar c = true) :
    isBlank c = false := by
  have hseparator := isSeparator_of_isAtomChar (isAtomChar_of_isNameChar h)
  rw [isSeparator, Bool.or_eq_false_iff] at hseparator
  exact hseparator.2

theorem isPairChar_of_isNameChar {c : Char} (h : isNameChar c = true) :
    Symbols.isPairChar c = true := by
  simp only [isNameChar, Bool.or_eq_true, beq_iff_eq] at h
  rcases h with ((h | h) | rfl) | rfl
  · simp [Symbols.isPairChar, isWordChar_of_isLetter h]
  · have hle : c ≤ '9' := of_decide_eq_true (Bool.and_eq_true_iff.mp h).2
    have hle : c.toNat ≤ 57 := hle
    have hclass : Text.isDigit c = true → Symbols.isPairChar c = true :=
      ascii_forall (P := fun d => Text.isDigit d = true → Symbols.isPairChar d = true)
        (by decide +kernel) (by omega)
    exact hclass h
  · decide
  · decide

end Operand

/-- The signs that marks of numbers begin with. -/
def RadixMark.signs : List Char := ['$', '%', '@', '0']

theorem NumberSyntax.all_of_mem {numbers : NumberSyntax}
    (hnumbers : numbers ∈ [.dollar, .zeroMarked]) : numbers ∈ NumberSyntax.all := by
  rcases List.mem_pair.mp hnumbers with rfl | rfl <;> decide

/-- No number begins with a letter or an opening parenthesis. -/
theorem NumberSyntax.read_eq_none {numbers : NumberSyntax}
    (hnumbers : numbers ∈ [.dollar, .zeroMarked]) {c : Char}
    (hc : c = '(' ∨ Text.isLetter c = true) (cs : List Char) :
    numbers.read (String.ofList (c :: cs)) = .ok none := by
  have hmarks : ∀ numbers ∈ [NumberSyntax.dollar, .zeroMarked], ∀ m ∈ numbers.marks,
      (m.mark = [] ∧ m.radix = 10) ∨ m.mark.head? ∈ RadixMark.signs.map some := by
    decide
  have hsigns : RadixMark.signs.all (fun d => foldLetter d == d && d.toNat < 97 && d != '(' &&
      !Text.isLetter d) = true := by
    decide
  have hminus : c ≠ '-' := by
    rcases hc with rfl | hc
    · decide
    · exact ne_of_isLetter hc (by decide)
  refine Dialect.read_eq_none (NumberSyntax.parse?_eq_none_of_opens hminus ?_ cs)
  intro m hm
  obtain ⟨mark, radix, innerSign⟩ := m
  rcases hmarks numbers hnumbers _ hm with ⟨rfl, rfl⟩ | hhead
  · change RadixMark.isDigit 10 c = false
    rw [Bool.eq_false_iff]
    intro hdigit
    have hdigit := RadixMark.isDigit_of_isDigit_ten hdigit
    rcases hc with rfl | hc
    · revert hdigit
      decide
    · rw [isLetter_eq_false_of_isDigit hdigit] at hc
      cases hc
  · obtain ⟨d, hd, hhead⟩ := List.mem_map.mp hhead
    obtain ⟨mark, rfl⟩ := List.head?_eq_some_iff.mp hhead.symm
    change sameLetter d c = false
    rw [Bool.eq_false_iff]
    intro hsame
    have hsign := List.all_eq_true.mp hsigns d hd
    simp only [Bool.and_eq_true, beq_iff_eq, decide_eq_true_eq, bne_iff_ne,
      Bool.not_eq_true'] at hsign
    obtain ⟨⟨⟨hfold, hsmall⟩, hparen⟩, hletter⟩ := hsign
    rw [sameLetter, beq_iff_eq, hfold] at hsame
    have hcd : c = d := eq_of_foldLetter_eq (.inl hsmall) hsame.symm
    rcases hc with rfl | hc
    · exact hparen hcd.symm
    · exact ne_of_isLetter hc hletter hcd

/-! ## Decimal numbers -/

namespace RadixMark

variable {cs : List Char} {n : Int}

/-- Numbers without a mark. -/
def decimal : RadixMark := ⟨[], 10, false⟩

/-- A digit, or an underscore among digits. -/
def isDecimalChar (c : Char) : Bool := isDigit 10 c || c == '_'

/-- A decimal number is digits, perhaps behind a minus sign. -/
theorem digits_of_decimal (h : decimal.read? cs = some n) :
    (takeMinus cs).2 ≠ [] ∧ ∀ c ∈ (takeMinus cs).2, isDecimalChar c = true := by
  have hmagnitude : (magnitude? 10 (takeMinus cs).2).isSome = true := by
    simp only [read?, decimal, dropMark, Bool.false_eq_true, if_false] at h
    cases hdigits : magnitude? 10 (takeMinus cs).2 with
    | none => simp [hdigits] at h
    | some magnitude => rfl
  cases hcs : (takeMinus cs).2 with
  | nil => simp [hcs, magnitude?] at hmagnitude
  | cons d ds =>
    simp only [hcs, magnitude?, Option.isSome_ite, Bool.and_eq_true, List.all_eq_true] at hmagnitude
    refine ⟨List.cons_ne_nil d ds, List.forall_mem_cons.mpr ⟨?_, hmagnitude.2⟩⟩
    rw [isDecimalChar, hmagnitude.1, Bool.true_or]

theorem isNameChar_of_decimal (h : decimal.read? cs = some n) :
    cs ≠ [] ∧ ∀ c ∈ cs, Operand.isNameChar c = true := by
  obtain ⟨hne, hall⟩ := digits_of_decimal h
  obtain ⟨sign, hcs, hsign⟩ := accepts_takeMinus cs
  have hminus : Operand.minus.Within Operand.isNameChar :=
    ⟨Operand.within_letter_name (by decide) (by decide), trivial⟩
  have hdigits : ∀ c ∈ (takeMinus cs).2, Operand.isNameChar c = true := by
    intro c hc
    rcases (Bool.or_eq_true _ _).mp (hall c hc) with hdigit | hbar
    · exact Operand.isNameChar_of_isDigit hdigit
    · rw [beq_iff_eq.mp hbar]
      decide
  rw [hcs]
  exact ⟨List.append_ne_nil_of_right_ne_nil sign hne,
    List.forall_mem_append.mpr ⟨hminus.of_accepts hsign, hdigits⟩⟩

theorem exists_of_dropMark {ms rest : List Char} (h : dropMark ms cs = some rest) :
    ∀ m ∈ ms, ∃ c ∈ cs, Text.sameLetter m c = true := by
  induction ms generalizing cs with
  | nil => simp
  | cons m ms ih =>
    cases cs with
    | nil => simp [dropMark] at h
    | cons c cs =>
      rw [dropMark] at h
      split at h
      · rename_i hc
        refine List.forall_mem_cons.mpr ⟨⟨c, List.mem_cons_self, hc⟩, fun m hm => ?_⟩
        obtain ⟨d, hd, hsame⟩ := ih h m hm
        exact ⟨d, List.mem_cons_of_mem c hd, hsame⟩
      · cases h

/-- A decimal number has no mark of another radix. -/
theorem read?_eq_none_of_decimal (h : decimal.read? cs = some n) {m : RadixMark} {c : Char}
    (hc : c ∈ ['$', '%', '@', 'x', 'b', 'o']) (hmark : c ∈ m.mark) : m.read? cs = none := by
  have hdrop : dropMark m.mark (takeMinus cs).2 = none := by
    rw [Option.eq_none_iff_forall_ne_some]
    intro rest hrest
    obtain ⟨d, hd, hsame⟩ := exists_of_dropMark hrest c hmark
    have hdecimal := (digits_of_decimal h).2 d hd
    have hlow : d.toNat < 128 := by
      rcases (Bool.or_eq_true _ _).mp hdecimal with hdigit | hbar
      · have hle : d ≤ '9' :=
          of_decide_eq_true (Bool.and_eq_true_iff.mp (isDigit_of_isDigit_ten hdigit)).2
        have hle : d.toNat ≤ 57 := hle
        omega
      · rw [beq_iff_eq.mp hbar]
        decide
    have hclass : (isDecimalChar d && ['$', '%', '@', 'x', 'b', 'o'].any (Text.sameLetter · d)) =
        false :=
      ascii_forall (P := fun d => (isDecimalChar d &&
        ['$', '%', '@', 'x', 'b', 'o'].any (Text.sameLetter · d)) = false) (by decide +kernel) hlow
    rw [hdecimal, Bool.true_and, List.any_eq_false] at hclass
    exact hclass c hc hsame
  simp [read?, hdrop]

end RadixMark

/-- A decimal number is read as one in every dialect. -/
theorem NumberSyntax.read_of_decimal {numbers : NumberSyntax}
    (hnumbers : numbers ∈ [.dollar, .zeroMarked]) {cs : List Char} {n : Int}
    (h : RadixMark.decimal.read? cs = some n)
    (hlegible : numbers.isOverlong (String.ofList cs) = false) :
    numbers.read (String.ofList cs) = .ok (some n) := by
  have hnone {m : RadixMark} (c : Char) (hc : c ∈ ['$', '%', '@', 'x', 'b', 'o'])
      (hmark : c ∈ m.mark) : m.read? cs = none :=
    RadixMark.read?_eq_none_of_decimal h hc hmark
  have hdecimal : RadixMark.read? ⟨[], 10, false⟩ cs = some n := h
  refine read_eq_some.mpr ⟨hlegible, ?_⟩
  rw [parse?, String.toList_ofList]
  simp only [List.mem_cons, List.not_mem_nil, or_false] at hnumbers
  rcases hnumbers with rfl | rfl
  · simp only [dollar, List.findSome?_cons]
    rw [hnone '$' (by decide) (by decide), hnone '%' (by decide) (by decide),
      hnone '@' (by decide) (by decide), hdecimal]
  · simp only [zeroMarked, List.findSome?_cons]
    rw [hnone 'x' (by decide) (by decide), hnone 'b' (by decide) (by decide),
      hnone 'o' (by decide) (by decide), hdecimal]

/-! ## A label and a number -/

/-- A label that is spelled with letters, and a decimal number with as many digits as are read. -/
structure LabelOffset (numbers : NumberSyntax) where
  label : List Char
  offset : List Char
  value : Int
  label_ne_nil : label ≠ []
  isLetter : ∀ c ∈ label, Text.isLetter c = true
  decimal : RadixMark.decimal.read? offset = some value
  legible : numbers.isOverlong (String.ofList offset) = false

namespace LabelOffset

variable {numbers : NumberSyntax} (o : LabelOffset numbers) {sign : Char}

/-- The pair with a sign between the label and the number. -/
def side (sign : Char) : List Char := '(' :: (o.label ++ sign :: (o.offset ++ [')']))

/-- The address that the pair stands for, given that of the label. -/
def target (sign : Char) (address : Int) : Int :=
  if sign = '+' then address + o.value else address - o.value

theorem offset_ne_nil : o.offset ≠ [] := (RadixMark.isNameChar_of_decimal o.decimal).1

theorem isNameChar : ∀ c ∈ o.offset, Operand.isNameChar c = true :=
  (RadixMark.isNameChar_of_decimal o.decimal).2

theorem isNameChar_of_mem_label {c : Char} (h : c ∈ o.label) : Operand.isNameChar c = true :=
  Operand.isNameChar_of_isLetter (o.isLetter c h)

/-- The pair stands in parentheses. -/
theorem filling (hsign : sign = '+' ∨ sign = '-') : Filling (o.side sign) where
  opens := by
    obtain ⟨c, label, hlabel⟩ := List.exists_cons_of_ne_nil o.label_ne_nil
    exact ⟨c, label ++ sign :: (o.offset ++ [')']), by rw [side, hlabel]; rfl,
      o.isLetter c (hlabel ▸ List.mem_cons_self)⟩
  closes := by
    have hname {cs : List Char} (h : ∀ c ∈ cs, Operand.isNameChar c = true) : ')' ∉ cs :=
      fun hmem => absurd (h _ hmem) (by decide)
    refine ⟨'(' :: (o.label ++ sign :: o.offset), by simp [side], ?_⟩
    have hne : ')' ≠ sign := by rcases hsign with rfl | rfl <;> decide
    simp [hname fun c => o.isNameChar_of_mem_label, hname o.isNameChar, hne]

/-- The pair is one of what the dialect takes for names and numbers. -/
theorem accepts_side {atom : Pattern} (hlabel : atom.Accepts o.label [])
    (hoffset : atom.Accepts o.offset []) (hsign : sign = '+' ∨ sign = '-') :
    (Operand.pair atom).Accepts (o.side sign) [] := by
  have hclass : Operand.sign.Accepts [sign] [] := by
    refine accepts_all_cons.mpr ⟨[], [sign], [], [], rfl, rfl, ⟨by simp, rfl⟩, ?_⟩
    refine accepts_all_cons.mpr ⟨[sign], [], [], [], rfl, rfl, ⟨⟨sign, rfl, ?_⟩, rfl⟩, by simp, rfl⟩
    rcases hsign with rfl | rfl <;> decide
  refine accepts_all_cons.mpr ⟨['('], _, [], [], rfl, rfl, ⟨⟨'(', rfl, by decide⟩, rfl⟩, ?_⟩
  refine accepts_all_cons.mpr ⟨o.label, _, [], [], rfl, rfl, hlabel, ?_⟩
  refine accepts_all_cons.mpr ⟨[sign], _, [], [], rfl, rfl, hclass, ?_⟩
  exact accepts_all_cons.mpr
    ⟨o.offset, [')'], [], [], rfl, rfl, hoffset, ⟨⟨')', rfl, by decide⟩, rfl⟩⟩

/-- The pair is no literal. -/
theorem symbolic {dialect : Dialect} (hnumbers : dialect.numbers ∈ [.dollar, .zeroMarked])
    (sign : Char) (o : LabelOffset dialect.numbers) : dialect.Symbolic (o.side sign) := by
  intro p
  have hread := NumberSyntax.read_eq_none hnumbers (.inl rfl)
    (o.label ++ sign :: (o.offset ++ [')']))
  have hcharacter : CharLiteral.body? (String.ofList (o.side sign)) = none :=
    RadixMark.body?_eq_none (by decide) (by decide) _
  exact Dialect.literal?_eq_none hread hcharacter

/-! ## Its value -/

/-- The pair has no white space. -/
def pair (hsign : sign = '+' ∨ sign = '-') : SpacedPair where
  base := o.label
  sign := sign
  offset := o.offset
  before := []
  left := []
  right := []
  after := []
  sign_eq := hsign
  blank_before := by simp
  blank_left := by simp
  blank_right := by simp
  blank_after := by simp

theorem text_pair (hsign : sign = '+' ∨ sign = '-') : (o.pair hsign).text = o.side sign := by
  simp [SpacedPair.text, SpacedPair.behindBase, SpacedPair.behindSign, SpacedPair.close, pair, side]

/-- The pair stands for an address, or for its distance. -/
theorem value_side {symbols : Symbols} (hnumbers : symbols.numbers ∈ [.dollar, .zeroMarked])
    (o : LabelOffset symbols.numbers) (hsign : sign = '+' ∨ sign = '-') {address : Int}
    (hlabel : List.lookup (String.ofList o.label) symbols.labels = some address)
    (hfree : List.lookup (String.ofList (o.side sign)) symbols.labels = none) (origin : Int)
    (relative : Bool) :
    symbols.value (String.ofList (o.side sign)) origin relative =
      .ok (if relative then o.target sign address - origin else o.target sign address) := by
  obtain ⟨c, label, hcs⟩ := List.exists_cons_of_ne_nil o.label_ne_nil
  have hname : symbols.numbers.read (String.ofList o.label) = .ok none := by
    have hletter := o.isLetter c (hcs ▸ List.mem_cons_self)
    rw [hcs]
    exact NumberSyntax.read_eq_none hnumbers (.inr hletter) label
  have hbase : symbols.atom (String.ofList o.label) origin relative =
      .ok (if relative then address - origin else address) := by
    simp only [Symbols.atom, hname, Symbols.labelValue?, hlabel, Option.map_some]
  have hoffset : symbols.atom (String.ofList o.offset) origin false = .ok o.value := by
    simp only [Symbols.atom, NumberSyntax.read_of_decimal hnumbers o.decimal o.legible]
  have hlabelchars : ∀ c ∈ o.label, Symbols.isPairChar c = true :=
    fun c hc => Symbols.isPairChar_of_isWordChar (isWordChar_of_isLetter (o.isLetter c hc))
  have hoffsetchars : ∀ c ∈ o.offset, Symbols.isPairChar c = true :=
    fun c hc => Operand.isPairChar_of_isNameChar (o.isNameChar c hc)
  have hplain : ∀ y z, o.label.tail = y ++ '-' :: z → z ≠ [] ∧ ¬(o.pair hsign).IsTight := by
    intro y z hyz
    have hmem : '-' ∈ o.label := List.mem_of_mem_tail (by rw [hyz]; simp)
    exact absurd (o.isLetter '-' hmem) (by decide)
  have hvalue := (o.pair hsign).value_text (NumberSyntax.all_of_mem hnumbers) o.label_ne_nil
    hlabelchars o.offset_ne_nil hoffsetchars hplain (by rw [text_pair]; exact hfree) origin relative
  rw [text_pair] at hvalue
  rw [hvalue, Symbols.pairValue, pair, Symbols.value_eq_atom hlabelchars, hbase,
    Symbols.value_eq_atom hoffsetchars, hoffset]
  refine congrArg Except.ok ?_
  dsimp only [target]
  cases relative <;> rcases hsign with rfl | rfl <;> simp <;> omega

end LabelOffset

end PocketAsm

/-
  Proofs/Parva/NumberLoads.lean --- loading a number into a register.

  A line `li r, n` is expanded into an addition to zero if the number fits its
  signed field of twelve bits, else into `lui` and `ori` with the two halves of
  the number in decimal digits, which are read again (`placesWords_of_fits`).
  The machine takes the first number in two's complement and puts the halves
  together (`loaded_after_words`); both come to the number modulo the number of
  words.  A number that does not fit a word is refused (`number_is_loaded`), but
  if it has too many decimal digits the run ends without a result.
-/
import PocketAsm.Proofs.Directives
import PocketAsm.Proofs.Literals
import PocketAsm.Proofs.Parva.Placing
import PocketAsm.Proofs.Parva.Written

set_option autoImplicit false

namespace PocketAsm.Parva

open Operand Pattern Text

/-! ## Lines that load a number -/

/-- A line that loads a number, in its parts. -/
structure LoadText where
  mnemonic : List Char
  gap : List Char
  register : List Char
  /-- the blanks before the comma -/
  before : List Char
  /-- a comma, or a blank in its place -/
  comma : Char
  /-- the blanks behind the comma -/
  after : List Char
  number : List Char

namespace LoadText

/-- The line as a whole. -/
def text (t : LoadText) : List Char :=
  t.mnemonic ++ (t.gap ++ (t.register ++ ((t.before ++ t.comma :: t.after) ++ t.number)))

/-- The line loads the number into the register. -/
structure Fits (t : LoadText) (index : RegisterIndex) (n : Int) : Prop where
  mnemonic : folded (String.ofList t.mnemonic) = "li"
  gap : t.gap ≠ [] ∧ ∀ c ∈ t.gap, isBlank c = true
  register : basicIndex? (String.ofList t.register) = some index
  before : ∀ c ∈ t.before, isBlank c = true
  comma : isSeparator t.comma = true
  after : ∀ c ∈ t.after, isBlank c = true
  number : NumberSyntax.zeroMarked.parse? (String.ofList t.number) = some n

end LoadText

/-! ## Registers and numbers as operands -/

section Operands

variable {name : String} {index : RegisterIndex} {n : Int}

theorem lookup_of_ofLower? (h : Register.ofLower? name = some (.basic index)) :
    List.lookup name basicRegisters = some index.val := by
  unfold Register.ofLower? at h
  split at h <;> cases h <;> rfl

/-- A basic register has its number as its code. -/
theorem lookup_of_basicIndex? (h : basicIndex? name = some index) :
    List.lookup (Text.lower name) basicRegisters = some index.val := by
  obtain ⟨register, hname, hindex⟩ := Option.bind_eq_some_iff.mp h
  cases register with
  | basic found =>
    obtain rfl := Option.some.inj hindex
    exact lookup_of_ofLower? hname
  | _ => cases hindex

theorem basic_of_basicIndex? (h : basicIndex? name = some index) :
    basic name = .ok (Bits.ofNat 3 index.val) := by
  simp only [basic, lookup_of_basicIndex? h]

theorem single_of_basicIndex? (h : basicIndex? name = some index) :
    single name = .ok (Bits.ofNat 4 index.val) := by
  simp only [single, List.lookup_append, lookup_of_basicIndex? h, Option.some_or]

theorem name_of_isRegister (h : isRegister name = true) :
    name.toList ≠ [] ∧ ∀ c ∈ name.toList, isNameChar c = true := by
  obtain ⟨hne, hletters⟩ := letters_of_isRegister h
  refine ⟨hne, fun c hc => ?_⟩
  have hletter : (isLetter c || isDigit c) = true := hletters c hc
  simp [isNameChar, hletter]

theorem operand_of_isRegister (h : isRegister name = true) :
    Parva.operand.Accepts name.toList [] :=
  operand_of_name (name_of_isRegister h).1 (name_of_isRegister h).2

theorem operand_of_basicIndex? (h : basicIndex? name = some index) :
    Parva.operand.Accepts name.toList [] :=
  operand_of_isRegister (isRegister_of_basic (basic_of_basicIndex? h))

theorem operand_of_parse? (h : NumberSyntax.zeroMarked.parse? name = some n) :
    Parva.operand.Accepts name.toList [] := by
  obtain ⟨hne, hname⟩ := NumberSyntax.name_of_parse? h
  exact operand_of_name hne hname

theorem operand_of_read (h : NumberSyntax.zeroMarked.read name = .ok (some n)) :
    Parva.operand.Accepts name.toList [] :=
  operand_of_parse? (NumberSyntax.read_eq_some.mp h).2

theorem literal_of_read (h : NumberSyntax.zeroMarked.read name = .ok (some n)) (p : Program) :
    dialect.literal? p name = .ok (some n) := by
  have hnumbers : dialect.numbers = .zeroMarked := rfl
  rw [Dialect.literal?, hnumbers, h]

end Operands

/-! ## The words of the lines -/

section Words

variable {p : Program} {symbols : Symbols} {index : RegisterIndex} {d a b : String} {n : Int}

/-- Fields of an instruction with a literal number make a word with the number in its low bits. -/
theorem exists_word_of_fields {first second : Field} {top x y low : Bits} {signed : Bool}
    (htop : top.length = 5) (hx : x.length = 4) (hy : y.length = 3)
    (hfirst : dialect.EncodesField p symbols first x)
    (hsecond : dialect.EncodesField p symbols second y)
    (hb : NumberSyntax.zeroMarked.read b = .ok (some n))
    (hlow : Bits.encodeField n 12 signed = .ok low) :
    ∃ bits, dialect.Encodes p symbols [.bits top, first, second, .value b 12 signed false] bits ∧
      bits.length = wordSize ∧
      Bits.toNat bits =
        layout (Bits.toNat top) (Bits.toNat x) (Bits.toNat y) (n % 4096).toNat := by
  have hlength : low.length = 12 := Bits.length_of_encodeField hlow
  have hspan : (Bits.span 12 : Int) = 4096 := by decide
  have hnumber : Bits.toNat low = (n % 4096).toNat := by
    have hvalue := Bits.toNat_of_encodeField hlow
    rw [hspan] at hvalue
    omega
  have hthird : dialect.EncodesField p symbols (.value b 12 signed false) low :=
    Dialect.encodesField_of_literal (literal_of_read hb p) hlow
  refine ⟨top ++ (x ++ (y ++ low)), ?_, ?_, ?_⟩
  · exact ⟨top, _, rfl, Dialect.encodesField_bits.mpr rfl, x, _, rfl, hfirst, y, _, rfl, hsecond,
      low, [], (List.append_nil low).symm, hthird, rfl⟩
  · simp [htop, hx, hy, hlength, wordSize]
  · rw [toNat_layout hx hy hlength, hnumber]

theorem toNat_ofNat_of_lt {width m : Nat} (h : m < Bits.span width) :
    Bits.toNat (Bits.ofNat width m) = m := by
  rw [Bits.toNat_ofNat, Nat.mod_eq_of_lt h]

/-- A line with an operation on a register and a literal number is placed as one word. -/
theorem placesWords_of_operation {word line : String} {op : Operation} {code : Nat} {low : Bits}
    (hop : (word, op, Second.immediate) ∈ operationForms) (hplain : op.isProduct = false)
    (hsub : op ≠ .sub)
    (hline : line.toList = word.toList ++ (" ".toList ++
      (d.toList ++ (", ".toList ++ (a.toList ++ (", ".toList ++ b.toList))))))
    (hd : basicIndex? d = some index) (ha : single a = .ok (Bits.ofNat 4 code)) (hcode : code < 16)
    (haccepts : Parva.operand.Accepts a.toList [])
    (hb : NumberSyntax.zeroMarked.read b = .ok (some n))
    (hlow : Bits.encodeField n 12 (op = .add) = .ok low) (levels : Nat) (source : Source)
    (p : Program) :
    PlacesWords (dialect.placeText levels source line p)
      [layout (2 * op.kind) code index.val (n % 4096).toNat] := by
  obtain ⟨-, hword, -, hrules⟩ := rulesFor_operation hop
  have hwritten : Written [d.toList, a.toList, b.toList]
      (d.toList ++ (", ".toList ++ (a.toList ++ (", ".toList ++ b.toList)))) :=
    .cons (operand_of_basicIndex? hd) (.cons haccepts ⟨rfl, operand_of_read hb⟩)
  have hregisters : ∀ name ∈ [d, a, b].dropLast, isRegister name = true := by
    have hdname := isRegister_of_basic (basic_of_basicIndex? hd)
    have haname := isRegister_of_single ha
    simp [hdname, haname]
  obtain ⟨hne, caps, hfind, hcaps⟩ :=
    find?_of_line [.d, .a, .b] hword hrules [d, a, b] hline hwritten rfl hregisters
  have hcaps_d : caps.get .d = d := hcaps .d
  have hcaps_a : caps.get .a = a := hcaps .a
  have hcaps_b : caps.get .b = b := hcaps .b
  rw [hcaps_d, hcaps_a, hcaps_b, Operation.fields, if_neg (by simp [hplain]), if_neg hsub] at hfind
  refine placesWords_of_emit hne hfind (fun symbols => ?_) levels source
  have hflag : Bits.toNat (Bits.ofText "0" ++ Bits.ofText op.digits ++ Bits.ofText "0") =
      2 * op.kind := by
    rw [Bits.toNat_append, op.toNat_digits]
    exact Nat.mul_comm _ _
  have hlength : (Bits.ofText "0" ++ Bits.ofText op.digits ++ Bits.ofText "0").length = 5 := by
    clear hop hsub hlow hrules
    cases op <;> first | rfl | simp [Operation.isProduct] at hplain
  obtain ⟨bits, hencodes, hbits, hnat⟩ := exists_word_of_fields hlength (Bits.length_ofNat 4 code)
    (Bits.length_ofNat 3 index.val) (Dialect.encodesField_register.mpr ha)
    (Dialect.encodesField_register.mpr (basic_of_basicIndex? hd)) hb hlow
  refine ⟨bits, Dialect.encodes_bits_bits.mpr (Dialect.encodes_bits_bits.mpr hencodes), hbits, ?_⟩
  have hx : Bits.toNat (Bits.ofNat 4 code) = code := toNat_ofNat_of_lt hcode
  have hy : Bits.toNat (Bits.ofNat 3 index.val) = index.val := toNat_ofNat_of_lt index.isLt
  rw [hnat, hflag, hx, hy]

/-- A line that loads the upper half of a register is placed as one word. -/
theorem placesWords_of_upper {low : Bits} (hd : basicIndex? d = some index)
    (ha : NumberSyntax.zeroMarked.read a = .ok (some n))
    (hlow : Bits.encodeField n 12 false = .ok low) (levels : Nat) (source : Source)
    (p : Program) :
    PlacesWords (dialect.placeText levels source s!"lui {d}, {a}" p)
      [layout 2 8 index.val (n % 4096).toNat] := by
  have hline : s!"lui {d}, {a}".toList =
      "lui".toList ++ (" ".toList ++ (d.toList ++ (", ".toList ++ a.toList))) := by
    change ("lui " ++ d ++ ", " ++ a).toList = _
    simp [String.toList_append]
  have hlui : IsWord "lui" := by decide
  have hwritten : Written [d.toList, a.toList] (d.toList ++ (", ".toList ++ a.toList)) :=
    .cons (operand_of_basicIndex? hd) ⟨rfl, operand_of_read ha⟩
  have hregisters : ∀ name ∈ [d, a].dropLast, isRegister name = true := by
    have hdname := isRegister_of_basic (basic_of_basicIndex? hd)
    simp [hdname]
  obtain ⟨hne, caps, hfind, hcaps⟩ :=
    find?_of_line [.d, .a] hlui rfl [d, a] hline hwritten rfl hregisters
  have hcaps_d : caps.get .d = d := hcaps .d
  have hcaps_a : caps.get .a = a := hcaps .a
  rw [hcaps_d, hcaps_a] at hfind
  refine placesWords_of_emit hne hfind (fun symbols => ?_) levels source
  have htop : (Bits.ofText "00010").length = 5 := rfl
  have hx : (Bits.ofText "1000").length = 4 := rfl
  have hzero : dialect.EncodesField p symbols (code "1000") (Bits.ofText "1000") :=
    Dialect.encodesField_bits.mpr rfl
  obtain ⟨bits, hencodes, hbits, hnat⟩ := exists_word_of_fields htop hx
    (Bits.length_ofNat 3 index.val) hzero
    (Dialect.encodesField_register.mpr (basic_of_basicIndex? hd)) ha hlow
  have hy : Bits.toNat (Bits.ofNat 3 index.val) = index.val := toNat_ofNat_of_lt index.isLt
  refine ⟨bits, hencodes, hbits, ?_⟩
  rw [hnat, hy]
  rfl

/-- A line that adds a number of twelve bits to zero is placed as one word. -/
theorem placesWords_of_addition (hd : basicIndex? d = some index)
    (ha : NumberSyntax.zeroMarked.read a = .ok (some n)) (hn : -2048 ≤ n ∧ n < 2048)
    (levels : Nat) (source : Source) (p : Program) :
    PlacesWords (dialect.placeText levels source s!"addi {d}, zero, {a}" p)
      [layout 0 8 index.val (n % 4096).toNat] := by
  have hline : s!"addi {d}, zero, {a}".toList = "addi".toList ++ (" ".toList ++
      (d.toList ++ (", ".toList ++ ("zero".toList ++ (", ".toList ++ a.toList))))) := by
    change ("addi " ++ d ++ ", zero, " ++ a).toList = _
    simp [String.toList_append]
  have hop : ("addi", Operation.add, Second.immediate) ∈ operationForms := by
    simp [operationForms, Statement.operations, Statement.immediateOperations]
  have hhalf : (Bits.span (12 - 1) : Int) = 2048 := by decide
  have hlow := Bits.encodeField_signed n 12 (by rwa [hhalf])
  exact placesWords_of_operation hop rfl (by decide) hline hd rfl (by decide)
    (accepts_written "zero" (by decide)) ha hlow levels source p

/-- Half of a word, in decimal digits, is read and encoded as it is. -/
theorem exists_half_field (hn : 0 ≤ n ∧ n < 4096) :
    NumberSyntax.zeroMarked.read (toString n) = .ok (some n) ∧
    ∃ low, Bits.encodeField n 12 false = .ok low := by
  have hsmall : n.natAbs < 10000 := by omega
  have hwritable : isWritable n = true := isWritable_of_lt 4 (by decide) hsmall
  have hspan : (Bits.span 12 : Int) = 4096 := by decide
  have hhalf : (Bits.span (12 - 1) : Int) = 2048 := by decide
  rw [Bits.encodeField_unsigned, hhalf, hspan, if_pos ⟨by omega, hn.2⟩]
  exact ⟨NumberSyntax.read_toString hn.1 hwritable, _, rfl⟩

theorem placesWords_of_upperHalf (hd : basicIndex? d = some index) (hn : 0 ≤ n ∧ n < 4096)
    (levels : Nat) (source : Source) (p : Program) :
    PlacesWords (dialect.placeText levels source s!"lui {d}, {n}" p)
      [layout 2 8 index.val n.toNat] := by
  obtain ⟨hread, low, hlow⟩ := exists_half_field hn
  have hwords := placesWords_of_upper hd hread hlow levels source p
  rwa [Int.emod_eq_of_lt hn.1 hn.2] at hwords

theorem placesWords_of_lowerHalf (hd : basicIndex? d = some index) (hn : 0 ≤ n ∧ n < 4096)
    (levels : Nat) (source : Source) (p : Program) :
    PlacesWords (dialect.placeText levels source s!"ori {d}, {d}, {n}" p)
      [layout 12 index.val index.val n.toNat] := by
  have hline : s!"ori {d}, {d}, {n}".toList = "ori".toList ++ (" ".toList ++
      (d.toList ++ (", ".toList ++ (d.toList ++ (", ".toList ++ (toString n).toList))))) := by
    change ("ori " ++ d ++ ", " ++ d ++ ", " ++ toString n).toList = _
    simp [String.toList_append]
  have hop : ("ori", Operation.or, Second.immediate) ∈ operationForms := by
    simp [operationForms, Statement.operations, Statement.immediateOperations]
  obtain ⟨hread, low, hlow⟩ := exists_half_field hn
  have hwords := placesWords_of_operation hop rfl (by decide) hline hd (single_of_basicIndex? hd)
    (by omega) (operand_of_basicIndex? hd) hread hlow levels source p
  rwa [Int.emod_eq_of_lt hn.1 hn.2] at hwords

end Words

/-! ## The expansion -/

/-- The words that load a number: one if the number fits twelve bits, else its two halves. -/
def loadCodes (index : RegisterIndex) (n : Int) : List Nat :=
  if -2048 ≤ n ∧ n < 2048 then [layout 0 8 index.val (n % 4096).toNat]
  else
    [layout 2 8 index.val (n / 4096 % 4096).toNat, layout 12 index.val index.val (n % 4096).toNat]

theorem length_loadCodes (index : RegisterIndex) (n : Int) :
    (loadCodes index n).length = if -2048 ≤ n ∧ n ≤ 2047 then 1 else 2 := by
  unfold loadCodes
  split <;> split <;> first | rfl | omega

theorem loadNumber_of_read {d a : String} {n : Int}
    (h : NumberSyntax.zeroMarked.read a = .ok (some n)) :
    loadNumber d a =
      if -8388608 ≤ n ∧ n < 16777216 then
        if -2048 ≤ n ∧ n < 2048 then .expand [s!"addi {d}, zero, {a}"]
        else .expand [s!"lui {d}, {n / 4096 % 4096}", s!"ori {d}, {d}, {n % 4096}"]
      else .reject (.outOfRange n wordSize (decide (n < 0))) := by
  have hhalf : (Bits.span (wordSize - 1) : Int) = 8388608 := by decide
  have hwhole : (Bits.span wordSize : Int) = 16777216 := by decide
  simp only [loadNumber, h, Bits.encodeField_unsigned, hhalf, hwhole]
  split
  · rename_i e he
    split at he
    · simp at he
    · rename_i hrange
      obtain rfl := Except.error.inj he
      rw [if_neg hrange]
  · rename_i bits hbits
    split at hbits
    · rename_i hrange
      rw [if_pos hrange]
    · simp at hbits

section Expansion

variable {t : LoadText} {index : RegisterIndex} {n : Int} {raw : String}

theorem LoadText.Fits.find? (h : t.Fits index n) :
    Rule.find? dialect.rules t.text =
      some (loadNumber (String.ofList t.register) (String.ofList t.number)) := by
  have hregister := operand_of_basicIndex? h.register
  have hnumber := operand_of_parse? h.number
  rw [String.toList_ofList] at hregister hnumber
  have hcomma : separator.Accepts (t.before ++ t.comma :: t.after) [] :=
    ⟨t.before, t.comma :: t.after, [], [], rfl, rfl, ⟨h.before, rfl⟩, [t.comma], t.after, [], [],
      rfl, rfl, ⟨⟨t.comma, rfl, h.comma⟩, rfl⟩, h.after, rfl⟩
  have hwritten : Written [t.register, t.number]
      (t.register ++ ((t.before ++ t.comma :: t.after) ++ t.number)) :=
    ⟨_, t.number, rfl, hregister, hcomma, rfl, hnumber⟩
  have hgap : space.Accepts t.gap [] := accepts_oneOrMore.mpr ⟨h.gap.1, h.gap.2, rfl⟩
  have hli : IsWord "li" := by decide
  have hregisters : ∀ o ∈ [t.register, t.number].dropLast,
      isRegister (String.ofList o) = true := by
    have hname := isRegister_of_basic (basic_of_basicIndex? h.register)
    simp [hname]
  obtain ⟨caps, hfind, hcaps⟩ :=
    find?_of_written [.d, .a] hli rfl h.mnemonic hgap hwritten rfl hregisters
  have hcaps_d : caps.get .d = String.ofList t.register := hcaps .d
  have hcaps_a : caps.get .a = String.ofList t.number := hcaps .a
  rwa [hcaps_d, hcaps_a] at hfind

theorem LoadText.Fits.text_ne (h : t.Fits index n) : String.ofList t.text ≠ "" := by
  intro hempty
  have htext : t.text = [] := by
    rw [← String.toList_ofList (l := t.text), hempty]
    rfl
  have hmnemonic : t.mnemonic = [] := (List.append_eq_nil_iff.mp htext).1
  have hfold := h.mnemonic
  rw [hmnemonic] at hfold
  exact absurd hfold (by decide)

/-- A number that the expansion refuses is refused for the line. -/
theorem placeLine_of_reject {e : Fault} (h : t.Fits index n)
    (hfind : Rule.find? dialect.rules t.text = some (.reject e))
    (hraw : dialect.instructionOf raw = String.ofList t.text) (number : Nat) (p : Program) :
    dialect.placeLine number raw p = .refused e := by
  rw [← String.toList_ofList (l := t.text)] at hfind
  rw [Dialect.placeLine, hraw, Dialect.placeText_of_final (fun lines => by rw [hfind]; simp),
    if_neg h.text_ne, hfind]
  rfl

/-- A number of a word is loaded by one or two instructions. -/
theorem placesWords_of_fits (h : t.Fits index n)
    (hread : NumberSyntax.zeroMarked.read (String.ofList t.number) = .ok (some n))
    (hrange : -8388608 ≤ n ∧ n < 16777216)
    (hraw : dialect.instructionOf raw = String.ofList t.text) (number : Nat) (p : Program) :
    PlacesWords (dialect.placeLine number raw p) (loadCodes index n) := by
  have hfind := h.find?
  rw [loadNumber_of_read hread, if_pos hrange, ← String.toList_ofList (l := t.text)] at hfind
  rw [Dialect.placeLine, hraw]
  by_cases hsmall : -2048 ≤ n ∧ n < 2048
  · rw [if_pos hsmall] at hfind
    rw [loadCodes, if_pos hsmall]
    exact placesWords_of_expand h.text_ne hfind
      (.cons (placesWords_of_addition h.register hread hsmall _ _) .nil) p
  · rw [if_neg hsmall] at hfind
    rw [loadCodes, if_neg hsmall]
    have hhigh : 0 ≤ n / 4096 % 4096 ∧ n / 4096 % 4096 < 4096 := by omega
    have hlow : 0 ≤ n % 4096 ∧ n % 4096 < 4096 := by omega
    exact placesWords_of_expand h.text_ne hfind
      (.cons (placesWords_of_upperHalf h.register hhigh _ _)
        (.cons (placesWords_of_lowerHalf h.register hlow _ _) .nil)) p

/-- A number that fits no word is refused. -/
theorem refused_of_fits (h : t.Fits index n)
    (hread : NumberSyntax.zeroMarked.read (String.ofList t.number) = .ok (some n))
    (hrange : ¬(-8388608 ≤ n ∧ n < 16777216))
    (hraw : dialect.instructionOf raw = String.ofList t.text) (number : Nat) (p : Program) :
    dialect.placeLine number raw p = .refused (.outOfRange n wordSize (decide (n < 0))) := by
  have hfind := h.find?
  rw [loadNumber_of_read hread, if_neg hrange] at hfind
  exact placeLine_of_reject h hfind hraw number p

/-- A number with too many digits is refused. -/
theorem refused_of_overlong (h : t.Fits index n)
    (hlong : NumberSyntax.zeroMarked.isOverlong (String.ofList t.number) = true)
    (hraw : dialect.instructionOf raw = String.ofList t.text) (number : Nat) (p : Program) :
    ∃ digits, dialect.placeLine number raw p = .refused (.longNumber digits) := by
  have hfind := h.find?
  rw [loadNumber, NumberSyntax.read, if_pos hlong] at hfind
  exact ⟨_, placeLine_of_reject h hfind hraw number p⟩

theorem LoadText.Fits.ends (h : t.Fits index n) : Ends t.text := by
  have hli : IsWord "li" := by decide
  have hfold : t.mnemonic.map foldLetter = "li".toList.map foldLetter := by
    rw [hli.1, ← h.mnemonic, toList_folded, String.toList_ofList]
  have hplain : Plain t.mnemonic := plain_of_folded hfold hli.plain
  have hne : t.mnemonic ≠ [] := by
    rintro hnil
    simp [hnil] at hfold
  have hnumber := operand_of_parse? h.number
  rw [String.toList_ofList] at hnumber
  obtain ⟨-, front, c, hnumber, hc⟩ := ends_of_operand hnumber
  refine ⟨(hplain.solid hne).append _,
    t.mnemonic ++ (t.gap ++ (t.register ++ ((t.before ++ t.comma :: t.after) ++ front))), c, ?_, hc⟩
  simp [text, hnumber]

/-- Such a line on its own is the instruction of its text. -/
theorem LoadText.Fits.instructionAt (h : t.Fits index n)
    (hplain : ∀ c ∈ ['\n', ';', '/', '#'], c ∉ t.text) :
    dialect.instructionAt (String.ofList t.text) 0 = String.ofList t.text := by
  have hlines : lines (String.ofList t.text) = [String.ofList t.text] := by
    refine lines_of_not_mem ?_
    rw [String.toList_ofList]
    exact hplain '\n' (by simp)
  have hunmarked : dialect.Unmarked t.text := by
    refine Dialect.unmarked_of_lacks ?_
    simp only [dialect, List.forall_mem_cons]
    exact ⟨⟨';', by simp, hplain _ (by simp)⟩, ⟨'/', by simp, hplain _ (by simp)⟩,
      ⟨'#', by simp, hplain _ (by simp)⟩, by simp⟩
  obtain ⟨⟨c, rest, hfirst, hc⟩, front, d, hlast, hd⟩ := h.ends
  rw [Dialect.instructionAt, hlines, List.getD_cons_zero]
  refine Dialect.instructionOf_eq_self rfl (by decide) ?_ ?_ ?_ <;> rw [String.toList_ofList]
  · exact hunmarked
  · simpa [hfirst] using isBlank_of_isSeparator hc
  · simpa [hlast] using hd

end Expansion

/-! ## The machine -/

/-- From one state to the other a number, modulo the number of words, was loaded into a register by
so many words; nothing else has changed but the cycle counter. -/
structure Loaded (s s' : State) (index : RegisterIndex) (n : Int) (length : Nat) : Prop where
  register : s'.reg index = (n % wordCount).toNat
  others : ∀ q, q ≠ index → s'.reg q = s.reg q
  memory : s'.memory = s.memory
  display : s'.display = s.display
  pc : s'.pc = (s.pc + length) % wordCount

section Steps

variable {s s' s'' : State} {index : RegisterIndex} {n m : Int}

/-- The number that is loaded last counts. -/
theorem Loaded.trans {k l : Nat} (h : Loaded s s' index n k) (h' : Loaded s' s'' index m l) :
    Loaded s s'' index m (k + l) where
  register := h'.register
  others q hq := (h'.others q hq).trans (h.others q hq)
  memory := h'.memory.trans h.memory
  display := h'.display.trans h.display
  pc := by rw [h'.pc, h.pc, Nat.mod_add_mod, Nat.add_assoc]

/-- A number counts modulo the number of words. -/
theorem Loaded.congr {k : Nat} (h : Loaded s s' index n k)
    (hmod : n % wordCount = m % wordCount) : Loaded s s' index m k :=
  ⟨by rw [h.register, hmod], h.others, h.memory, h.display, h.pc⟩

/-- A computation on a register and a number loads its result. -/
theorem loaded_step {top a low : Nat} (htop : top < 16) (heven : top % 2 = 0) (ha : a < 12)
    (hlow : low < 4096) (hword : s.memory.read s.pc = layout top a index.val low) :
    Loaded s (step s) index
      (compute (top / 2) true (s.single a) (Bits.signExtend low 12) low) 1 := by
  have huses : (Fields.mk (layout top a index.val low)).usesImmediate = true := by
    rw [Fields.usesImmediate_layout (by omega) index.isLt hlow, heven]
    rfl
  have hstep := step_computation htop (by omega) index.isLt hlow hword
  rw [computation_plain htop ha index.isLt hlow, ofNat_val, huses] at hstep
  simp only [signedSource, source, huses, if_true, Fields.signedImmediate_layout hlow,
    Fields.immediate_layout hlow] at hstep
  rw [hstep]
  refine ⟨?_, fun q hq => ?_, rfl, rfl, rfl⟩
  · exact (RegisterFile.get_set _ _ _ _).trans (if_pos rfl)
  · exact (RegisterFile.get_set _ _ _ _).trans (if_neg hq.symm)

/-- The word of an addition to zero loads its field in two's complement. -/
theorem loaded_add {low : Nat} (hlow : low < 4096)
    (hword : s.memory.read s.pc = layout 0 8 index.val low) :
    Loaded s (step s) index (Bits.signExtend low 12) 1 := by
  have hload := loaded_step (by decide) rfl (by decide) hlow hword
  have hzero : s.single 8 = 0 := rfl
  rw [hzero] at hload
  exact hload.congr (congrArg (· % (wordCount : Int)) (Int.zero_add _))

/-- The word of `lui` loads its field into the upper half. -/
theorem loaded_upper {high : Nat} (hhigh : high < 4096)
    (hword : s.memory.read s.pc = layout 2 8 index.val high) :
    Loaded s (step s) index (high * 4096 : Nat) 1 := by
  refine (loaded_step (by decide) rfl (by decide) hhigh hword).congr ?_
  have hvalue : compute (2 / 2) true (s.single 8) (Bits.signExtend high 12) high =
      Bits.signExtend high 12 * 4096 := rfl
  have hcount : (wordCount : Int) = 16777216 := rfl
  rw [hvalue, upper_half_mod, hcount]
  omega

/-- The word of `ori` fills in the lower half of the register. -/
theorem loaded_or {high low : Nat} (hlow : low < 4096) (hreg : s.reg index = high * 4096)
    (hword : s.memory.read s.pc = layout 12 index.val index.val low) :
    Loaded s (step s) index (high * 4096 + low : Nat) 1 := by
  have hindex : index.val < 12 := by omega
  have hload := loaded_step (by decide) rfl hindex hlow hword
  have hsingle : s.single index.val = high * 4096 := by
    rw [State.single, if_pos index.isLt, ofNat_val, hreg]
  have hor : high * 4096 ||| low = high * 4096 + low := by
    have h := Nat.two_pow_add_eq_or_of_lt (i := 12) hlow high
    rw [Nat.mul_comm high, h]
  have hvalue : compute (12 / 2) true (high * 4096) (Bits.signExtend low 12) low =
      (high * 4096 ||| low : Nat) := rfl
  rwa [hsingle, hvalue, hor] at hload

/-- Executing the words loads the number. -/
theorem loaded_after_words (hpc : s.pc < wordCount)
    (hmemory : ∀ i code, (loadCodes index n)[i]? = some code →
      s.memory.read (((s.pc + i) % wordCount : Nat) : Int) = code) :
    Loaded s (step^[(loadCodes index n).length] s) index n (loadCodes index n).length := by
  have hspan : (Bits.span 12 : Int) = 4096 := by decide
  have hcount : (wordCount : Int) = 16777216 := rfl
  have hlow : (n % 4096).toNat < 4096 := by omega
  have hhigh : (n / 4096 % 4096).toNat < 4096 := by omega
  have hfirst (code : Nat) (hcode : (loadCodes index n)[0]? = some code) :
      s.memory.read (s.pc : Int) = code := by
    have hread := hmemory 0 code hcode
    rwa [Nat.add_zero, Nat.mod_eq_of_lt hpc] at hread
  unfold loadCodes at hmemory hfirst ⊢
  by_cases hsmall : -2048 ≤ n ∧ n < 2048
  · simp only [if_pos hsmall] at hfirst ⊢
    have hvalue : Bits.signExtend (n % 4096).toNat 12 = n := by
      simp only [Bits.signExtend, hspan]
      split <;> omega
    have hload := loaded_add hlow (hfirst _ rfl)
    rwa [hvalue] at hload
  · simp only [if_neg hsmall] at hmemory hfirst ⊢
    have hupper := loaded_upper hhigh (hfirst _ rfl)
    have hreg : (step s).reg index = (n / 4096 % 4096).toNat * 4096 := by
      rw [hupper.register, hcount]
      omega
    have hword : (step s).memory.read (step s).pc =
        layout 12 index.val index.val (n % 4096).toNat := by
      rw [hupper.memory, hupper.pc]
      exact hmemory 1 _ rfl
    have hwhole : (((n / 4096 % 4096).toNat * 4096 + (n % 4096).toNat : Nat) : Int) % wordCount =
        n % wordCount := by
      rw [hcount]
      omega
    exact (hupper.trans (loaded_or hlow hreg hword)).congr hwhole

end Steps

/-! ## Texts with such lines -/

section Texts

variable {text : String} {number : Nat}

/-- A number that cannot be written cannot be reported. -/
theorem fatal_of_long {n : Int} {width : Int} {signed : Bool} (h : isWritable n = false) :
    (Fault.outOfRange n width signed).fatal? ≠ none := by
  simp [Fault.fatal?, h]

/-- What comes of a line that loads a number into a basic register.  A number of a word takes one
word if it has twelve bits, else two, and is not reported; executing the words, wherever they stand
one after the other, puts the number modulo the number of words into the register, keeps everything
else and ends behind them.  Any other number is refused for its range, and nothing comes of the
line.  There is no result at all if the number has more decimal digits than the message can hold,
or the literal more than are read. -/
theorem number_is_loaded {t : LoadText} {index : RegisterIndex} {n : Int}
    (htext : dialect.instructionAt text number = String.ofList t.text) (hfits : t.Fits index n) :
    let legible := NumberSyntax.zeroMarked.isOverlong (String.ofList t.number) = false
    let refusal := Fault.outOfRange n wordSize (decide (n < 0))
    let errors := (dialect.assemble text).errors
    (legible → -8388608 ≤ n ∧ n < 16777216 →
      (loadCodes index n).length = (if -2048 ≤ n ∧ n ≤ 2047 then 1 else 2) ∧
      PlacesWords (dialect.outcomeAt text number) (loadCodes index n) ∧
      (∀ d ∈ errors, d.line ≠ number) ∧
      (wordsAt text number = [] ∨
        wordsAt text number = (loadCodes index n).mapIdx fun i code =>
          ((((dialect.programBefore text number).address + i : Nat) : Int), code)) ∧
      ∀ s : State, s.pc < wordCount →
        (∀ i code, (loadCodes index n)[i]? = some code →
          s.memory.read (((s.pc + i) % wordCount : Nat) : Int) = code) →
        Loaded s (step^[(loadCodes index n).length] s) index n (loadCodes index n).length) ∧
    (legible → ¬(-8388608 ≤ n ∧ n < 16777216) →
      dialect.outcomeAt text number = .refused refusal ∧
      wordsAt text number = [] ∧
      ⟨number, refusal⟩ ∈ errors ∧
      (∀ d ∈ errors, d.line = number → d.fault = refusal) ∧
      (isWritable n = true →
        (∀ d ∈ errors, d.line ≠ number → d.fault.fatal? = none) →
        dialect.tryAssemble text = .ok (dialect.assemble text)) ∧
      (isWritable n = false → ∀ result, dialect.tryAssemble text ≠ .ok result)) ∧
    (¬legible → ∀ result, dialect.tryAssemble text ≠ .ok result) := by
  intro legible refusal errors
  have hread (hlegible : legible) := NumberSyntax.read_eq_some.mpr ⟨hlegible, hfits.number⟩
  refine ⟨fun hlegible hrange => ?_, fun hlegible hrange => ?_, fun hlong => ?_⟩
  · have hplaces : PlacesWords (dialect.outcomeAt text number) (loadCodes index n) :=
      placesWords_of_fits hfits (hread hlegible) hrange htext number _
    obtain ⟨hsilent, hwords⟩ := wordsAt_of_placesWords hplaces
    exact ⟨length_loadCodes index n, hplaces, hsilent, hwords,
      fun s hpc hmemory => loaded_after_words hpc hmemory⟩
  · have hrefused : dialect.outcomeAt text number = .refused refusal :=
      refused_of_fits hfits (hread hlegible) hrange htext number _
    obtain ⟨hmem, honly, hnothing⟩ := Dialect.reported_of_refused wellFormed hrefused
    refine ⟨hrefused, by rw [wordsAt, hnothing]; rfl, hmem, honly, fun hwritable => ?_,
      fun hwritable => ?_⟩
    · refine Dialect.tryAssemble_of_refused wellFormed hrefused ?_
      simp [refusal, Fault.fatal?, hwritable]
    · exact Dialect.tryAssemble_ne_ok_of_refused wellFormed hrefused (fatal_of_long hwritable)
  · obtain ⟨digits, hrefused⟩ := refused_of_overlong hfits (by simpa [legible] using hlong) htext
      number (dialect.programBefore text number)
    exact Dialect.tryAssemble_ne_ok_of_refused wellFormed hrefused (Option.some_ne_none _)

/-- A negative number of two words is loaded, and the first number that fits no word is refused. -/
theorem negative_number_is_loaded :
    let text := "start:\n  LI t0 , -0x1801 ; two words\nli x7, 16777216"
    let words := [((0 : Int), layout 2 8 4 4094), (1, layout 12 4 4 2047)]
    let s : State := ⟨Memory.empty.writeAll words, .cleared, 0, 0, .blank⟩
    wordsAt text 1 = words ∧ (step^[2] s).reg 4 = 16771071 ∧ (step^[2] s).pc = 2 ∧
      wordsAt text 2 = [] ∧ ⟨2, .outOfRange 16777216 24 false⟩ ∈ (dialect.assemble text).errors ∧
      dialect.tryAssemble text = .ok (dialect.assemble text) := by
  intro text words s
  let t : LoadText := ⟨"LI".toList, [' '], "t0".toList, [' '], ',', [' '], "-0x1801".toList⟩
  let t' : LoadText := ⟨"li".toList, [' '], "x7".toList, [], ',', [' '], "16777216".toList⟩
  -- what is evaluated of the text is asked for at once, so that the kernel runs the pass once
  obtain ⟨htext, htext', hwords, hothers⟩ :
      dialect.instructionAt text 1 = String.ofList t.text ∧
        dialect.instructionAt text 2 = String.ofList t'.text ∧
        wordsAt text 1 = words ∧
        ∀ d ∈ (dialect.assemble text).errors, d.line ≠ 2 → d.fault.fatal? = none := by
    decide +kernel
  have hfits : t.Fits 4 (-6145) :=
    ⟨by decide, ⟨by decide, List.all_eq_true.mp rfl⟩, by decide, List.all_eq_true.mp rfl,
      by decide, List.all_eq_true.mp rfl, by decide +kernel⟩
  have hfits' : t'.Fits 7 16777216 :=
    ⟨by decide, ⟨by decide, List.all_eq_true.mp rfl⟩, by decide, List.all_eq_true.mp rfl,
      by decide, List.all_eq_true.mp rfl, by decide +kernel⟩
  have hcodes : loadCodes 4 (-6145) = [layout 2 8 4 4094, layout 12 4 4 2047] := by decide
  have hmemory : ∀ i code, (loadCodes 4 (-6145))[i]? = some code →
      s.memory.read (((s.pc + i) % wordCount : Nat) : Int) = code := by
    rw [hcodes]
    intro i code hcode
    match i with
    | 0 =>
      obtain rfl := Option.some.inj hcode
      simp [words, s, Memory.writeAll, Memory.read_write]
    | 1 =>
      obtain rfl := Option.some.inj hcode
      simp [words, s, Memory.writeAll, Memory.read_write, wordCount]
    | i + 2 => simp at hcode
  obtain ⟨-, -, -, -, hrun⟩ := (number_is_loaded htext hfits).1 (by decide +kernel) (by decide)
  have hloaded := hrun s (by decide) hmemory
  rw [hcodes] at hloaded
  obtain ⟨-, hnothing, hreported, -, hresult, -⟩ :=
    (number_is_loaded htext' hfits').2.1 (by decide +kernel) (by decide)
  refine ⟨hwords, hloaded.register, hloaded.pc, hnothing, hreported, ?_⟩
  exact hresult (isWritable_of_lt 8 (by decide) (by decide)) hothers

end Texts

/-! ## Numbers that cannot be written -/

/-- A power of sixteen. -/
def power (k : Nat) : Int := (Nat.pow 16 k : Nat)

theorem le_power {k : Nat} (hk : 6 ≤ k) : 16777216 ≤ power k := by
  have hsix : Nat.pow 16 6 = 16777216 := rfl
  have hle : Nat.pow 16 6 ≤ Nat.pow 16 k := Nat.pow_le_pow_right (by decide) hk
  rw [power]
  omega

/-- Five hexadecimal digits are more than six decimal ones. -/
theorem isWritable_power {j : Nat} (hj : maxDecimalDigits ≤ 6 * j) :
    isWritable (power (5 * j)) = false := by
  have hpower : (10 : Nat) ^ (6 * j) ≤ 16 ^ (5 * j) := by
    rw [pow_mul, pow_mul]
    exact Nat.pow_le_pow_left (by decide) j
  unfold isWritable decimalBound
  generalize maxDecimalDigits = digits at hj
  refine decide_eq_false ?_
  rw [power, Int.natAbs_natCast]
  exact Nat.not_lt.mpr ((Nat.pow_le_pow_right (by decide) hj).trans hpower)

/-- A line that loads a power of sixteen, written in hexadecimal digits. -/
def powerLoad (k : Nat) : LoadText :=
  ⟨"li".toList, [' '], "x0".toList, [], ',', [' '], "0x1".toList ++ List.replicate k '0'⟩

section Power

variable (k : Nat)

theorem read_powerLoad :
    NumberSyntax.zeroMarked.read (String.ofList (powerLoad k).number) = .ok (some (power k)) :=
  NumberSyntax.read_hexadecimal_power k

theorem powerLoad_fits : (powerLoad k).Fits 0 (power k) where
  mnemonic := show folded (String.ofList "li".toList) = "li" by decide
  gap := ⟨List.cons_ne_nil _ _, List.all_eq_true.mp rfl⟩
  register := show basicIndex? (String.ofList "x0".toList) = some 0 by decide
  before := List.all_eq_true.mp rfl
  comma := show isSeparator ',' = true by decide
  after := List.all_eq_true.mp rfl
  number := (NumberSyntax.read_eq_some.mp (read_powerLoad k)).2

theorem instructionAt_powerLoad :
    dialect.instructionAt (String.ofList (powerLoad k).text) 0 =
      String.ofList (powerLoad k).text := by
  refine (powerLoad_fits k).instructionAt fun c hc => ?_
  fin_cases hc <;> simp [powerLoad, LoadText.text, List.mem_replicate]

end Power

theorem tryAssemble_powerLoad {k : Nat} (hk : 6 ≤ k) (hlong : isWritable (power k) = false)
    (result : Assembly) :
    dialect.tryAssemble (String.ofList (powerLoad k).text) ≠ .ok result := by
  have hlarge := le_power hk
  have hrefused := refused_of_fits (powerLoad_fits k) (read_powerLoad k) (by omega)
    (instructionAt_powerLoad k) 0 (dialect.programBefore (String.ofList (powerLoad k).text) 0)
  exact Dialect.tryAssemble_ne_ok_of_refused wellFormed hrefused (fatal_of_long hlong) result

/-- A number which has too many decimal digits for the message that refuses it is not reported, and
no line of the text is assembled. -/
theorem long_number_is_not_reported :
    dialect.instructionAt (String.ofList (powerLoad 3600).text) 0 =
        String.ofList (powerLoad 3600).text ∧
      (powerLoad 3600).Fits 0 (power 3600) ∧
      NumberSyntax.zeroMarked.isOverlong (String.ofList (powerLoad 3600).number) = false ∧
      ¬power 3600 < 16777216 ∧
      ∀ result, dialect.tryAssemble (String.ofList (powerLoad 3600).text) ≠ .ok result := by
  have hlong : isWritable (power 3600) = false := isWritable_power (j := 720) (by decide)
  exact ⟨instructionAt_powerLoad 3600, powerLoad_fits 3600,
    (NumberSyntax.read_eq_some.mp (read_powerLoad 3600)).1, not_lt.mpr (le_power (by decide)),
    tryAssemble_powerLoad (by decide) hlong⟩

end PocketAsm.Parva

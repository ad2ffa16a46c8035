/-
  Proofs/Encoding.lean --- from the text of an instruction to the number it is.

  A line of the text places an instruction, at once or by way of the lines it
  expands into (`Dialect.Assembles`).  The bits of the instruction are those of
  its fields, one after the other (`Dialect.Encodes`), so its number is put
  together from theirs (`Bits.toNat_append`).  A field of an operand holds the
  value of the operand modulo its width (`Bits.toNat_of_encodeField`), and a
  signed one is read back as it was (`Bits.signExtend_of_encodeField`).
-/
import PocketAsm.Proofs.Origin

set_option autoImplicit false

namespace PocketAsm

namespace Bits

/-! ## Numbers of bits -/

theorem span_succ (n : Nat) : span (n + 1) = 2 * span n := by
  rw [span, span, Nat.pow_eq, Nat.pow_eq, Nat.pow_succ, Nat.mul_comm]

theorem span_pos (n : Nat) : 0 < span n := Nat.two_pow_pos n

@[simp] theorem toNat_nil : toNat [] = 0 := rfl

theorem foldl_eq_add (bits : Bits) (start : Nat) :
    bits.foldl (fun acc b => 2 * acc + b.toNat) start = start * span bits.length + toNat bits := by
  induction bits generalizing start with
  | nil => simp [span]
  | cons b bits ih =>
    have hcons : toNat (b :: bits) = (2 * 0 + b.toNat) * span bits.length + toNat bits := ih _
    rw [List.foldl_cons, ih, hcons, List.length_cons, span_succ]
    ring

/-- The first bits weigh more than the others by as many bits as follow them. -/
theorem toNat_append (first second : Bits) :
    toNat (first ++ second) = toNat first * span second.length + toNat second := by
  rw [toNat, List.foldl_append]
  exact foldl_eq_add second (toNat first)

theorem toNat_lt (bits : Bits) : toNat bits < span bits.length := by
  induction bits with
  | nil => decide
  | cons b bits ih =>
    have hcons := toNat_append [b] bits
    have hb : toNat [b] ≤ 1 := by cases b <;> decide
    have hmul := Nat.mul_le_mul_right (span bits.length) hb
    rw [List.singleton_append] at hcons
    rw [hcons, List.length_cons, span_succ]
    omega

theorem toNat_lt_of_length {bits : Bits} {width : Nat} (h : bits.length = width) :
    toNat bits < span width :=
  h ▸ toNat_lt bits

theorem toNat_ofNat (width n : Nat) : toNat (ofNat width n) = n % span width := by
  induction width with
  | zero => simp [ofNat, span, Nat.mod_one]
  | succ width ih =>
    have hbit : toNat [n / span width % 2 == 1] = n / span width % 2 := by
      rcases Nat.mod_two_eq_zero_or_one (n / span width) with h | h <;> rw [h] <;> rfl
    rw [ofNat, ← List.singleton_append, toNat_append, hbit, length_ofNat, ih, span_succ,
      Nat.mul_comm 2, Nat.mod_mul]
    ring

@[simp] theorem toNat_replicate_false (n : Nat) : toNat (List.replicate n false) = 0 := by
  induction n with
  | zero => rfl
  | succ n ih =>
    rw [List.replicate_succ, ← List.singleton_append, toNat_append, ih]
    simp [toNat]

/-- A number has zeros above its bits. -/
theorem ofNat_add {width n : Nat} (h : n < span width) (more : Nat) :
    ofNat (more + width) n = List.replicate more false ++ ofNat width n := by
  induction more with
  | zero => simp
  | succ more ih =>
    have hspan : span width ≤ span (more + width) := Nat.pow_le_pow_right (by decide) (by omega)
    have hzero : n / span (more + width) = 0 := Nat.div_eq_of_lt (by omega)
    rw [Nat.add_right_comm, ofNat, hzero, ih, List.replicate_succ]
    rfl

theorem pieces_one {α : Type} (xs : List α) : pieces 1 xs = xs.map fun x => [x] := by
  induction xs with
  | nil => rfl
  | cons x xs ih =>
    rw [pieces] at ih
    rw [pieces, List.length_cons, piecesFrom, List.drop_one, List.tail_cons, ih]
    · rfl
    · simp

/-- Bits of the size of a word are one word. -/
theorem words_of_length {size : Nat} {bits : Bits} (hsize : 0 < size) (h : bits.length = size) :
    words size bits = [toNat bits] := by
  obtain ⟨b, rest, rfl⟩ : ∃ b rest, bits = b :: rest :=
    List.exists_cons_of_length_pos (h ▸ hsize)
  have htake : (b :: rest).take size = b :: rest := List.take_of_length_le h.le
  have hdrop : (b :: rest).drop size = [] := List.drop_of_length_le h.le
  rw [words, pieces, List.length_cons, piecesFrom, htake, hdrop]
  · cases rest.length <;> rfl
  · simp

/-! ## Fields -/

theorem span_pred {width : Nat} (h : 0 < width) : span width = 2 * span (width - 1) := by
  rw [← span_succ, Nat.sub_add_cancel h]

theorem eq_ofNat_of_encode {value : Int} {width : Nat} {signed : Bool} {bits : Bits}
    (h : encode value width signed = .ok bits) :
    ((range width signed).1 ≤ value ∧ value ≤ (range width signed).2) ∧
      bits = ofNat width (value % span width).toNat := by
  simp only [encode] at h
  split at h
  · rename_i hrange
    exact ⟨hrange, (Except.ok.inj h).symm⟩
  · simp at h

/-- A field holds its value modulo the number of its strings. -/
theorem toNat_of_encodeField {value : Int} {width : Nat} {signed : Bool} {bits : Bits}
    (h : encodeField value width signed = .ok bits) : (toNat bits : Int) = value % span width := by
  obtain ⟨-, rfl⟩ := eq_ofNat_of_encode h
  have hpos : (0 : Int) < span width := by exact_mod_cast span_pos width
  have hnonneg := Int.emod_nonneg value hpos.ne'
  have hlt := Int.emod_lt_of_pos value hpos
  rw [toNat_ofNat, Nat.mod_eq_of_lt (by omega), Int.toNat_of_nonneg hnonneg]

/-- A signed field is read back as the value that it was made from. -/
theorem signExtend_of_encodeField {value : Int} {width : Nat} {bits : Bits} (hwidth : 0 < width)
    (h : encodeField value width true = .ok bits) : signExtend (toNat bits) width = value := by
  obtain ⟨⟨hlow, hhigh⟩, -⟩ := eq_ofNat_of_encode h
  have hspan : (span width : Int) = 2 * span (width - 1) := by exact_mod_cast span_pred hwidth
  simp only [range, Bool.true_or, if_true] at hlow hhigh
  rw [signExtend, toNat_of_encodeField h, Int.emod_emod_of_dvd _ dvd_rfl]
  by_cases hneg : value < 0
  · have hmod : value % span width = value + span width := by
      rw [← Int.add_emod_right, Int.emod_eq_of_lt (by omega) (by omega)]
    simp only [hmod]
    split <;> omega
  · have hmod : value % span width = value := Int.emod_eq_of_lt (by omega) (by omega)
    simp only [hmod]
    split <;> omega

/-- A signed field takes the numbers of its range in two's complement. -/
theorem encodeField_signed (value : Int) (width : Nat)
    (h : -(span (width - 1) : Int) ≤ value ∧ value < span (width - 1)) :
    encodeField value width true = .ok (ofNat width (value % span width).toNat) :=
  if_pos ⟨h.1, Int.le_sub_one_of_lt h.2⟩

/-- An unsigned field takes its own numbers, and the negative ones of a signed field. -/
theorem encodeField_unsigned (value : Int) (width : Nat) :
    encodeField value width false =
      if -(span (width - 1) : Int) ≤ value ∧ value < span width then
        .ok (ofNat width (value % span width).toNat)
      else .error (.outOfRange value width (decide (value < 0))) := by
  have hhalf := span_pos (width - 1)
  have hwhole := span_pos width
  rw [encodeField, Bool.false_or]
  by_cases hneg : value < 0
  · have hrange : ((range width true).1 ≤ value ∧ value ≤ (range width true).2) ↔
        (-(span (width - 1) : Int) ≤ value ∧ value < span width) := by
      simp only [range, if_true]
      omega
    simp only [decide_eq_true hneg, encode, hrange]
  · have hrange : ((range width false).1 ≤ value ∧ value ≤ (range width false).2) ↔
        (-(span (width - 1) : Int) ≤ value ∧ value < span width) := by
      simp only [range, Bool.false_eq_true, if_false]
      omega
    simp only [decide_eq_false hneg, encode, hrange]

/-- An unsigned field that takes a number which is not negative holds it as it is. -/
theorem lt_of_encodeField {value : Int} {width : Nat} {bits : Bits} (hvalue : 0 ≤ value)
    (h : encodeField value width false = .ok bits) : value < span width := by
  have hsign : decide (value < 0) = false := by simpa using hvalue
  obtain ⟨⟨-, hhigh⟩, -⟩ := eq_ofNat_of_encode h
  simp only [range, hsign, Bool.or_self, Bool.false_eq_true, if_false] at hhigh
  omega

end Bits

namespace Dialect

variable {dialect : Dialect} {p : Program} {symbols : Symbols}

/-! ## Operands -/

/-- The value of an operand in a program: a literal by itself, anything else by the symbols. -/
def operandValue? (dialect : Dialect) (p : Program) (symbols : Symbols) (text : String)
    (relative : Bool) : Option Int :=
  match dialect.literal? p text with
  | .ok (some n) => some n
  | .ok none => (symbols.value text p.address relative).toOption
  | .error _ => none

/-- The value of an operand on the line with the given number. -/
def valueAt? (dialect : Dialect) (text : String) (number : Nat) (operand : String) : Option Int :=
  dialect.operandValue? (dialect.programBefore text number)
    (dialect.symbols (dialect.firstPass text).1) operand false

/-- A text that is no number is not read as one, whatever its length. -/
theorem read_eq_none {numbers : NumberSyntax} {text : String} (h : numbers.parse? text = none) :
    numbers.read text = .ok none := by
  have hmarks := List.findSome?_eq_none_iff.mp h
  have hshort : numbers.isOverlong text = false := by
    have hany : (numbers.marks.any fun m => m.radix == 10 && (m.read? text.toList).isSome) =
        false := by
      rw [List.any_eq_false]
      intro m hm
      simp [hmarks m hm]
    simp [NumberSyntax.isOverlong, hany]
  rw [NumberSyntax.read, hshort, h]
  rfl

/-- A text that is no number and no character is no literal, whatever encoding is in force. -/
theorem literal?_eq_none {text : String} (hread : dialect.numbers.read text = .ok none)
    (hcharacter : CharLiteral.body? text = none) : dialect.literal? p text = .ok none := by
  rw [literal?, hread]
  cases p.encoding with
  | none => rfl
  | some encoding => simp [CharLiteral.read, hcharacter]

/-- A name that is no literal and that a label has stands for the address of the label, or for its
distance. -/
theorem operandValue?_label {label : String} {target : Int} {relative : Bool}
    (hnumbers : symbols.numbers = dialect.numbers) (hnumber : dialect.numbers.parse? label = none)
    (hcharacter : CharLiteral.body? label = none)
    (hlabel : List.lookup label symbols.labels = some target) :
    dialect.operandValue? p symbols label relative =
      some (if relative then target - p.address else target) := by
  have hread := read_eq_none hnumber
  have hliteral : dialect.literal? p label = .ok none := literal?_eq_none hread hcharacter
  simp only [operandValue?, hliteral, Symbols.value, hnumbers, hread, Symbols.labelValue?, hlabel,
    Option.map_some]
  rfl

/-! ## Instructions field by field -/

/-- The field becomes the bits. -/
def EncodesField (dialect : Dialect) (p : Program) (symbols : Symbols) (field : Field)
    (bits : Bits) : Prop :=
  ∃ part, dialect.fieldPart p field = .ok part ∧ symbols.partBits part = .ok bits

/-- The fields become the bits, one after the other. -/
def Encodes (dialect : Dialect) (p : Program) (symbols : Symbols) : List Field → Bits → Prop
  | [], bits => bits = []
  | field :: fields, bits =>
    ∃ first rest, bits = first ++ rest ∧ dialect.EncodesField p symbols field first ∧
      dialect.Encodes p symbols fields rest

@[simp] theorem encodes_nil {bits : Bits} : dialect.Encodes p symbols [] bits ↔ bits = [] := Iff.rfl

@[simp] theorem encodes_cons {field : Field} {fields : List Field} {bits : Bits} :
    dialect.Encodes p symbols (field :: fields) bits ↔
      ∃ first rest, bits = first ++ rest ∧ dialect.EncodesField p symbols field first ∧
        dialect.Encodes p symbols fields rest := Iff.rfl

@[simp] theorem encodesField_bits {fixed bits : Bits} :
    dialect.EncodesField p symbols (.bits fixed) bits ↔ bits = fixed := by
  simp [EncodesField, fieldPart, Symbols.partBits, eq_comm]

@[simp] theorem encodesField_register {code : Except Fault Bits} {bits : Bits} :
    dialect.EncodesField p symbols (.register code) bits ↔ code = .ok bits := by
  cases code with
  | error e => simp [EncodesField, fieldPart]
  | ok found => simp [EncodesField, fieldPart, Symbols.partBits]

/-- Fixed bits one after the other are one field. -/
theorem encodes_bits_bits {first second bits : Bits} {fields : List Field} :
    dialect.Encodes p symbols (.bits first :: .bits second :: fields) bits ↔
      dialect.Encodes p symbols (.bits (first ++ second) :: fields) bits := by
  simp

/-- A field of an operand holds the value of the operand. -/
theorem exists_value_of_encodesField {text : String} {width : Nat} {signed relative : Bool}
    {bits : Bits} (hsigned : relative = true → signed = true)
    (h : dialect.EncodesField p symbols (.value text width signed relative) bits) :
    ∃ n, dialect.operandValue? p symbols text relative = some n ∧
      Bits.encodeField n width signed = .ok bits := by
  obtain ⟨part, hpart, hbits⟩ := h
  rw [fieldPart, operand] at hpart
  rw [operandValue?]
  cases hliteral : dialect.literal? p text with
  | error e => simp [hliteral] at hpart
  | ok found =>
    simp only [hliteral] at hpart
    cases found with
    | some n =>
      refine ⟨n, rfl, ?_⟩
      cases hencode : Bits.encodeField n width signed with
      | error e => simp [hencode] at hpart
      | ok code =>
        simp only [hencode, Except.ok.injEq] at hpart
        rw [← hbits, ← hpart]
        rfl
    | none =>
      rw [← Except.ok.inj hpart, Symbols.partBits] at hbits
      cases hvalue : symbols.value text p.address relative with
      | error e => simp [hvalue] at hbits
      | ok n =>
        simp only [hvalue] at hbits
        refine ⟨n, rfl, ?_⟩
        cases signed with
        | true => simpa using hbits
        | false =>
          have hrelative : relative = false := by simpa using hsigned
          simpa [hrelative] using hbits

/-- Resolved parts of fields are the bits of the fields. -/
theorem encodes_of_partsBits {fields : List Field} {parts : List Part} {bits : Bits}
    (hparts : dialect.fieldParts p fields = .ok parts)
    (hbits : symbols.partsBits parts = .ok bits) :
    dialect.Encodes p symbols fields bits := by
  induction fields generalizing parts bits with
  | nil =>
    rw [← Except.ok.inj hparts] at hbits
    exact (Except.ok.inj hbits).symm
  | cons field fields ih =>
    rw [fieldParts] at hparts
    split at hparts
    · simp at hparts
    · rename_i part hpart
      split at hparts
      · simp at hparts
      · rename_i rest hrest
        rw [← Except.ok.inj hparts, Symbols.partsBits] at hbits
        split at hbits
        · simp at hbits
        · rename_i first hfirst
          split at hbits
          · simp at hbits
          · rename_i others hothers
            exact ⟨first, others, (Except.ok.inj hbits).symm, ⟨part, hpart, hfirst⟩,
              ih hrest hothers⟩

/-! ## From a text to its instruction -/

/-- Carrying out the text on the program succeeds with the edits. -/
def Yields (dialect : Dialect) (p : Program) (levels : Nat) (text : String) (edits : List Edit) :
    Prop :=
  ∃ source, dialect.placeText levels source text p = ⟨edits, none⟩

variable {levels : Nat} {text : String} {address : Nat} {bits : Bits} {edits : List Edit}

/-- A line of the source that succeeds yields its edits. -/
theorem yields_of_fault {number : Nat} (h : (dialect.outcomeAt text number).fault = none) :
    dialect.Yields (dialect.programBefore text number) maxExpansions
      (dialect.instructionAt text number) (dialect.outcomeAt text number).edits :=
  ⟨_, by rw [← h]; rfl⟩

/-- A rule that emits fields places them. -/
theorem Yields.of_emit {fields : List Field} {words : Nat} {mark : Option String}
    (h : dialect.Yields p levels text edits) (hne : text ≠ "")
    (hfind : Rule.find? dialect.rules text.toList = some (.emit fields words mark)) :
    ∃ parts origin, dialect.fieldParts p fields = .ok parts ∧
      edits = [.place parts words origin] := by
  obtain ⟨source, h⟩ := h
  simp only [placeText, if_neg hne, hfind] at h
  unfold perform at h
  cases hparts : dialect.fieldParts p fields with
  | error e => simp [hparts, Outcome.refused] at h
  | ok parts =>
    simp only [hparts, Outcome.mk.injEq, and_true] at h
    exact ⟨parts, _, rfl, h.symm⟩

/-- Lines that are placed one after the other yield their edits one after the other. -/
theorem placeAll_cons_eq {place : String → Program → Outcome} {line : String} {lines : List String}
    {done : List Edit} (h : placeAll place (line :: lines) p done = ⟨edits, none⟩) :
    ∃ first, place line p = ⟨first, none⟩ ∧
      placeAll place lines (p.applyAll first) (first.reverse ++ done) = ⟨edits, none⟩ := by
  rw [placeAll] at h
  cases hplace : place line p with
  | mk first fault =>
    cases fault with
    | none => exact ⟨first, rfl, by simpa [hplace] using h⟩
    | some e => simp [hplace] at h

/-- A rule that expands into one line hands the text on to it. -/
theorem Yields.of_expand {line : String} (h : dialect.Yields p levels text edits) (hne : text ≠ "")
    (hfind : Rule.find? dialect.rules text.toList = some (.expand [line])) :
    ∃ further, levels = further + 1 ∧ dialect.Yields p further line edits := by
  obtain ⟨source, h⟩ := h
  simp only [placeText, if_neg hne, hfind] at h
  cases levels with
  | zero => simp [Outcome.refused] at h
  | succ further =>
    obtain ⟨first, hfirst, hrest⟩ := placeAll_cons_eq h
    obtain rfl : first = edits := by simpa [placeAll] using hrest
    exact ⟨further, rfl, source, hfirst⟩

/-- A rule that expands into two lines yields the edits of both. -/
theorem Yields.of_expand_pair {line line' : String} (h : dialect.Yields p levels text edits)
    (hne : text ≠ "")
    (hfind : Rule.find? dialect.rules text.toList = some (.expand [line, line'])) :
    ∃ further first second, edits = first ++ second ∧ dialect.Yields p further line first ∧
      dialect.Yields (p.applyAll first) further line' second := by
  obtain ⟨source, h⟩ := h
  simp only [placeText, if_neg hne, hfind] at h
  cases levels with
  | zero => simp [Outcome.refused] at h
  | succ further =>
    obtain ⟨first, hfirst, hrest⟩ := placeAll_cons_eq h
    obtain ⟨second, hsecond, hdone⟩ := placeAll_cons_eq hrest
    refine ⟨further, first, second, ?_, ⟨source, hfirst⟩, ⟨source, hsecond⟩⟩
    simpa [placeAll, eq_comm] using hdone

/-- Carrying out the text on the program succeeds and places an instruction at the address, among
perhaps others, that the symbols resolve to the bits. -/
def Assembles (dialect : Dialect) (p : Program) (symbols : Symbols) (levels : Nat) (text : String)
    (address : Nat) (bits : Bits) : Prop :=
  ∃ edits before parts words origin after,
    dialect.Yields p levels text edits ∧ edits = before ++ .place parts words origin :: after ∧
      address = (p.applyAll before).address ∧ symbols.partsBits parts = .ok bits

/-- An instruction of the output is assembled from the line that it names. -/
theorem assembles_of_mem_assemble {maxWords : Nat} (hdialect : dialect.WellFormed maxWords)
    {source : Source} (h : .instruction address bits source ∈ (dialect.assemble text).lines) :
    dialect.Assembles (dialect.programBefore text source.line)
      (dialect.symbols (dialect.firstPass text).1) maxExpansions
      (dialect.instructionAt text source.line) address bits := by
  obtain ⟨hfault, before, parts, words, after, hedits, haddress, hbits⟩ :=
    exists_place_of_mem_assemble_line hdialect h
  exact ⟨_, before, parts, words, source, after, yields_of_fault hfault, hedits, haddress, hbits⟩

theorem Assembles.ne_empty (h : dialect.Assembles p symbols levels text address bits) :
    text ≠ "" := by
  rintro rfl
  obtain ⟨edits, before, parts, words, origin, after, ⟨source, hyields⟩, rfl, -, -⟩ := h
  simp [placeText, Outcome.nothing] at hyields

/-- Only a text with a rule is assembled, and by no rule of a label. -/
theorem Assembles.exists_action (h : dialect.Assembles p symbols levels text address bits) :
    ∃ action, Rule.find? dialect.rules text.toList = some action ∧
      ∀ name, action ≠ .label name := by
  obtain ⟨edits, before, parts, words, origin, after, ⟨source, hyields⟩, rfl, -, -⟩ := h
  have hmem : .place parts words origin ∈ (dialect.placeText levels source text p).edits := by
    simp [hyields]
  obtain hnil | ⟨lines, -, hfind, -, -⟩ | ⟨action, hfind, -, heq⟩ :=
    placeText_cases dialect levels source text p
  · simp [hnil] at hmem
  · exact ⟨_, hfind, by simp⟩
  · refine ⟨action, hfind, ?_⟩
    rintro name rfl
    rw [heq] at hmem
    exact (makes_of_mem_perform hmem).elim

/-- A rule that emits fields places them at the current address. -/
theorem Assembles.of_emit {fields : List Field} {words : Nat} {mark : Option String}
    (h : dialect.Assembles p symbols levels text address bits)
    (hfind : Rule.find? dialect.rules text.toList = some (.emit fields words mark)) :
    address = p.address ∧ dialect.Encodes p symbols fields bits := by
  have hne := h.ne_empty
  obtain ⟨edits, before, parts, count, origin, after, hyields, rfl, haddress, hbits⟩ := h
  obtain ⟨found, origin', hparts, hedits⟩ := hyields.of_emit hne hfind
  obtain ⟨rfl, rfl⟩ : before = [] ∧ parts = found := by
    cases before with
    | nil => simp_all
    | cons e before => simp at hedits
  exact ⟨haddress, encodes_of_partsBits hparts hbits⟩

/-- A rule that expands into one line hands the text on to it. -/
theorem Assembles.of_expand {line : String}
    (h : dialect.Assembles p symbols levels text address bits)
    (hfind : Rule.find? dialect.rules text.toList = some (.expand [line])) :
    ∃ further, levels = further + 1 ∧
      dialect.Assembles p symbols further line address bits := by
  have hne := h.ne_empty
  obtain ⟨edits, before, parts, count, origin, after, hyields, hedits, haddress, hbits⟩ := h
  obtain ⟨further, hlevels, hline⟩ := hyields.of_expand hne hfind
  exact ⟨further, hlevels, edits, before, parts, count, origin, after, hline, hedits, haddress,
    hbits⟩

/-- A line that does not begin with a point is assembled by a rule of an instruction, where the
other rules are those of directives and labels. -/
theorem Assembles.find?_eq {maxWords : Nat} (hdialect : dialect.WellFormed maxWords)
    {instructions directives : List Rule} (hrules : dialect.rules = instructions ++ directives)
    (hdirectives : ∀ rule ∈ directives, ∀ caps,
      (rule.action caps).isDirective = true ∨ ∃ name, rule.action caps = .label name)
    (h : dialect.Assembles p symbols levels text address bits) (htext : Unpointed text) :
    ∃ action, Rule.find? instructions text.toList = some action ∧
      Rule.find? dialect.rules text.toList = some action := by
  obtain ⟨action, hfind, hlabel⟩ := h.exists_action
  refine ⟨action, ?_, hfind⟩
  have hsplit : Rule.find? dialect.rules text.toList =
      (Rule.find? instructions text.toList).or (Rule.find? directives text.toList) := by
    rw [hrules, Rule.find?, List.findSome?_append]
    rfl
  cases hfirst : Rule.find? instructions text.toList with
  | some found =>
    rw [hsplit, hfirst, Option.some_or] at hfind
    exact hfind
  | none =>
    rw [hsplit, hfirst, Option.none_or] at hfind
    obtain ⟨rule, hrule, caps, hmatch, rfl⟩ := Rule.exists_of_find? hfind
    rcases hdirectives rule hrule caps with hdirective | ⟨name, hname⟩
    · have hmem : rule ∈ dialect.rules := by
        rw [hrules]
        exact List.mem_append_right _ hrule
      obtain ⟨c, rest, hcs, hpoint⟩ :=
        ((hdialect.rules rule hmem).directive caps hdirective).head_of_match? hmatch
      simp [Unpointed, hcs, hpoint] at htext
    · exact absurd hname (hlabel name)

end Dialect

end PocketAsm

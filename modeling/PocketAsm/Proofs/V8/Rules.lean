/-
  Proofs/V8/Rules.lean --- every rule does what its line reads as.

  A rule agrees with the reading of a line if the bits that it emits are the
  opcode of the operation that is read, with the value of the operand behind it
  (`Agrees`).  An operand may look like several addressing modes; the rules for
  them come in the order in which the reading asks for them, so every rule of
  the table agrees in its place (`instructions_read`).
-/
import PocketAsm.Proofs.Bytes
import PocketAsm.Proofs.Precedence
import PocketAsm.Proofs.V8.Execution
import PocketAsm.Proofs.V8.Lines

set_option autoImplicit false

namespace PocketAsm.V8

open Bits Operand Pattern Text

/-! ## Fields -/

/-- The value of an operand in a program. -/
def valueOf (p : Program) (symbols : Symbols) (text : String) : Option Int :=
  dialect.operandValue? p symbols text false

/-- The bytes are those of the statement: its opcode, and the value of its operand. -/
def Statement.CodedAs (value : String → Option Int) (bytes : List Nat) (statement : Statement) :
    Prop :=
  match statement.operand? with
  | none => statement.op.takesOperand = false ∧ bytes = [statement.op.code]
  | some text =>
    statement.op.takesOperand = true ∧
      ∃ n : Int, value text = some n ∧ bytes = [statement.op.code, (n % 256).toNat]

section Fields

variable {p : Program} {symbols : Symbols} {bits fixed : Bits} {op : Op}

/-- An opcode alone. -/
theorem codedAs_of_encodes (hlength : fixed.length = 8) (hcode : toNat fixed = op.code)
    (hop : op.takesOperand = false) (h : dialect.Encodes p symbols [.bits fixed] bits) :
    Statement.CodedAs (valueOf p symbols) (words 8 bits) ⟨op, none⟩ := by
  obtain rfl : bits = fixed := by simpa using h
  exact ⟨hop, hcode ▸ words_of_length (by decide) hlength⟩

/-- An opcode and an operand. -/
theorem codedAs_of_encodes_value (hlength : fixed.length = 8) (hcode : toNat fixed = op.code)
    (hop : op.takesOperand = true) {text : String}
    (h : dialect.Encodes p symbols [.bits fixed, .value text 8 false false] bits) :
    Statement.CodedAs (valueOf p symbols) (words 8 bits) ⟨op, some text⟩ := by
  obtain ⟨first, rest, rfl, hfirst, second, last, rfl, hsecond, rfl⟩ := h
  obtain rfl := Dialect.encodesField_bits.mp hfirst
  obtain ⟨n, hvalue, hnumber, hsize⟩ := Dialect.exists_emod_of_encodesField hsecond
  refine ⟨hop, n, hvalue, ?_⟩
  rw [words_append (by decide) hlength, words_append (by decide) hsize, words_nil, hcode, ← hnumber]
  rfl

/-- Fixed bits and a register are fixed bits. -/
theorem exists_register_of_encodes {first : Bits} {name : String} {fields : List Field}
    (h : dialect.Encodes p symbols (.bits first :: .register (registerBits name) :: fields) bits) :
    ∃ r : RegisterIndex, Statement.register? name = some r ∧
      dialect.Encodes p symbols (.bits (first ++ ofNat 3 r) :: fields) bits := by
  obtain ⟨start, rest, rfl, hstart, middle, last, rfl, hmiddle, hlast⟩ := h
  obtain ⟨r, hr, rfl⟩ := register?_of_registerBits (Dialect.encodesField_register.mp hmiddle)
  obtain rfl := Dialect.encodesField_bits.mp hstart
  refine ⟨r, hr, _, last, ?_, Dialect.encodesField_bits.mpr rfl, hlast⟩
  rw [List.append_assoc]

theorem toNat_append_register (first : Bits) (r : RegisterIndex) :
    toNat (first ++ ofNat 3 r) = 8 * toNat first + r := by
  have hr : (r : Nat) % span 3 = r := Nat.mod_eq_of_lt r.isLt
  have hspan : span 3 = 8 := rfl
  rw [toNat_append, length_ofNat, toNat_ofNat, hr, hspan, Nat.mul_comm]

end Fields

/-! ## Agreement -/

/-- What is done with a line agrees with what the line reads as. -/
def Agrees (read : Option Statement) : Action → Prop
  | .emit fields count _ =>
    ∀ p symbols bits, dialect.Encodes p symbols fields bits →
      ∃ statement, read = some statement ∧ count = statement.op.size ∧
        statement.CodedAs (valueOf p symbols) (words 8 bits)
  | _ => False

/-- The rule agrees with the reading of every line that it decides behind the earlier ones. -/
abbrev Reads (earlier : List Rule) (rule : Rule) : Prop :=
  Rule.SoundAfter (fun cs action => Agrees (Statement.read? (String.ofList cs)) action) earlier rule

/-- Every rule of a table agrees in its place. -/
abbrev ReadsEach (earlier rules : List Rule) : Prop :=
  Rule.SoundEach (fun cs action => Agrees (Statement.read? (String.ofList cs)) action) earlier rules

section Rules

variable {earlier : List Rule} {mnemonic opcode : String} {op : Op}

/-- An instruction without operand. -/
theorem reads_plain (hmnemonic : IsMnemonic mnemonic)
    (h : List.lookup mnemonic Statement.plain = some op) (hlength : (ofText opcode).length = 8)
    (hcode : toNat (ofText opcode) = op.code) (hop : op.takesOperand = false) :
    Reads earlier (plain mnemonic opcode) := by
  intro cs caps hmatch _ p symbols bits hencodes
  obtain ⟨ops, haccepts, -⟩ := accepts_of_match? hmatch
  obtain ⟨hfold, hatom, hne⟩ := hmnemonic.accepts haccepts
  refine ⟨⟨op, none⟩, ?_, by simp [Op.size, hop], codedAs_of_encodes hlength hcode hop hencodes⟩
  rw [Statement.read?, String.toList_ofList, tokens_last (whole_of_atom hatom) hne]
  simp [Statement.ofTokens?, hfold, h]

/-- A line of a mnemonic and an operand is read by the operand.  It matches the pattern of every
other operand that accepts the token. -/
theorem exists_token_of_match? (hmnemonic : IsMnemonic mnemonic) {cs : List Char} {caps : Captures}
    {slot : Slot} (shape : Shape)
    (h : (all [.lit mnemonic, .space, shape.pattern slot]).match? cs = some caps) :
    ∃ token, Statement.read? (String.ofList cs) = Statement.ofOne? mnemonic token ∧
      shape.Fits token (caps.get slot) ∧
      ∀ target ops, target.Accepts token.toList ops →
        ((all [.lit mnemonic, .space, target]).match? cs).isSome = true := by
  obtain ⟨ops, haccepts, hcaps⟩ := accepts_of_match? h
  obtain ⟨w, gap, o, rfl, hw, hgap, ho⟩ := accepts_spaced.mp haccepts
  obtain ⟨hfold, hatom, hne⟩ := hmnemonic.accepts hw
  obtain ⟨text, hfits, rfl, hwhole, hone⟩ := shape.fits_of_accepts ho
  have hcaptured : caps.get slot = text := by simp [hcaps, captured]
  refine ⟨String.ofList o, ?_, hcaptured ▸ hfits, ?_⟩
  · rw [read?_of_operand hatom hne (accepts_space hgap).1 hwhole hone, hfold]
  · intro target other htarget
    rw [String.toList_ofList] at htarget
    exact match?_isSome (accepts_spaced.mpr ⟨w, gap, o, rfl, hw, hgap, htarget⟩)

/-- An instruction on a register. -/
theorem reads_onRegister (shape : Shape) {ofReg : RegisterIndex → Op}
    (hmnemonic : IsMnemonic mnemonic)
    (hnone : ∀ word ∈ ["ld", "st"], Statement.named? word mnemonic = none)
    (h : List.lookup mnemonic Statement.onRegister = some ofReg)
    (hshape : ∀ token text, shape.Fits token text → text = token)
    (hlength : (ofText opcode).length = 5)
    (hop : ∀ r, (ofReg r).code = 8 * toNat (ofText opcode) + r ∧ (ofReg r).takesOperand = false) :
    Reads earlier (onRegister (shape.pattern .r) mnemonic opcode) := by
  intro cs caps hmatch _ p symbols bits hencodes
  obtain ⟨token, hread, hfits, -⟩ := exists_token_of_match? hmnemonic shape hmatch
  obtain ⟨r, hr, hencodes⟩ := exists_register_of_encodes hencodes
  obtain ⟨hcode, htakes⟩ := hop r
  rw [hshape _ _ hfits] at hr
  refine ⟨⟨ofReg r, none⟩, ?_, by simp [Op.size, htakes], codedAs_of_encodes ?_ ?_ htakes hencodes⟩
  · rw [hread]
    simp [Statement.ofOne?, hnone, h, hr]
  · rw [List.length_append, hlength, length_ofNat]
  · rw [toNat_append_register, hcode]

/-- An instruction on a register and the accumulator, whichever blanks are taken first. -/
theorem reads_accumulator {index : Pattern} (hindex : ∀ cs ops, index.Accepts cs ops →
      withA.Accepts cs ops)
    {ofReg : RegisterIndex → Op} (hmnemonic : IsMnemonic mnemonic)
    (hnone : ∀ word ∈ ["ld", "st"], Statement.named? word mnemonic = none)
    (h : List.lookup mnemonic Statement.onAccumulator = some ofReg)
    (hlength : (ofText opcode).length = 5)
    (hop : ∀ r, (ofReg r).code = 8 * toNat (ofText opcode) + r ∧ (ofReg r).takesOperand = false) :
    Reads earlier (onRegister (.seq (register .r) index) mnemonic opcode) := by
  intro cs caps hmatch _ p symbols bits hencodes
  obtain ⟨ops, haccepts, hcaps⟩ := accepts_of_match? hmatch
  obtain ⟨w, gap, o, rfl, hw, hgap, o, a, u, v, rfl, rfl, ho, ha⟩ := accepts_spaced.mp haccepts
  obtain ⟨hfold, hatom, hne⟩ := hmnemonic.accepts hw
  obtain ⟨text, hfits, rfl, hwhole, hone⟩ := Shape.fits_of_accepts .register ho
  obtain ⟨hread, rfl⟩ :=
    read?_of_operand_withA hatom hne (accepts_space hgap).1 hwhole hone (hindex a v ha)
  obtain ⟨r, hr, hencodes⟩ := exists_register_of_encodes hencodes
  obtain ⟨hcode, htakes⟩ := hop r
  obtain rfl : text = String.ofList o := hfits
  have hcaptured : caps.get .r = String.ofList o := hcaps .r
  rw [hcaptured] at hr
  refine ⟨⟨ofReg r, none⟩, ?_, by simp [Op.size, htakes], codedAs_of_encodes ?_ ?_ htakes hencodes⟩
  · rw [hread, hfold]
    simp [Statement.withA?, hnone, h, hr]
  · rw [List.length_append, hlength, length_ofNat]
  · rw [toNat_append_register, hcode]

/-- A jump.  One with an operand in parentheses comes first where there is one. -/
theorem reads_jump (hmnemonic : IsMnemonic mnemonic)
    (hjump : ∀ token, Statement.ofOne? mnemonic token = Statement.jump? mnemonic token)
    (h : List.lookup mnemonic Statement.jumps = some op)
    (hindirect : List.lookup mnemonic Statement.indirectJumps = none ∨
      ∃ rule ∈ earlier, rule.pattern = all [.lit mnemonic, .space, indirect .a])
    (hlength : (ofText opcode).length = 8) (hcode : toNat (ofText opcode) = op.code)
    (hop : op.takesOperand = true) :
    Reads earlier (jump (.slot .a operand) mnemonic opcode) := by
  intro cs caps hmatch hearlier p symbols bits hencodes
  obtain ⟨token, hread, ⟨htoken, -⟩, hother⟩ := exists_token_of_match? hmnemonic .operand hmatch
  have hstatement : Statement.jump? mnemonic token = some ⟨op, some token⟩ := by
    unfold Statement.jump?
    split
    · rename_i other text hlookup hparenthesized
      rcases hindirect with hnone | ⟨rule, hrule, hpattern⟩
      · rw [hnone] at hlookup
        cases hlookup
      · have hsome := hother _ _ (accepts_of_parenthesized? .a hparenthesized)
        rw [← hpattern, hearlier rule hrule] at hsome
        exact Bool.noConfusion hsome
    · rw [h]
      rfl
  refine ⟨⟨op, some token⟩, ?_, by simp [Op.size, hop], ?_⟩
  · rw [hread, hjump, hstatement]
  · exact codedAs_of_encodes_value hlength hcode hop (htoken ▸ hencodes)

/-- A jump to what is stored at the operand. -/
theorem reads_jumpIndirect (hmnemonic : IsMnemonic mnemonic)
    (hjump : ∀ token, Statement.ofOne? mnemonic token = Statement.jump? mnemonic token)
    (h : List.lookup mnemonic Statement.indirectJumps = some op)
    (hlength : (ofText opcode).length = 8) (hcode : toNat (ofText opcode) = op.code)
    (hop : op.takesOperand = true) :
    Reads earlier (jump (indirect .a) mnemonic opcode) := by
  intro cs caps hmatch _ p symbols bits hencodes
  obtain ⟨token, hread, hfits, -⟩ := exists_token_of_match? hmnemonic .indirect hmatch
  have hparenthesized : Statement.parenthesized? token = some (caps.get .a) := hfits
  refine ⟨⟨op, some (caps.get .a)⟩, ?_, by simp [Op.size, hop],
    codedAs_of_encodes_value hlength hcode hop hencodes⟩
  simp [hread, hjump, Statement.jump?, h, hparenthesized]

end Rules

/-! ## Loads and stores -/

section Memory

variable {earlier : List Rule} {word opcode : String} (ofReg : RegisterIndex → Op)

/-- The mnemonic of a load or a store, before the letter of the register. -/
def IsTransfer (word : String) : Prop := IsMnemonic word ∧ word.toList.length = 2

instance (word : String) : Decidable (IsTransfer word) := inferInstanceAs (Decidable (_ ∧ _))

/-- The mnemonic with the letter of the register is one token. -/
theorem IsTransfer.isAtom {word : String} (hword : IsTransfer word) {w : List Char} {c : Char}
    (hw : (lit word).Accepts w []) (hc : isRegisterLetter c = true) :
    ∀ d ∈ w ++ [c], isAtomChar d = true := by
  obtain ⟨-, hatom, -⟩ := hword.1.accepts hw
  simpa [or_imp, forall_and] using ⟨hatom, isAtomChar_of_isRegisterLetter hc⟩

/-- The operations are loads or stores with these upper five bits. -/
structure HasGroup (ofReg : RegisterIndex → Op) (opcode : String) : Prop where
  length : (ofText opcode).length = 5
  code : ∀ r, (ofReg r).code = 8 * toNat (ofText opcode) + r
  operand : ∀ r, (ofReg r).takesOperand = true

/-- A load or a store agrees if the line reads as one, whatever its register is. -/
theorem reads_memory {source : Pattern} (hgroup : HasGroup ofReg opcode)
    (h : ∀ cs ops r, (all [.lit word, register .a, .separator, source]).Accepts cs ops →
      (∀ other ∈ earlier, other.pattern.match? cs = none) →
      Statement.register? (captured ops .a) = some r →
        Statement.read? (String.ofList cs) = some ⟨ofReg r, some (captured ops .b)⟩) :
    Reads earlier (memory word source opcode) := by
  intro cs caps hmatch hearlier p symbols bits hencodes
  obtain ⟨ops, haccepts, hcaps⟩ := accepts_of_match? hmatch
  obtain ⟨r, hr, hencodes⟩ := exists_register_of_encodes hencodes
  rw [hcaps] at hr hencodes
  refine ⟨⟨ofReg r, some (captured ops .b)⟩, h cs ops r haccepts hearlier hr, ?_, ?_⟩
  · simp [Op.size, hgroup.operand r]
  · refine codedAs_of_encodes_value ?_ ?_ (hgroup.operand r) hencodes
    · rw [List.length_append, hgroup.length, length_ofNat]
    · rw [toNat_append_register, hgroup.code]

/-- With an operand of a shape: it is enough to read the token.  The line matches the pattern of
every other operand that accepts it. -/
theorem reads_memory_shape (shape : Shape) (hword : IsTransfer word)
    (hgroup : HasGroup ofReg opcode)
    (h : ∀ name token text r, shape.Fits token text →
      (∀ word', Statement.named? word' name = if word = word' then some r else none) →
      (∀ rule ∈ earlier, ∀ target ops,
        rule.pattern = all [.lit word, register .a, .separator, target] →
          ¬ target.Accepts token.toList ops) →
      Statement.ofOne? name token = some ⟨ofReg r, some text⟩) :
    Reads earlier (memory word (shape.pattern .b) opcode) := by
  refine reads_memory ofReg hgroup fun cs ops r haccepts hearlier hr => ?_
  obtain ⟨w, c, gap, o, u, rfl, hw, hc, hgap, ho, rfl⟩ := accepts_memory.mp haccepts
  obtain ⟨text, hfits, rfl, hwhole, hone⟩ := shape.fits_of_accepts ho
  have hr : Statement.register? (String.ofList [c]) = some r := hr
  have hname := hword.isAtom hw hc
  rw [read?_of_operand hname (by simp) (accepts_separator hgap).1 hwhole hone]
  refine h _ _ text r hfits (fun word' => ?_) fun rule hrule target other hpattern htarget => ?_
  · rw [named?_of_accepts hword.1 hword.2 hw, hr]
  · rw [String.toList_ofList] at htarget
    have hsome := match?_isSome (accepts_memory.mpr
      ⟨w, c, gap, o, other, rfl, hw, hc, hgap, htarget, rfl⟩)
    rw [← hpattern, hearlier rule hrule] at hsome
    exact Bool.noConfusion hsome

/-- With the accumulator as an index. -/
theorem reads_memory_indexed (hword : IsTransfer word) (hgroup : HasGroup ofReg opcode)
    (h : ∀ name token r,
      (∀ word', Statement.named? word' name = if word = word' then some r else none) →
      Statement.withA? name token = some ⟨ofReg r, some token⟩) :
    Reads earlier (memory word (.seq (.slot .b operand) withA) opcode) := by
  refine reads_memory ofReg hgroup fun cs ops r haccepts _ hr => ?_
  obtain ⟨w, c, gap, o, u, rfl, hw, hc, hgap, ⟨o, a, u, v, rfl, rfl, ho, ha⟩, rfl⟩ :=
    accepts_memory.mp haccepts
  obtain ⟨text, ⟨rfl, -⟩, rfl, hwhole, hone⟩ := Shape.fits_of_accepts .operand ho
  have hname := hword.isAtom hw hc
  obtain ⟨hread, rfl⟩ := read?_of_operand_withA hname (by simp) (accepts_separator hgap).1 hwhole
    hone ha
  have hr : Statement.register? (String.ofList [c]) = some r := hr
  rw [hread]
  refine h _ _ r fun word' => ?_
  rw [named?_of_accepts hword.1 hword.2 hw, hr]

theorem ofOne?_load {name token : String} {r : RegisterIndex}
    (h : ∀ word', Statement.named? word' name = if "ld" = word' then some r else none) :
    Statement.ofOne? name token = some (Statement.load r token) := by
  simp [Statement.ofOne?, h]

theorem ofOne?_store {name token : String} {r : RegisterIndex}
    (h : ∀ word', Statement.named? word' name = if "st" = word' then some r else none) :
    Statement.ofOne? name token = some (Statement.store r token) := by
  simp [Statement.ofOne?, h]

theorem accepts_register_of_register? (slot : Slot) {token : String} {r : RegisterIndex}
    (h : Statement.register? token = some r) :
    (register slot).Accepts token.toList [(slot, token)] := by
  obtain ⟨c, rfl, hc⟩ := exists_letter_of_register? h
  rw [String.toList_ofList]
  exact ⟨[], ⟨⟨c, rfl, hc⟩, rfl⟩, rfl⟩

theorem marked?_of_parenthesized? {token text : String}
    (h : Statement.parenthesized? token = some text) : marked? token = none := by
  unfold Statement.parenthesized? at h
  split at h
  · rename_i rest htoken
    simp [marked?, htoken]
  · cases h

/-- Where a load from a register would have come first, the operand is no register. -/
theorem register?_eq_none {token : String} (hmove : move ∈ earlier)
    (h : ∀ rule ∈ earlier, ∀ target ops,
      rule.pattern = all [.lit "ld", register .a, .separator, target] →
        ¬ target.Accepts token.toList ops) : Statement.register? token = none := by
  rw [Option.eq_none_iff_forall_ne_some]
  intro r hr
  exact h move hmove _ _ rfl (accepts_register_of_register? .b hr)

/-- Where an indirect load or store would have come first, the operand is not indirect. -/
theorem parenthesized?_eq_none {token : String} {code : String}
    (hindirect : memory word (indirect .b) code ∈ earlier)
    (h : ∀ rule ∈ earlier, ∀ target ops,
      rule.pattern = all [.lit word, register .a, .separator, target] →
        ¬ target.Accepts token.toList ops) : Statement.parenthesized? token = none := by
  rw [Option.eq_none_iff_forall_ne_some]
  intro text htext
  exact h _ hindirect _ _ rfl (accepts_of_parenthesized? .b htext)

theorem reads_move : Reads earlier move := by
  intro cs caps hmatch _ p symbols bits hencodes
  obtain ⟨ops, haccepts, hcaps⟩ := accepts_of_match? hmatch
  obtain ⟨w, c, gap, o, u, rfl, hw, hc, hgap, ho, rfl⟩ := accepts_memory.mp haccepts
  have hword : IsTransfer "ld" := by decide
  obtain ⟨text, rfl, rfl, hwhole, hone⟩ := Shape.fits_of_accepts .register ho
  have hname := hword.isAtom hw hc
  obtain ⟨destination, hdestination, hencodes⟩ := exists_register_of_encodes hencodes
  obtain ⟨r, hr, hencodes⟩ := exists_register_of_encodes hencodes
  rw [hcaps] at hdestination hr
  have hdestination : Statement.register? (String.ofList [c]) = some destination := hdestination
  have hr : Statement.register? (String.ofList o) = some r := hr
  refine ⟨⟨.move destination r, none⟩, ?_, rfl, codedAs_of_encodes ?_ ?_ rfl hencodes⟩
  · rw [read?_of_operand hname (by simp) (accepts_separator hgap).1 hwhole hone, ofOne?_load
      fun word' => by rw [named?_of_accepts hword.1 hword.2 hw, hdestination]]
    simp [Statement.load, hr]
  · simp [length_ofNat, ofText]
  · rw [toNat_append_register, toNat_append_register]
    change 8 * (8 * 3 + destination.val) + r.val = 192 + 8 * destination.val + r.val
    omega

theorem reads_loadIndirect (hmove : move ∈ earlier) :
    Reads earlier (memory "ld" (indirect .b) "10101") := by
  refine reads_memory_shape (.load · .indirect) .indirect (by decide)
    ⟨by decide, fun r => rfl, fun _ => rfl⟩ fun name token text r hfits hname hnone => ?_
  have hfits : Statement.parenthesized? token = some text := hfits
  rw [ofOne?_load hname]
  simp [Statement.load, register?_eq_none hmove hnone, marked?_of_parenthesized? hfits, hfits]

theorem reads_loadImmediate (hmove : move ∈ earlier) :
    Reads earlier (memory "ld" (.seq (.letter '#') (.slot .b operand)) "01111") := by
  refine reads_memory_shape .loadImmediate .immediate (by decide)
    ⟨by decide, fun r => rfl, fun _ => rfl⟩ fun name token text r hfits hname hnone => ?_
  have hfits : marked? token = some text := hfits
  rw [ofOne?_load hname]
  simp [Statement.load, register?_eq_none hmove hnone, hfits]

theorem reads_loadAbsolute (hmove : move ∈ earlier)
    (hindirect : memory "ld" (indirect .b) "10101" ∈ earlier) :
    Reads earlier (memory "ld" (.slot .b operand) "10001") := by
  refine reads_memory_shape (.load · .absolute) .operand (by decide)
    ⟨by decide, fun r => rfl, fun _ => rfl⟩ fun name token text r hfits hname hnone => ?_
  obtain ⟨rfl, hmarked⟩ := hfits
  rw [ofOne?_load hname]
  simp [Statement.load, register?_eq_none hmove hnone, hmarked,
    parenthesized?_eq_none hindirect hnone]

theorem reads_storeIndirect : Reads earlier (memory "st" (indirect .b) "10100") := by
  refine reads_memory_shape (.store · .indirect) .indirect (by decide)
    ⟨by decide, fun r => rfl, fun _ => rfl⟩ fun name token text r hfits hname _ => ?_
  have hfits : Statement.parenthesized? token = some text := hfits
  rw [ofOne?_store hname]
  simp [Statement.store, hfits]

theorem reads_storeAbsolute (hindirect : memory "st" (indirect .b) "10100" ∈ earlier) :
    Reads earlier (memory "st" (.slot .b operand) "10000") := by
  refine reads_memory_shape (.store · .absolute) .operand (by decide)
    ⟨by decide, fun r => rfl, fun _ => rfl⟩ fun name token text r hfits hname hnone => ?_
  obtain ⟨rfl, -⟩ := hfits
  rw [ofOne?_store hname]
  simp [Statement.store, parenthesized?_eq_none hindirect hnone]

theorem reads_loadIndexed :
    Reads earlier (memory "ld" (.seq (.slot .b operand) withA) "10011") := by
  refine reads_memory_indexed (.load · .indexed) (by decide)
    ⟨by decide, fun r => rfl, fun _ => rfl⟩ fun name token r hname => ?_
  simp [Statement.withA?, hname]

theorem reads_storeIndexed :
    Reads earlier (memory "st" (.seq (.slot .b operand) withA) "10010") := by
  refine reads_memory_indexed (.store · .indexed) (by decide)
    ⟨by decide, fun r => rfl, fun _ => rfl⟩ fun name token r hname => ?_
  simp [Statement.withA?, hname]

end Memory

/-! ## The table -/

section Table

variable {earlier : List Rule}

theorem plainCodes_read : ReadsEach earlier (plainCodes.map fun e => plain e.1 e.2) := by
  refine .of_forall ?_
  simp only [plainCodes, List.forall_mem_map, List.forall_mem_cons, List.not_mem_nil,
    false_imp_iff, implies_true, and_true]
  refine ⟨?_, ?_, ?_, ?_, ?_, ?_, ?_, ?_⟩
  all_goals exact reads_plain (by decide) rfl (by decide) (by decide) rfl

theorem accumulatorCodes_read : ReadsEach earlier
    (accumulatorCodes.map fun e => onRegister (.seq (register .r) withA) e.1 e.2) := by
  refine .of_forall ?_
  simp only [accumulatorCodes, List.forall_mem_map, List.forall_mem_cons, List.not_mem_nil,
    false_imp_iff, implies_true, and_true]
  refine ⟨?_, ?_, ?_, ?_, ?_, ?_⟩
  all_goals
    exact reads_accumulator (fun _ _ h => h) (by decide) (by decide) rfl (by decide)
      fun r => ⟨rfl, rfl⟩

theorem registerCodes_read : ReadsEach earlier
    (registerCodes.map fun e => onRegister (register .r) e.1 e.2) := by
  refine .of_forall ?_
  simp only [registerCodes, List.forall_mem_map, List.forall_mem_cons, List.not_mem_nil,
    false_imp_iff, implies_true, and_true]
  refine ⟨?_, ?_, ?_, ?_, ?_, ?_, ?_⟩
  all_goals
    exact reads_onRegister .register (by decide) (by decide) rfl (fun _ _ h => h) (by decide)
      fun r => ⟨rfl, rfl⟩

theorem jumpCodes_read
    (hindirect : jump (indirect .a) "jmp" "00000011" ∈ earlier ∧
      jump (indirect .a) "jsr" "00001001" ∈ earlier) :
    ReadsEach earlier (jumpCodes.map fun e => jump (.slot .a operand) e.1 e.2) := by
  refine .of_forall ?_
  simp only [jumpCodes, List.forall_mem_map, List.forall_mem_cons, List.not_mem_nil,
    false_imp_iff, implies_true, and_true]
  obtain ⟨hjmp, hjsr⟩ := hindirect
  refine ⟨?_, ?_, ?_, ?_, ?_, ?_⟩
  · exact reads_jump (by decide) (fun _ => rfl) rfl (.inr ⟨_, hjmp, rfl⟩) (by decide) (by decide)
      rfl
  · exact reads_jump (by decide) (fun _ => rfl) rfl (.inl rfl) (by decide) (by decide) rfl
  · exact reads_jump (by decide) (fun _ => rfl) rfl (.inl rfl) (by decide) (by decide) rfl
  · exact reads_jump (by decide) (fun _ => rfl) rfl (.inl rfl) (by decide) (by decide) rfl
  · exact reads_jump (by decide) (fun _ => rfl) rfl (.inl rfl) (by decide) (by decide) rfl
  · exact reads_jump (by decide) (fun _ => rfl) rfl (.inr ⟨_, hjsr, rfl⟩) (by decide) (by decide)
      rfl

/-- Every rule of the table agrees with the reading of the lines that it decides. -/
theorem instructions_read : ReadsEach [] instructions := by
  unfold ReadsEach instructions
  simp only [Rule.soundEach_append]
  refine ⟨⟨⟨⟨⟨plainCodes_read, ?_⟩, jumpCodes_read (by simp)⟩, accumulatorCodes_read⟩,
    registerCodes_read⟩, ?_⟩
  · refine ⟨?_, ?_, trivial⟩
    · exact reads_jumpIndirect (by decide) (fun _ => rfl) rfl (by decide) (by decide) rfl
    · exact reads_jumpIndirect (by decide) (fun _ => rfl) rfl (by decide) (by decide) rfl
  · refine ⟨reads_move, reads_loadIndexed, reads_storeIndexed, reads_loadIndirect (by simp),
      reads_storeIndirect, reads_loadImmediate (by simp), reads_loadAbsolute (by simp) (by simp),
      reads_storeAbsolute (by simp), ?_, ?_, trivial⟩
    all_goals
      exact reads_onRegister .operand (by decide) (by decide) rfl (fun _ _ h => h.1) (by decide)
        fun r => ⟨rfl, rfl⟩

end Table

end PocketAsm.V8

/-
  Proofs/Constants.lean --- a constant in an operand field does what its value does.

  An operand that is a literal is encoded at once, and only by whether its field
  is signed.  A name becomes a reference, which is encoded after the first pass
  as signed also if it is relative.  The two agree for every field that is
  signed if it is relative, and the rules of all dialects make only such fields
  (`Field.SignedIfRelative`): performing them asks for no other operand.
-/
import PocketAsm.Bits.Checked
import PocketAsm.Proofs.Parva.NumberLoads

set_option autoImplicit false

namespace PocketAsm

/-! ## Operands -/

namespace Bits

/-- A value is in the range of an operand field, the signed one if it is negative. -/
def Fits (v : Int) (width : Nat) (signed : Bool) : Prop :=
  (range width (signed || v < 0)).1 ≤ v ∧ v ≤ (range width (signed || v < 0)).2

instance (v : Int) (width : Nat) (signed : Bool) : Decidable (Fits v width signed) :=
  inferInstanceAs (Decidable (_ ∧ _))

/-- What fits is encoded. -/
theorem exists_encodeField {v : Int} {width : Nat} {signed : Bool} (h : Fits v width signed) :
    ∃ bits, encodeField v width signed = .ok bits := by
  exact ⟨_, if_pos h⟩

/-- What does not fit is reported with its field. -/
theorem encodeField_of_not_fits {v : Int} {width : Nat} {signed : Bool}
    (h : ¬Fits v width signed) :
    encodeField v width signed = .error (.outOfRange v width (signed || v < 0)) :=
  if_neg h

/-- Nothing is encoded into a field that does not exist. -/
theorem encodeField?_of_not_wide {v : Int} {width : Nat} {signed : Bool}
    (h : width? width (signed || v < 0) ≠ some width) : encodeField? v width signed = none := by
  have hnone : width? width (signed || v < 0) = none := by
    by_contra hsome
    obtain ⟨n, hn⟩ := Option.ne_none_iff_exists'.mp hsome
    refine h (hn.trans ?_)
    simp only [width?, Option.ite_none_right_eq_some, Option.some.injEq] at hn
    rw [← hn.2, Int.toNat_natCast]
  rw [encodeField?, encode?, hnone, Option.map_none]

end Bits

namespace Dialect

section Operands

variable {dialect : Dialect} {p q : Program} {literal name : String} {v : Int}
  {width : Nat} {signed relative : Bool}

/-- A number is encoded at once. -/
theorem operand_number (hnumber : dialect.numbers.read literal = .ok (some v)) :
    dialect.operand p literal width signed relative =
      (Bits.encodeField v width signed).map .bits := by
  have hliteral : dialect.literal? p literal = .ok (some v) := by rw [literal?, hnumber]
  simp only [operand, hliteral]
  cases Bits.encodeField v width signed <;> rfl

/-- A number with too many digits to be read has no part, and no message. -/
theorem operand_overlong (hlong : dialect.numbers.isOverlong literal = true) :
    ∃ fault, dialect.operand p literal width signed relative = .error fault ∧
      fault.fatal? ≠ none := by
  simp only [operand, literal?, NumberSyntax.read, hlong, if_true]
  exact ⟨_, rfl, Option.some_ne_none _⟩

/-- A name is put off. -/
theorem operand_name (hname : dialect.literal? p name = .ok none) :
    dialect.operand p name width signed relative =
      .ok (.ref ⟨name, width, p.address, relative, signed⟩) := by
  rw [operand, hname]

/-- What is no literal is no number. -/
theorem read_of_literal? (hname : dialect.literal? p name = .ok none) :
    dialect.numbers.read name = .ok none := by
  rw [literal?] at hname
  split at hname <;> simp_all

/-- A reference to a constant is encoded as its value is. -/
theorem partBits_constant (hflags : relative = true → signed = true)
    (hname : dialect.numbers.read name = .ok none) (hlabel : List.lookup name q.labels = none)
    (hpair : Symbols.pairPattern.match? name.toList = none)
    (hconstant : List.lookup name q.constants = some v) (origin : Int) :
    (dialect.symbols q).partBits (.ref ⟨name, width, origin, relative, signed⟩) =
      Bits.encodeField v width signed := by
  have hvalue : (dialect.symbols q).value name origin relative = .ok v := by
    simp only [Symbols.value, Symbols.labelValue?, symbols, hname, hlabel, hpair, hconstant,
      Option.map_none]
  have hsigned : (signed || relative) = signed := by
    cases relative <;> simp_all
  rw [Symbols.partBits, hvalue]
  simp only [hsigned]

end Operands

/-! ## Performing with other operands -/

section Operands

variable (dialect : Dialect) (make : Program → String → Nat → Bool → Bool → Except Fault Part)

/-- The part that a field makes, given what operands make. -/
def fieldPartBy (p : Program) : Field → Except Fault Part
  | .bits bits => .ok (.bits bits)
  | .register (.ok bits) => .ok (.bits bits)
  | .register (.error e) => .error e
  | .value text width signed relative => make p text width signed relative

/-- The parts that fields make, given what operands make. -/
def fieldPartsBy (p : Program) : List Field → Except Fault (List Part)
  | [] => .ok []
  | field :: fields =>
    match fieldPartBy make p field with
    | .error e => .error e
    | .ok part =>
      match fieldPartsBy p fields with
      | .error e => .error e
      | .ok parts => .ok (part :: parts)

/-- Places one item of data, given what operands make. -/
def placeItemBy (symbolWords : Nat) (source : Source) (item : String) (p : Program) : Outcome :=
  match dialect.literal? p item with
  | .error e => .refused e
  | .ok found =>
    let words := if found.isSome then 1 else symbolWords
    match make p item (words * dialect.wordSize) false false with
    | .error e => .refused e
    | .ok part => ⟨[.place [part] words source], none⟩

/-- Carries out an action that does not expand the line, given what operands make. -/
def performBy (source : Source) (p : Program) : Action → Outcome
  | .emit fields words mark =>
    match fieldPartsBy make p fields with
    | .error e => .refused e
    | .ok parts =>
      ⟨[.place parts words { source with matched := mark.getD source.matched }], none⟩
  | .data items symbolWords =>
    placeAll
      (dialect.placeItemBy make symbolWords
        { source with shown := ".data", matched := "(data)" }) items p []
  | .repeat item count symbolWords =>
    match dialect.literal p count with
    | .error e => .refused e
    | .ok n =>
      if 0 ≤ n ∧ n ≤ Directive.maxRepeat then
        placeAll
          (dialect.placeItemBy make symbolWords
            { source with shown := ".repeat", matched := "(data)" })
          (List.replicate n.toNat item) p []
      else .refused (.badRepeat Directive.maxRepeat n)
  | action => dialect.perform source p action

/-- Given what operands do make, actions are carried out as they are. -/
theorem performBy_operand : dialect.performBy dialect.operand = dialect.perform := by
  have hpart (p : Program) (field : Field) :
      fieldPartBy dialect.operand p field = dialect.fieldPart p field := by
    cases field with
    | bits bits => rfl
    | register code => cases code <;> rfl
    | value text width signed relative => rfl
  have hparts (p : Program) (fields : List Field) :
      fieldPartsBy dialect.operand p fields = dialect.fieldParts p fields := by
    induction fields with
    | nil => rfl
    | cons field fields ih =>
      cases hfield : dialect.fieldPart p field with
      | error e => simp only [fieldPartsBy, fieldParts, hpart, hfield]
      | ok part =>
        cases hfields : dialect.fieldParts p fields <;>
          simp only [fieldPartsBy, fieldParts, hpart, ih, hfield, hfields]
  funext source p action
  cases action with
  | emit fields words mark =>
    change (match fieldPartsBy dialect.operand p fields with
      | .error e => Outcome.refused e
      | .ok parts =>
        Outcome.mk [.place parts words { source with matched := mark.getD source.matched }]
          none) = _
    rw [hparts]
    rfl
  | _ => rfl

end Operands

end Dialect

/-! ## Fields that are signed if they are relative -/

/-- An operand is held against the signed range if it is relative. -/
def Field.SignedIfRelative : Field → Prop
  | .value _ _ signed relative => relative = true → signed = true
  | _ => True

/-- Every operand in the fields is held against the signed range if it is relative. -/
def Action.SignedIfRelative : Action → Prop
  | .emit fields _ _ => ∀ field ∈ fields, field.SignedIfRelative
  | _ => True

/-- Whatever the operands are. -/
def Rule.SignedIfRelative (rule : Rule) : Prop := ∀ caps, (rule.action caps).SignedIfRelative

@[simp] theorem signedIfRelative_bits (bits : Bits) : (Field.bits bits).SignedIfRelative := trivial

@[simp] theorem signedIfRelative_code (digits : String) :
    (Operand.code digits).SignedIfRelative := trivial

@[simp] theorem signedIfRelative_register (code : Except Fault Bits) :
    (Field.register code).SignedIfRelative := trivial

@[simp] theorem signedIfRelative_value (text : String) (width : Nat) (signed relative : Bool) :
    (Field.value text width signed relative).SignedIfRelative ↔
      (relative = true → signed = true) := Iff.rfl

@[simp] theorem signedIfRelative_emit (fields : List Field) (words : Nat) (mark : Option String) :
    (Action.emit fields words mark).SignedIfRelative ↔
      ∀ field ∈ fields, field.SignedIfRelative := Iff.rfl

@[simp] theorem signedIfRelative_expand (lines : List String) :
    (Action.expand lines).SignedIfRelative := trivial

@[simp] theorem signedIfRelative_reject (fault : Fault) :
    (Action.reject fault).SignedIfRelative := trivial

/-- Directives and labels have no fields. -/
theorem Directive.common_signedIfRelative (operand cut : Pattern) (symbolWords : Nat) :
    ∀ rule ∈ common operand cut symbolWords, rule.SignedIfRelative :=
  forall_common (P := Action.SignedIfRelative)
    (fun action h => by cases action <;> trivial) fun _ => trivial

/-! ## The rule tables -/

namespace Bitzzy

@[simp] theorem signedIfRelative_plain (pattern : Pattern) (op : Op) :
    (plain pattern op).SignedIfRelative := fun _ => by simp [plain, opcode]

@[simp] theorem signedIfRelative_withImmediate (pattern : Pattern) (op : Op) :
    (withImmediate pattern op).SignedIfRelative := fun _ => by simp [withImmediate, opcode]

@[simp] theorem signedIfRelative_withAddress (pattern : Pattern) (op : Op) :
    (withAddress pattern op).SignedIfRelative := fun _ => by simp [withAddress, opcode]

@[simp] theorem signedIfRelative_withBoth (pattern : Pattern) (op : Op) :
    (withBoth pattern op).SignedIfRelative := fun _ => by simp [withBoth, opcode]

@[simp] theorem signedIfRelative_refused (pattern : Pattern) (mnemonic first second : String) :
    (refused pattern mnemonic first second).SignedIfRelative := fun _ => trivial

@[simp] theorem signedIfRelative_respelled (pattern : Pattern) (text : Captures → String) :
    (respelled pattern text).SignedIfRelative := fun _ => trivial

theorem signedIfRelative : ∀ rule ∈ dialect.rules, rule.SignedIfRelative := by
  simp only [dialect, instructions, control, exchanges, conditionalJumps, comparisons,
    conditionalCalls, transfers, arithmetic, List.forall_mem_append, List.forall_mem_cons,
    List.forall_mem_map, List.forall_mem_flatMap, Prod.forall]
  simp only [signedIfRelative_plain, signedIfRelative_withImmediate, signedIfRelative_withAddress,
    signedIfRelative_withBoth, signedIfRelative_refused, signedIfRelative_respelled,
    List.not_mem_nil, IsEmpty.forall_iff, implies_true, and_true, true_and]
  exact Directive.common_signedIfRelative _ _ _

end Bitzzy

namespace V8

@[simp] theorem signedIfRelative_plain (mnemonic opcode : String) :
    (plain mnemonic opcode).SignedIfRelative := fun _ => by simp [plain]

@[simp] theorem signedIfRelative_jump (target : Pattern) (mnemonic opcode : String) :
    (jump target mnemonic opcode).SignedIfRelative := fun _ => by simp [jump]

theorem signedIfRelative : ∀ rule ∈ dialect.rules, rule.SignedIfRelative := by
  have honRegister (operands : Pattern) (mnemonic opcode : String) :
      (onRegister operands mnemonic opcode).SignedIfRelative := fun _ => by simp [onRegister]
  have hmemory (mnemonic : String) (source : Pattern) (opcode : String) :
      (memory mnemonic source opcode).SignedIfRelative := fun _ => by simp [memory]
  have hmove : move.SignedIfRelative := fun _ => by simp [move]
  simp only [dialect, instructions, List.forall_mem_append, List.forall_mem_map,
    List.forall_mem_cons]
  simp only [signedIfRelative_plain, signedIfRelative_jump, honRegister, hmemory, hmove,
    List.not_mem_nil, IsEmpty.forall_iff, implies_true, and_true, true_and]
  exact Directive.common_signedIfRelative _ _ _

end V8

theorem Lodestar.signedIfRelative : ∀ rule ∈ dialect.rules, rule.SignedIfRelative := by
  have honRegister (operands : Pattern) (mnemonic opcode : String) :
      (onRegister operands mnemonic opcode).SignedIfRelative := fun _ => by simp [onRegister]
  have hmemory (mnemonic : String) (source : Pattern) (opcode : String) :
      (memory mnemonic source opcode).SignedIfRelative := fun _ => by simp [memory]
  have hmove : move.SignedIfRelative := fun _ => by simp [move]
  simp only [dialect, rules, List.forall_mem_append, List.forall_mem_map, List.forall_mem_cons]
  simp only [V8.signedIfRelative_plain, V8.signedIfRelative_jump, honRegister, hmemory, hmove,
    List.not_mem_nil, IsEmpty.forall_iff, implies_true, and_true, true_and]
  exact ⟨fun _ => trivial, fun _ => trivial, fun _ => trivial⟩

namespace Parva

theorem signedIfRelative_operation (mnemonic bits : String) (signed : Bool) :
    ∀ rule ∈ operation mnemonic bits signed, rule.SignedIfRelative := by
  simp [operation, Rule.SignedIfRelative, word, unused]

theorem signedIfRelative_product (mnemonic bits : String) :
    ∀ rule ∈ product mnemonic bits, rule.SignedIfRelative := by
  simp [product, Rule.SignedIfRelative, word, unused]

theorem signedIfRelative_access (mnemonic bits : String)
    (destination : String → Except Fault Bits) :
    ∀ rule ∈ access mnemonic bits destination, rule.SignedIfRelative := by
  simp [access, Rule.SignedIfRelative, word, unused]

/-- A branch is relative, and signed. -/
theorem signedIfRelative_branch (mnemonic bits : String) (swapped : Bool) :
    (branch mnemonic bits swapped).SignedIfRelative := fun _ => by simp [branch, word]

theorem signedIfRelative_branchSign (mnemonic bits : String) :
    (branchSign mnemonic bits).SignedIfRelative := fun _ => by simp [branchSign, word]

theorem signedIfRelative_jump (a b : String) : (jump a b).SignedIfRelative := by
  unfold jump
  split <;> simp [word, unused]

theorem signedIfRelative_loadNumber (d a : String) : (loadNumber d a).SignedIfRelative := by
  unfold loadNumber
  split
  · trivial
  · trivial
  · split
    · trivial
    · split <;> trivial

theorem signedIfRelative_branchAlways (a : String) : (branchAlways a).SignedIfRelative := by
  unfold branchAlways
  split <;> trivial

theorem signedIfRelative : ∀ rule ∈ dialect.rules, rule.SignedIfRelative := by
  simp only [dialect, instructions, List.forall_mem_append, List.forall_mem_flatMap,
    List.forall_mem_map, and_assoc]
  refine ⟨signedIfRelative_operation _ _ _, ?_, fun e _ => signedIfRelative_operation _ _ _,
    fun e _ => signedIfRelative_product _ _, ?_, signedIfRelative_access _ _ _,
    signedIfRelative_access _ _ _, signedIfRelative_access _ _ _, signedIfRelative_access _ _ _,
    fun _ _ _ => trivial, ?_, fun e _ => signedIfRelative_branch _ _ _,
    fun e _ => signedIfRelative_branch _ _ _, fun _ _ _ => trivial,
    fun e _ => signedIfRelative_branchSign _ _, ?_, Directive.common_signedIfRelative _ _ _, ?_⟩
  · simp only [List.forall_mem_cons]
    exact ⟨fun _ => by simp [subtraction, word, unused], fun _ => by simp [loadUpper, word],
      List.forall_mem_nil _⟩
  · simp only [List.forall_mem_cons, Rule.SignedIfRelative]
    exact ⟨fun _ => trivial, fun _ => trivial, fun _ => signedIfRelative_loadNumber _ _,
      List.forall_mem_nil _⟩
  · simp only [List.forall_mem_cons]
    exact ⟨fun _ => trivial, fun _ => trivial, List.forall_mem_nil _⟩
  · simp only [List.forall_mem_cons, Rule.SignedIfRelative]
    exact ⟨fun _ => signedIfRelative_jump _ _, fun _ => trivial,
      fun _ => signedIfRelative_branchAlways _, fun _ => trivial, fun _ => trivial,
      fun _ => trivial, List.forall_mem_nil _⟩
  · simp only [textDirectives, List.forall_mem_cons]
    exact ⟨fun _ => trivial, fun _ => trivial, List.forall_mem_nil _⟩

end Parva

theorem Architecture.signedIfRelative {a : Architecture} (ha : a ∈ Architecture.all) :
    ∀ rule ∈ a.dialect.rules, rule.SignedIfRelative := by
  simp only [all, List.mem_cons, List.not_mem_nil, or_false] at ha
  rcases ha with rfl | rfl | rfl | rfl
  · exact Bitzzy.signedIfRelative
  · exact V8.signedIfRelative
  · exact Lodestar.signedIfRelative
  · exact Parva.signedIfRelative

/-! ## Literals and constants -/

namespace Dialect

/-- An action whose operands are signed if they are relative asks for no other operand. -/
theorem performBy_congr {dialect : Dialect}
    {make make' : Program → String → Nat → Bool → Bool → Except Fault Part} {action : Action}
    (haction : action.SignedIfRelative)
    (hmake : ∀ p text width signed relative, (relative = true → signed = true) →
      make p text width signed relative = make' p text width signed relative)
    (source : Source) (p : Program) :
    dialect.performBy make source p action = dialect.performBy make' source p action := by
  have hparts {fields : List Field} (hfields : ∀ field ∈ fields, field.SignedIfRelative) :
      fieldPartsBy make p fields = fieldPartsBy make' p fields := by
    induction fields with
    | nil => rfl
    | cons field fields ih =>
      obtain ⟨hfield, hrest⟩ := List.forall_mem_cons.mp hfields
      have hpart : fieldPartBy make p field = fieldPartBy make' p field := by
        cases field with
        | bits bits => rfl
        | register code => cases code <;> rfl
        | value text width signed relative => exact hmake p text width signed relative hfield
      rw [fieldPartsBy, fieldPartsBy, hpart, ih hrest]
  have hitem (symbolWords : Nat) (source : Source) :
      dialect.placeItemBy make symbolWords source =
        dialect.placeItemBy make' symbolWords source := by
    funext item p
    unfold placeItemBy
    simp only [hmake p item _ false false (by simp)]
  unfold performBy
  cases action with
  | emit fields words mark =>
    dsimp only
    rw [hparts haction]
  | data items symbolWords =>
    dsimp only
    rw [hitem]
  | «repeat» item count symbolWords =>
    dsimp only
    rw [hitem]
  | _ => rfl

end Dialect

/-- A literal and the name of a constant with its value are interchangeable in an operand field that
is signed if it is relative: the one is encoded at once to the bits that the other is resolved to,
or both are refused for their range with the same message.  The message exists unless the value has
too many decimal digits, and the literal is read unless it is decimal and has too many itself; a
field without a bit for the sign does not exist for either.  Rules ask for operands of such fields
only. -/
theorem literals_and_constants_agree {a : Architecture} (ha : a ∈ Architecture.all) :
    (∀ (p q : Program) (literal name : String) (v : Int) (width : Nat) (signed relative : Bool),
      (relative = true → signed = true) → a.dialect.numbers.parse? literal = some v →
      a.dialect.literal? p name = .ok none → List.lookup name q.labels = none →
      Symbols.pairPattern.match? name.toList = none → List.lookup name q.constants = some v →
      let legible := a.dialect.numbers.isOverlong literal = false
      let wide := Bits.width? width (signed || v < 0) = some width
      let refusal := Fault.outOfRange v width (signed || v < 0)
      let made := a.dialect.operand p literal width signed relative
      ∃ r : Reference, a.dialect.operand p name width signed relative = .ok (.ref r) ∧
        let found := (a.dialect.symbols q).partBits (.ref r)
        (legible → wide → Bits.Fits v width signed →
          ∃ bits, made = .ok (.bits bits) ∧ found = .ok bits) ∧
        (legible → wide → ¬Bits.Fits v width signed →
          made = .error refusal ∧ found = .error refusal ∧
            refusal.fatal? = if Text.isWritable v then none else some .longNumber) ∧
        (¬wide → Bits.encodeField? v width signed = none ∧
          Bits.encodeField? v r.width (r.signed || r.relative) = none) ∧
        (¬legible → ∃ fault, made = .error fault ∧ fault.fatal? ≠ none)) ∧
    (∀ rule ∈ a.dialect.rules, ∀ caps, (rule.action caps).SignedIfRelative ∧
      ∀ make : Program → String → Nat → Bool → Bool → Except Fault Part,
        (∀ p text width signed relative, (relative = true → signed = true) →
          make p text width signed relative = a.dialect.operand p text width signed relative) →
        ∀ source p, a.dialect.performBy make source p (rule.action caps) =
          a.dialect.perform source p (rule.action caps)) := by
  refine ⟨?_, fun rule hrule caps => ?_⟩
  · intro p q literal name v width signed relative hflags hnumber hname hlabel hpair hconstant
      legible wide refusal made
    have hread (hlegible : legible) := NumberSyntax.read_eq_some.mpr ⟨hlegible, hnumber⟩
    have hfound : (a.dialect.symbols q).partBits (.ref ⟨name, width, p.address, relative, signed⟩) =
        Bits.encodeField v width signed :=
      Dialect.partBits_constant hflags (Dialect.read_of_literal? hname) hlabel hpair hconstant _
    refine ⟨_, Dialect.operand_name hname, fun hlegible _ hfits => ?_,
      fun hlegible _ hfits => ?_, fun hwide => ?_, fun hlong => ?_⟩
    · obtain ⟨bits, hbits⟩ := Bits.exists_encodeField hfits
      refine ⟨bits, ?_, hfound.trans hbits⟩
      simp only [made, Dialect.operand_number (hread hlegible), hbits]
      rfl
    · have hrefused := Bits.encodeField_of_not_fits hfits
      refine ⟨?_, hfound.trans hrefused, rfl⟩
      simp only [made, Dialect.operand_number (hread hlegible), hrefused]
      rfl
    · have hsigned : (signed || relative) = signed := by cases relative <;> simp_all
      rw [hsigned, and_self]
      exact Bits.encodeField?_of_not_wide hwide
    · exact Dialect.operand_overlong (by simpa [legible] using hlong)
  · have hsigned := Architecture.signedIfRelative ha rule hrule caps
    refine ⟨hsigned, fun make hmake source p => ?_⟩
    rw [Dialect.performBy_congr hsigned hmake, Dialect.performBy_operand]

/-- A negative number and a constant for it are the same distance of a branch, and beyond the field
they are refused alike. -/
theorem constant_is_distance :
    let p := Program.start (some .ascii)
    let q : Program := { p with constants := [("back", -16), ("far", 0x800)] }
    let back : Reference := ⟨"back", 12, 0, true, true⟩
    let far : Reference := ⟨"far", 12, 0, true, true⟩
    Parva.dialect.operand p "-0x10" 12 true true = .ok (.bits (Bits.ofText "111111110000")) ∧
      (Parva.dialect.symbols q).partBits (.ref back) = .ok (Bits.ofText "111111110000") ∧
      Parva.dialect.operand p "2048" 12 true true = .error (.outOfRange 0x800 12 true) ∧
      (Parva.dialect.symbols q).partBits (.ref far) = .error (.outOfRange 0x800 12 true) := by
  intro p q back far
  have ha : Architecture.parva ∈ Architecture.all := by simp [Architecture.all]
  obtain ⟨hagree, -⟩ := literals_and_constants_agree ha
  obtain ⟨r, hr, hencoded, -⟩ := hagree p q "-0x10" "back" (-16) 12 true true (fun _ => rfl)
    (by decide +kernel) (by decide +kernel) rfl (by decide +kernel) rfl
  obtain ⟨r', hr', -, hrefused, -⟩ := hagree p q "2048" "far" 0x800 12 true true (fun _ => rfl)
    (by decide +kernel) (by decide +kernel) rfl (by decide +kernel) rfl
  have hback : Parva.dialect.operand p "back" 12 true true = .ok (.ref back) := by decide +kernel
  have hfar : Parva.dialect.operand p "far" 12 true true = .ok (.ref far) := by decide +kernel
  obtain rfl : back = r := by simpa using hback.symm.trans hr
  obtain rfl : far = r' := by simpa using hfar.symm.trans hr'
  obtain ⟨bits, hmade, hfound⟩ := hencoded (by decide +kernel) (by decide) (by decide)
  obtain ⟨hmade', hfound', -⟩ := hrefused (by decide +kernel) (by decide) (by decide)
  have hbits : Parva.dialect.operand p "-0x10" 12 true true =
      .ok (.bits (Bits.ofText "111111110000")) := by decide +kernel
  obtain rfl : bits = Bits.ofText "111111110000" := by simpa using hmade.symm.trans hbits
  exact ⟨hmade, hfound, hmade', hfound'⟩

/-- A literal and a constant beyond the field are not refused for their range if the value has too
many digits for the message. -/
theorem long_value_has_no_message :
    let v := Parva.power 3600
    let literal := String.ofList (Parva.powerLoad 3600).number
    let p := Program.start (some .ascii)
    let q : Program := { p with constants := [("big", v)] }
    let r : Reference := ⟨"big", 12, 0, false, true⟩
    let refusal := Fault.outOfRange v 12 true
    Parva.dialect.numbers.read literal = .ok (some v) ∧
      Parva.dialect.operand p "big" 12 true false = .ok (.ref r) ∧
      Parva.dialect.operand p literal 12 true false = .error refusal ∧
      (Parva.dialect.symbols q).partBits (.ref r) = .error refusal ∧
      refusal.fatal? = some .longNumber := by
  intro v literal p q r refusal
  have hread : Parva.dialect.numbers.read literal = .ok (some v) := Parva.read_powerLoad 3600
  have hrefused : Bits.encodeField v 12 true = .error refusal := by decide +kernel
  refine ⟨hread, by decide +kernel, ?_, ?_, by decide +kernel⟩
  · rw [Dialect.operand_number hread, hrefused]
    rfl
  · exact (Dialect.partBits_constant (by decide) (by decide +kernel) rfl (by decide +kernel) rfl
      0).trans hrefused

end PocketAsm

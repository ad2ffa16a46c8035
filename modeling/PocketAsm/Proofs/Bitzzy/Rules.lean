/-
  Proofs/Bitzzy/Rules.lean --- every rule does what its line reads as.

  A rule emits an opcode and operands, spells a line anew, or refuses it.  A
  rule agrees with the reading of a line if the operation that it emits has the
  effect of the one that is written (`Agrees`).  The name of a register may
  stand where an address may, so some rules agree only because of those before
  them: `ReadsEach` goes through a table with what came earlier, and
  `instructions_read` says that every rule of the table agrees in its place.
-/
import PocketAsm.Proofs.Bitzzy.Execution
import PocketAsm.Proofs.Bitzzy.Lines
import PocketAsm.Proofs.Precedence

set_option autoImplicit false

namespace PocketAsm.Bitzzy

open Operand Pattern Text

/-! ## Operations that do the same -/

/-- The operations take the same operands and have the same effect. -/
structure Op.Same (op op' : Op) : Prop where
  address : op.takesAddress = op'.takesAddress
  immediate : op.takesImmediate = op'.takesImmediate
  effect : ∀ s a i size, op.effect s a i size = op'.effect s a i size

namespace Op

theorem Same.refl (op : Op) : op.Same op := ⟨rfl, rfl, fun _ _ _ _ => rfl⟩

theorem Same.trans {op op' op'' : Op} (h : op.Same op') (h' : op'.Same op'') : op.Same op'' :=
  ⟨h.address.trans h'.address, h.immediate.trans h'.immediate,
    fun s a i size => (h.effect s a i size).trans (h'.effect s a i size)⟩

/-- An exchange does not depend on the order of the registers. -/
theorem same_swp (r r' : Reg) : (swp r r').Same (swp r' r) := by
  refine ⟨rfl, rfl, fun s a i size => ?_⟩
  cases r <;> cases r' <;> rfl

/-- Nor does a comparison for equality. -/
theorem same_ifEqual (r r' : Reg) (call : Bool) :
    (ifEqual r r' call).Same (ifEqual r' r call) := by
  refine ⟨rfl, rfl, fun s a i size => ?_⟩
  have hflow : (ifEqual r r' call).flow s a = (ifEqual r' r call).flow s a := by
    simp only [flow, eq_comm]
  simp only [effect, hflow]
  rfl

/-- Nor does an operation whose registers the table puts in order. -/
theorem same_aluRegisters {name : String} {alu : Alu} (h : (name, alu, false) ∈ aluNames)
    (r r' : Reg) : (aluRegisters alu r r').Same (aluRegisters alu r' r) := by
  have hcommutes (x y before : Nat) :
      alu.result x y = alu.result y x ∧ alu.remainder x y before = alu.remainder y x before := by
    simp only [aluNames, List.mem_cons, Prod.mk.injEq, List.not_mem_nil, or_false, Bool.false_eq,
      Bool.true_eq_false, and_false, false_or] at h
    obtain ⟨-, rfl, -⟩ | ⟨-, rfl, -⟩ | ⟨-, rfl, -⟩ | ⟨-, rfl, -⟩ | ⟨-, rfl, -⟩ := h
    · simp only [Alu.result, Alu.remainder, Nat.add_comm, and_self]
    · simp only [Alu.result, Alu.remainder, Nat.mul_comm, and_self]
    · exact ⟨Nat.and_comm x y, rfl⟩
    · exact ⟨Nat.or_comm x y, rfl⟩
    · exact ⟨Nat.xor_comm x y, rfl⟩
  refine ⟨rfl, rfl, fun s a i size => ?_⟩
  simp only [effect, sets, remainder, (hcommutes (s.reg r) (s.reg r') s.remainder).1,
    (hcommutes (s.reg r) (s.reg r') s.remainder).2]
  rfl

/-- The table has the operation on the registers as they are written, or in the other order where
the order does not matter. -/
theorem same_aluOp {name : String} {alu : Alu} {orderMatters : Bool}
    (h : (name, alu, orderMatters) ∈ aluNames) (r r' : Reg) :
    (aluOp alu orderMatters r r').Same (aluRegisters alu r r') := by
  unfold aluOp
  split
  · exact .refl _
  · rename_i horder
    obtain rfl : orderMatters = false := by simp_all
    exact same_aluRegisters h r' r

/-- The table has the operation; it takes, or does not take, an address and immediate data. -/
structure Coded (op : Op) (address immediate : Bool) : Prop where
  code : op.code?.isSome = true
  address : op.takesAddress = address
  immediate : op.takesImmediate = immediate

instance (op : Op) (address immediate : Bool) : Decidable (op.Coded address immediate) :=
  decidable_of_iff
    (op.code?.isSome = true ∧ op.takesAddress = address ∧ op.takesImmediate = immediate)
    ⟨fun ⟨h, h', h''⟩ => ⟨h, h', h''⟩, fun ⟨h, h', h''⟩ => ⟨h, h', h''⟩⟩

theorem Coded.size {op : Op} {address immediate : Bool} (h : op.Coded address immediate) :
    op.size = 1 + (if address then 2 else 0) + if immediate then 1 else 0 := by
  rw [Op.size, h.address, h.immediate]

end Op

/-! ## Agreement -/

namespace Statement

/-- The instruction with this opcode carries out the statement. -/
structure CodedBy (op : Op) (statement : Statement) : Prop where
  coded : op.Coded statement.address?.isSome statement.immediate?.isSome
  same : op.Same statement.op

/-- The fields of an instruction: its opcode, its address and its immediate data. -/
def fields (op : Op) (statement : Statement) : List Field :=
  opcode op :: ((statement.address?.toList.map fun text => .value text 16 false false) ++
    statement.immediate?.toList.map fun text => .value text 8 false false)

/-- The statements have the same operands, and their operations do the same. -/
structure Same (statement statement' : Statement) : Prop where
  op : statement.op.Same statement'.op
  address : statement.address? = statement'.address?
  immediate : statement.immediate? = statement'.immediate?

end Statement

/-- What is done with a line agrees with what the line reads as. -/
def Agrees (read : Option Statement) : Action → Prop
  | .emit fields words _ =>
    ∃ statement op, read = some statement ∧ statement.CodedBy op ∧
      fields = statement.fields op ∧ words = op.size
  | .expand lines =>
    ∃ line statement statement', lines = [line] ∧ read = some statement ∧
      Statement.read? line = some statement' ∧ statement'.Same statement
  | .reject _ => True
  | _ => False

/-- The rule agrees with the reading of every line that it decides behind the earlier ones. -/
abbrev Reads (earlier : List Rule) (rule : Rule) : Prop :=
  Rule.SoundAfter (fun cs action => Agrees (Statement.read? (String.ofList cs)) action) earlier rule

/-- Every rule of a table agrees in its place. -/
abbrev ReadsEach (earlier rules : List Rule) : Prop :=
  Rule.SoundEach (fun cs action => Agrees (Statement.read? (String.ofList cs)) action) earlier rules

/-! ## Rules by the shapes of their operands -/

section Shapes

theorem FitEach.one {shape : Shape} {os : List String} (h : FitEach [shape] os) :
    ∃ o, os = [o] ∧ shape.Fits o := by
  obtain ⟨o, rest, ho, hrest, rfl⟩ := List.forall₂_cons_left_iff.mp h
  exact ⟨o, by rw [List.forall₂_nil_left_iff.mp hrest], ho⟩

theorem FitEach.two {shape shape' : Shape} {os : List String} (h : FitEach [shape, shape'] os) :
    ∃ o o', os = [o, o'] ∧ shape.Fits o ∧ shape'.Fits o' := by
  obtain ⟨o, rest, ho, hrest, rfl⟩ := List.forall₂_cons_left_iff.mp h
  obtain ⟨o', rfl, ho'⟩ := FitEach.one hrest
  exact ⟨o, o', rfl, ho, ho'⟩

theorem FitEach.three {shape shape' shape'' : Shape} {os : List String}
    (h : FitEach [shape, shape', shape''] os) :
    ∃ o o' o'', os = [o, o', o''] ∧ shape.Fits o ∧ shape'.Fits o' ∧ shape''.Fits o'' := by
  obtain ⟨o, rest, ho, hrest, rfl⟩ := List.forall₂_cons_left_iff.mp h
  obtain ⟨o', o'', rfl, ho', ho''⟩ := FitEach.two hrest
  exact ⟨o, o', o'', rfl, ho, ho', ho''⟩

variable {earlier : List Rule} {mnemonic : String} {op : Op}

/-- A rule agrees if it does so for all tokens of its shapes.  Tokens that are all registers are
left to an earlier rule on these registers, if there is one. -/
theorem reads_of_tokens (shapes : List Shape) {action : Captures → Action}
    (hmnemonic : IsMnemonic mnemonic)
    (h : ∀ os, FitEach shapes os →
      (∀ registers : List Reg, os.map Statement.register? = registers.map some →
        ∀ rule ∈ earlier, rule.pattern ≠ line mnemonic (registers.map theReg)) →
      ∀ caps : Captures, (∀ name, caps.get name = captured (captures shapes os) name) →
        Agrees (Statement.ofTokens? mnemonic os) (action caps)) :
    Reads earlier ⟨line mnemonic (shapes.map Shape.pattern), action⟩ := by
  intro cs caps hmatch hearlier
  obtain ⟨os, hread, hfits, hcaps, hregisters⟩ := exists_tokens_of_match? hmnemonic hmatch
  rw [hread]
  refine h os hfits ?_ caps hcaps
  intro registers hos rule hrule hpattern
  have hsome := hregisters registers hos
  rw [← hpattern, hearlier rule hrule] at hsome
  exact Bool.noConfusion hsome

/-- An instruction is emitted for a statement that it carries out. -/
theorem agrees_emit {read : Option Statement} {op' : Op} {address? immediate? : Option String}
    (hread : read = some ⟨op', address?, immediate?⟩) (hsame : op.Same op')
    (hop : op.Coded address?.isSome immediate?.isSome) :
    Agrees read (.emit (Statement.fields op ⟨op', address?, immediate?⟩)
      (1 + (if address?.isSome then 2 else 0) + if immediate?.isSome then 1 else 0) none) :=
  ⟨_, op, hread, ⟨hop, hsame⟩, rfl, hop.size.symm⟩

/-- An instruction without operands. -/
theorem reads_plain (hmnemonic : IsMnemonic mnemonic) (hop : op.Coded false false)
    (h : List.lookup mnemonic Statement.plain = some op) :
    Reads earlier (plain (.lit mnemonic) op) := by
  refine reads_of_tokens [] hmnemonic fun os hos _ caps _ => ?_
  obtain ⟨⟩ := hos
  have hread : Statement.ofTokens? mnemonic [] = some ⟨op, none, none⟩ := by
    simp [Statement.ofTokens?, h]
  exact agrees_emit hread (.refl op) hop

/-- An instruction on a register. -/
theorem reads_register (ofReg : Reg → Op) {r : Reg} (hmnemonic : IsMnemonic mnemonic)
    (hop : (ofReg r).Coded false false)
    (h : List.lookup mnemonic Statement.onRegister = some ofReg) :
    Reads earlier (plain (line mnemonic [theReg r]) (ofReg r)) := by
  refine reads_of_tokens [.register r] hmnemonic fun os hos _ caps _ => ?_
  obtain ⟨o, rfl, hregister⟩ := hos.one
  have hread : Statement.ofTokens? mnemonic [o] = some ⟨ofReg r, none, none⟩ := by
    simp [Statement.ofTokens?, Statement.ofOne?, h, hregister.1]
  exact agrees_emit hread (.refl _) hop

/-- An instruction on an address.  Where a register may stand instead, the rules before this one
take the names of registers. -/
theorem reads_address (hmnemonic : IsMnemonic mnemonic) (hop : op.Coded true false)
    (h : List.lookup mnemonic Statement.onAddress = some op)
    (hregister : List.lookup mnemonic Statement.onRegister = none ∨
      ∀ r, ∃ rule ∈ earlier, rule.pattern = line mnemonic [theReg r]) :
    Reads earlier (withAddress (line mnemonic [inSlot .a]) op) := by
  refine reads_of_tokens [.address .a] hmnemonic fun os hos hnone caps hcaps => ?_
  obtain ⟨operand, rfl, -⟩ := hos.one
  have hread : Statement.ofTokens? mnemonic [operand] = some ⟨op, some operand, none⟩ := by
    rw [Statement.ofTokens?, Statement.ofOne?]
    split
    · rename_i ofReg r hofReg hr
      rcases hregister with hregister | hregister
      · rw [hregister] at hofReg
        cases hofReg
      · obtain ⟨rule, hrule, hpattern⟩ := hregister r
        exact absurd hpattern (hnone [r] (by simp [hr]) rule hrule)
    · rw [h]
      rfl
  rw [hcaps]
  exact agrees_emit hread (.refl op) hop

/-- An instruction on an address and an index. -/
theorem reads_indexed (ofIndex : Index → Op) {r : Reg} (hmnemonic : IsMnemonic mnemonic)
    (hop : (ofIndex (.reg r)).Coded true false)
    (h : List.lookup mnemonic Statement.onIndex = some ofIndex) :
    Reads earlier (withAddress (line mnemonic [inSlot .a, theReg r]) (ofIndex (.reg r))) := by
  refine reads_of_tokens [.address .a, .register r] hmnemonic
    fun os hos _ caps hcaps => ?_
  obtain ⟨operand, o, rfl, hoperand, hregister⟩ := hos.two
  have hread : Statement.ofTokens? mnemonic [operand, o] =
      some ⟨ofIndex (.reg r), some operand, none⟩ := by
    simp [Statement.ofTokens?, Statement.ofTwo?, hoperand.1, hregister.2.2, hregister.2.1, h]
  rw [hcaps]
  exact agrees_emit hread (.refl _) hop

/-- An instruction on a register and immediate data. -/
theorem reads_immediate (ofReg : Reg → Op) {r : Reg} (hmnemonic : IsMnemonic mnemonic)
    (hop : (ofReg r).Coded false true)
    (h : List.lookup mnemonic Statement.onImmediate = some ofReg) :
    Reads earlier (withImmediate (line mnemonic [theReg r, immediate]) (ofReg r)) := by
  refine reads_of_tokens [.register r, .immediate] hmnemonic
    fun os hos _ caps hcaps => ?_
  obtain ⟨o, o', rfl, hregister, himmediate⟩ := hos.two
  obtain ⟨i, hi⟩ := Option.isSome_iff_exists.mp himmediate
  have hread : Statement.ofTokens? mnemonic [o, o'] = some ⟨ofReg r, none, some i⟩ := by
    simp [Statement.ofTokens?, Statement.ofTwo?, hregister.2.2, hregister.1, hi, h]
  have hcaptured : caps.get .a = i := by
    rw [hcaps]
    simp [captures, Shape.captures, captured, hi]
  rw [hcaptured]
  exact agrees_emit hread (.refl _) hop

/-- An instruction on two different registers. -/
theorem reads_registers (ofRegs : Reg → Reg → Op) {r r' : Reg} (hmnemonic : IsMnemonic mnemonic)
    (hne : r ≠ r') (hop : op.Coded false false) (hsame : op.Same (ofRegs r r'))
    (hindex : List.lookup mnemonic Statement.onIndex = none)
    (h : List.lookup mnemonic Statement.onRegisters = some ofRegs) :
    Reads earlier (plain (line mnemonic [theReg r, theReg r']) op) := by
  refine reads_of_tokens [.register r, .register r'] hmnemonic fun os hos _ caps _ => ?_
  obtain ⟨o, o', rfl, ho, ho'⟩ := hos.two
  have hread : Statement.ofTokens? mnemonic [o, o'] = some ⟨ofRegs r r', none, none⟩ := by
    simp [Statement.ofTokens?, Statement.ofTwo?, Statement.ofRegister?, ho.2.2, ho'.2.2, hindex,
      ho.1, ho'.1, h, hne]
  exact agrees_emit hread hsame hop

/-- An instruction on a register and an address.  Where another register may stand instead, the
rules before this one take the names of registers. -/
theorem reads_registerAddress (ofReg : Reg → Op) {r : Reg} (hmnemonic : IsMnemonic mnemonic)
    (hop : (ofReg r).Coded true false)
    (hindex : List.lookup mnemonic Statement.onIndex = none)
    (h : List.lookup mnemonic Statement.onRegisterAddress = some ofReg)
    (hregisters : List.lookup mnemonic Statement.onRegisters = none ∨
      ∀ r', r ≠ r' → ∃ rule ∈ earlier, rule.pattern = line mnemonic [theReg r, theReg r']) :
    Reads earlier (withAddress (line mnemonic [theReg r, inSlot .a]) (ofReg r)) := by
  refine reads_of_tokens [.register r, .address .a] hmnemonic
    fun os hos hnone caps hcaps => ?_
  obtain ⟨o, operand, rfl, ho, hoperand⟩ := hos.two
  have hread : Statement.ofTokens? mnemonic [o, operand] =
      some ⟨ofReg r, some operand, none⟩ := by
    have honAddress : Statement.ofRegister?.onAddress? mnemonic r operand =
        some ⟨ofReg r, some operand, none⟩ := by
      rw [Statement.ofRegister?.onAddress?, h]
      rfl
    simp only [Statement.ofTokens?, Statement.ofTwo?, ho.2.2, hoperand.1, hindex, ho.1,
      Option.bind_eq_bind, Option.bind_some, Statement.ofRegister?, honAddress]
    split
    · rename_i ofRegs r' hofRegs hr'
      rcases hregisters with hregisters | hregisters
      · rw [hregisters] at hofRegs
        cases hofRegs
      · by_cases heq : r = r'
        · rw [if_pos heq]
        · obtain ⟨rule, hrule, hpattern⟩ := hregisters r' heq
          exact absurd hpattern (hnone [r, r'] (by simp [ho.1, hr']) rule hrule)
    · rfl
  rw [hcaps]
  exact agrees_emit hread (.refl _) hop

/-- What has the shape is the index. -/
def Shape.Indexes (index : Index) : Shape → Prop
  | .register r => index = .reg r
  | .yx => index = .yx
  | _ => False

theorem Shape.Indexes.index? {index : Index} {shape : Shape} (h : shape.Indexes index)
    {token : String} (htoken : shape.Fits token) : Statement.index? token = some index := by
  cases shape with
  | register r => exact h ▸ htoken.2.1
  | yx => exact h ▸ htoken
  | address name => exact h.elim
  | immediate => exact h.elim

theorem Shape.Indexes.captures {index : Index} {shape : Shape} (h : shape.Indexes index)
    (token : String) : shape.captures token = [] := by
  cases shape with
  | register r => rfl
  | yx => rfl
  | address name => exact h.elim
  | immediate => exact h.elim

/-- A load or a store with an index. -/
theorem reads_registerIndex (ofIndex : Reg → Index → Op) (last : Shape) {r : Reg} {index : Index}
    (hmnemonic : IsMnemonic mnemonic)
    (hlast : last.Indexes index)
    (hop : (ofIndex r index).Coded true false)
    (h : List.lookup mnemonic Statement.onRegisterIndex = some ofIndex) :
    Reads earlier
      (withAddress (line mnemonic [theReg r, inSlot .a, last.pattern]) (ofIndex r index)) := by
  refine reads_of_tokens [.register r, .address .a, last] hmnemonic
    fun os hos _ caps hcaps => ?_
  obtain ⟨o, operand, o', rfl, ho, -, ho'⟩ := hos.three
  have hread : Statement.ofTokens? mnemonic [o, operand, o'] =
      some ⟨ofIndex r index, some operand, none⟩ := by
    simp [Statement.ofTokens?, Statement.ofThree?, ho.2.2, ho.1, hlast.index? ho', h]
  have hcaptured : caps.get .a = operand := by
    rw [hcaps]
    simp only [captures, hlast.captures]
    rfl
  rw [hcaptured]
  exact agrees_emit hread (.refl _) hop

/-- A comparison of two registers. -/
theorem reads_comparison (ofRegs : Reg → Reg → Option Op) {r r' : Reg}
    (hmnemonic : IsMnemonic mnemonic) (hop : op.Coded true false)
    (hindex : List.lookup mnemonic Statement.onRegisterIndex = none)
    (h : List.lookup mnemonic Statement.comparisons = some ofRegs) (hregs : ofRegs r r' = some op) :
    Reads earlier (withAddress (line mnemonic [theReg r, theReg r', inSlot .a]) op) := by
  refine reads_of_tokens [.register r, .register r', .address .a] hmnemonic
    fun os hos _ caps hcaps => ?_
  obtain ⟨o, o', operand, rfl, ho, ho', -⟩ := hos.three
  have hread : Statement.ofTokens? mnemonic [o, o', operand] = some ⟨op, some operand, none⟩ := by
    simp [Statement.ofTokens?, Statement.ofThree?, ho.2.2, ho.1, ho'.1, hindex, h, hregs]
  rw [hcaps]
  exact agrees_emit hread (.refl _) hop

/-- A store of immediate data. -/
theorem reads_storeImmediate (hop : (Op.storeImmediate .none).Coded true true) :
    Reads earlier (withBoth (line "str" [immediate, inSlot .b]) (.storeImmediate .none)) := by
  refine reads_of_tokens [.immediate, .address .b] (by decide)
    fun os hos _ caps hcaps => ?_
  obtain ⟨o, operand, rfl, himmediate, -⟩ := hos.two
  obtain ⟨i, hi⟩ := Option.isSome_iff_exists.mp himmediate
  have hread : Statement.ofTokens? "str" [o, operand] =
      some ⟨.storeImmediate .none, some operand, some i⟩ := by
    simp [Statement.ofTokens?, Statement.ofTwo?, hi]
  have hcaptured (name : Slot) : caps.get name = captured [(.b, operand), (.a, i)] name := by
    rw [hcaps]
    simp [captures, Shape.captures, hi]
  rw [hcaptured, hcaptured]
  exact agrees_emit hread (.refl _) hop

/-- A store of immediate data with an index. -/
theorem reads_storeImmediateIndex (last : Shape) {index : Index}
    (hlast : last.Indexes index)
    (hop : (Op.storeImmediate index).Coded true true) :
    Reads earlier
      (withBoth (line "str" [immediate, inSlot .b, last.pattern]) (.storeImmediate index)) := by
  refine reads_of_tokens [.immediate, .address .b, last] (by decide)
    fun os hos _ caps hcaps => ?_
  obtain ⟨o, operand, o', rfl, himmediate, -, ho'⟩ := hos.three
  obtain ⟨i, hi⟩ := Option.isSome_iff_exists.mp himmediate
  have hread : Statement.ofTokens? "str" [o, operand, o'] =
      some ⟨.storeImmediate index, some operand, some i⟩ := by
    simp [Statement.ofTokens?, Statement.ofThree?, hi, hlast.index? ho']
  have hcaptured (name : Slot) : caps.get name = captured [(.b, operand), (.a, i)] name := by
    rw [hcaps]
    simp only [captures, hlast.captures]
    simp [Shape.captures, hi]
  rw [hcaptured, hcaptured]
  exact agrees_emit hread (.refl _) hop

/-- A line that is refused agrees with everything. -/
theorem reads_refused (pattern : Pattern) (name first second : String) :
    Reads earlier (refused pattern name first second) :=
  fun _ _ _ _ => trivial

/-! ## Lines that are spelled anew -/

/-- Two registers are exchanged in the other order. -/
theorem reads_exchange {r r' : Reg} (hne : r ≠ r') :
    Reads earlier
      (respelled (line "swp" [theReg r', theReg r]) fun _ => "SWP " ++ inOrder r r') := by
  refine reads_of_tokens [.register r', .register r] (by decide) fun os hos _ caps _ => ?_
  obtain ⟨o, o', rfl, ho, ho'⟩ := hos.two
  refine ⟨_, ⟨.swp r' r, none, none⟩, ⟨.swp r r', none, none⟩, rfl, ?_, ?_,
    ⟨Op.same_swp r r', rfl, rfl⟩⟩
  · have hlookup : List.lookup "swp" Statement.onRegisters = some .swp := rfl
    have hindex : List.lookup "swp" Statement.onIndex = none := rfl
    simp [Statement.ofTokens?, Statement.ofTwo?, Statement.ofRegister?, ho.2.2, ho'.2.2, hindex,
      ho.1, ho'.1, hlookup, hne.symm]
  · change Statement.read? ("SWP " ++ inOrder r r') = _
    revert hne
    cases r <;> cases r' <;> decide

/-- The registers of a comparison for equality are put in the other order. -/
theorem reads_equality (listed : String) {r r' : Reg} {call : Bool}
    (hmnemonic : IsMnemonic mnemonic)
    (hindex : List.lookup mnemonic Statement.onRegisterIndex = none)
    (h : List.lookup mnemonic Statement.comparisons = some fun r r' => some (.ifEqual r r' call))
    (hlisted : (tokens listed.toList).map folded = [mnemonic, r.name, r'.name])
    (hopen : '(' ∉ listed.toList) :
    Reads earlier (respelled (line mnemonic [theReg r', theReg r, inSlot .a])
      fun caps => listed ++ ", " ++ caps.get .a) := by
  refine reads_of_tokens [.register r', .register r, .address .a] hmnemonic
    fun os hos _ caps hcaps => ?_
  obtain ⟨o, o', operand, rfl, ho, ho', -, hwhole, hne⟩ := hos.three
  have hcaptured : caps.get .a = operand := hcaps .a
  refine ⟨_, ⟨.ifEqual r' r call, some operand, none⟩, ⟨.ifEqual r r' call, some operand, none⟩,
    rfl, ?_, ?_, ⟨Op.same_ifEqual r r' call, rfl, rfl⟩⟩
  · simp [Statement.ofTokens?, Statement.ofThree?, ho.2.2, ho.1, ho'.1, hindex, h]
  · obtain ⟨w, ws, hw, rfl, hws⟩ := List.map_eq_cons_iff.mp hlisted
    obtain ⟨p, ps, rfl, hp, hps⟩ := List.map_eq_cons_iff.mp hws
    obtain ⟨p', ps', rfl, hp', hps'⟩ := List.map_eq_cons_iff.mp hps
    obtain rfl := List.map_eq_nil_iff.mp hps'
    have htokens : tokens (listed ++ ", " ++ operand).toList = [w, p, p', operand] := by
      rw [String.toList_append, String.toList_append, List.append_assoc,
        tokens_append_gap hopen gap_comma, hw, tokens_last hwhole hne, String.ofList_toList]
      rfl
    have hmarked : marked? p = none := marked?_of_folded hp (by cases r <;> decide)
    beta_reduce
    rw [hcaptured, Statement.read?, htokens]
    simp [Statement.ofTokens?, Statement.ofThree?, hmarked, (register?_of_folded hp).1,
      (register?_of_folded hp').1, hindex, h]

end Shapes

/-! ## The table -/

section Table

variable {earlier : List Rule}

theorem control_read : ReadsEach earlier control := by
  refine Rule.SoundEach.of_forall ?_
  simp only [control, List.forall_mem_append, List.forall_mem_cons, List.forall_mem_map,
    List.not_mem_nil, false_imp_iff, implies_true, and_true]
  refine ⟨⟨⟨⟨⟨⟨?_, ?_, ?_, ?_, ?_⟩, ?_⟩, ?_, ?_⟩, ?_⟩, ?_⟩, ?_⟩
  · exact reads_plain (by decide) (by decide) rfl
  · exact reads_plain (by decide) (by decide) rfl
  · exact reads_plain (by decide) (by decide) rfl
  · exact reads_plain (by decide) (by decide) rfl
  · exact reads_plain (by decide) (by decide) rfl
  · exact fun r _ => reads_register .rem (by decide) (by cases r <;> decide) rfl
  · exact reads_plain (by decide) (by decide) rfl
  · exact reads_address (by decide) (by decide) rfl (.inl rfl)
  · exact fun r _ => reads_indexed .jmp (by decide) (by cases r <;> decide) rfl
  · exact reads_address (by decide) (by decide) rfl (.inl rfl)
  · exact fun r _ => reads_indexed .jsr (by decide) (by cases r <;> decide) rfl

theorem exchanges_read : ReadsEach earlier exchanges := by
  refine Rule.SoundEach.of_forall ?_
  simp only [exchanges, List.forall_mem_flatMap, List.forall_mem_cons, List.not_mem_nil,
    false_imp_iff, implies_true, and_true]
  rintro ⟨r, r'⟩ hpair
  have hcoded : ∀ e ∈ pairs, e.1 ≠ e.2 ∧ (Op.swp e.1 e.2).Coded false false := by decide
  obtain ⟨hne, hop⟩ := hcoded _ hpair
  exact ⟨reads_registers .swp (by decide) hne hop (.refl _) rfl rfl, reads_exchange hne⟩

theorem comparisons_read {ifZero ifGreater zeroName greaterName : String} {call : Bool}
    (hzero : IsMnemonic ifZero) (hgreater : IsMnemonic ifGreater)
    (hzeroOp : List.lookup ifZero Statement.onRegisterAddress = some (.ifZero · call))
    (hzeroIndex : List.lookup ifZero Statement.onIndex = none)
    (hzeroRegisters : List.lookup ifZero Statement.onRegisters = none)
    (hgreaterOp : List.lookup ifGreater Statement.comparisons =
      some fun r r' => if (r, r') = (.x, .y) then some (.ifGreater call) else none)
    (hgreaterIndex : List.lookup ifGreater Statement.onRegisterIndex = none) :
    ReadsEach earlier (comparisons ifZero ifGreater zeroName greaterName call) := by
  refine Rule.SoundEach.of_forall ?_
  simp only [comparisons, List.forall_mem_append, List.forall_mem_cons, List.forall_mem_map,
    List.not_mem_nil, false_imp_iff, implies_true, and_true]
  have hcoded : (Op.ifZero .x call).Coded true false ∧ (Op.ifZero .z call).Coded true false ∧
      (Op.ifGreater call).Coded true false := by
    cases call <;> decide
  obtain ⟨hx, hz, hxy⟩ := hcoded
  refine ⟨⟨?_, ?_⟩, reads_refused _ _ _ _, ?_, reads_refused _ _ _ _⟩
  · exact reads_registerAddress (.ifZero · call) hzero hx hzeroIndex hzeroOp (.inl hzeroRegisters)
  · exact reads_registerAddress (.ifZero · call) hzero hz hzeroIndex hzeroOp (.inl hzeroRegisters)
  · exact reads_comparison _ hgreater hxy hgreaterIndex hgreaterOp rfl

theorem conditionalJumps_read : ReadsEach earlier conditionalJumps := by
  unfold ReadsEach conditionalJumps
  rw [Rule.soundEach_append, Rule.soundEach_append]
  refine ⟨⟨?_, .of_forall ?_⟩, .of_forall ?_⟩
  · exact comparisons_read (by decide) (by decide) rfl rfl rfl rfl rfl
  · simp only [List.forall_mem_flatMap, List.forall_mem_cons, List.not_mem_nil, false_imp_iff,
      implies_true, and_true]
    rintro ⟨r, r'⟩ hpair
    have hcoded : ∀ e ∈ pairs, (Op.ifEqual e.1 e.2 false).Coded true false := by decide
    have hlisted : ∀ e ∈ pairs, (tokens ("JMPEQ " ++ inOrder e.1 e.2).toList).map folded =
        ["jmpeq", e.1.name, e.2.name] ∧ '(' ∉ ("JMPEQ " ++ inOrder e.1 e.2).toList := by decide
    exact ⟨reads_comparison _ (by decide) (hcoded _ hpair) rfl rfl rfl,
      reads_equality _ (by decide) rfl rfl (hlisted _ hpair).1 (hlisted _ hpair).2⟩
  · simp only [List.forall_mem_cons, List.not_mem_nil, false_imp_iff, implies_true, and_true]
    exact ⟨reads_address (by decide) (by decide) rfl (.inl rfl),
      reads_address (by decide) (by decide) rfl (.inl rfl)⟩

theorem conditionalCalls_read : ReadsEach earlier conditionalCalls := by
  unfold ReadsEach conditionalCalls
  rw [Rule.soundEach_append, Rule.soundEach_append]
  refine ⟨⟨?_, .of_forall ?_⟩, .of_forall ?_⟩
  · exact comparisons_read (by decide) (by decide) rfl rfl rfl rfl rfl
  · simp only [List.forall_mem_cons, List.not_mem_nil, false_imp_iff, implies_true, and_true]
    refine ⟨?_, ?_, reads_refused _ _ _ _, ?_, ?_, ?_⟩
    · exact reads_comparison _ (by decide) (by decide) rfl rfl rfl
    · exact reads_equality "JSREQ X, Y" (by decide) rfl rfl (by decide) (by decide)
    · exact reads_plain (by decide) (by decide) rfl
    · exact reads_plain (by decide) (by decide) rfl
    · exact reads_plain (by decide) (by decide) rfl
  · simp only [List.forall_mem_map]
    exact fun r _ => reads_registerAddress .djnz (by decide) (by cases r <;> decide) rfl rfl
      (.inl rfl)

theorem mem_regs (r : Reg) : r ∈ regs := by cases r <;> decide

theorem mem_allPairs {r r' : Reg} (h : r ≠ r') : (r, r') ∈ allPairs := by
  revert h
  cases r <;> cases r' <;> decide

theorem transfers_read : ReadsEach earlier transfers := by
  unfold ReadsEach transfers
  simp only [Rule.soundEach_append]
  have hpairs : ∀ e ∈ allPairs, e.1 ≠ e.2 ∧ (Op.move e.1 e.2).Coded false false ∧
      (Op.load e.1 (.reg e.2)).Coded true false ∧ (Op.store e.1 (.reg e.2)).Coded true false := by
    decide
  refine ⟨⟨⟨⟨⟨⟨⟨.of_forall ?_, .of_forall ?_⟩, .of_forall ?_⟩, .of_forall ?_⟩, .of_forall ?_⟩,
    .of_forall ?_⟩, .of_forall ?_⟩, .of_forall ?_⟩
  all_goals simp only [List.forall_mem_map, List.forall_mem_cons, List.not_mem_nil, false_imp_iff,
    implies_true, and_true]
  · exact fun r _ => reads_immediate .loadImmediate (by decide) (by cases r <;> decide) rfl
  · exact fun e he =>
      reads_registers .move (by decide) (hpairs e he).1 (hpairs e he).2.1 (.refl _) rfl rfl
  · intro r _
    refine reads_registerAddress (.load · .none) (by decide) (by cases r <;> decide) rfl rfl
      (.inr fun r' hne => ?_)
    refine ⟨plain (line "lod" [theReg r, theReg r']) (.move r r'), ?_, rfl⟩
    exact List.mem_append_right _ (List.mem_append_right _
      (List.mem_map.mpr ⟨(r, r'), mem_allPairs hne, rfl⟩))
  · exact fun e he =>
      reads_registerIndex .load (.register e.2) (by decide) rfl (hpairs e he).2.2.1 rfl
  · exact fun r _ => reads_registerAddress (.store · .none) (by decide) (by cases r <;> decide) rfl
      rfl (.inl rfl)
  · exact fun e he =>
      reads_registerIndex .store (.register e.2) (by decide) rfl (hpairs e he).2.2.2 rfl
  · exact fun r _ => reads_storeImmediateIndex (.register r) rfl (by cases r <;> decide)
  · refine ⟨?_, ?_, ?_, ?_⟩
    · exact reads_storeImmediate (by decide)
    · exact reads_storeImmediateIndex .yx rfl (by decide)
    · exact reads_registerIndex .load .yx (by decide) rfl (by decide) rfl
    · exact reads_registerIndex .store .yx (by decide) rfl (by decide) rfl

/-- The names of the operations on two operands. -/
theorem lookup_of_mem_aluNames {name : String} {alu : Alu} {orderMatters : Bool}
    (h : (name, alu, orderMatters) ∈ aluNames) :
    IsMnemonic name ∧ List.lookup name Statement.onImmediate = some (.aluImmediate alu) ∧
      List.lookup name Statement.onIndex = none ∧
      List.lookup name Statement.onRegisters = some (.aluRegisters alu) := by
  simp only [aluNames, List.mem_cons, Prod.mk.injEq, List.not_mem_nil, or_false] at h
  obtain ⟨rfl, rfl, -⟩ | ⟨rfl, rfl, -⟩ | ⟨rfl, rfl, -⟩ | ⟨rfl, rfl, -⟩ | ⟨rfl, rfl, -⟩ |
    ⟨rfl, rfl, -⟩ | ⟨rfl, rfl, -⟩ | ⟨rfl, rfl, -⟩ := h
  all_goals exact ⟨by decide, rfl, rfl, rfl⟩

theorem coded_aluImmediate (alu : Alu) (r : Reg) : (Op.aluImmediate alu r).Coded false true := by
  cases alu <;> cases r <;> decide

theorem coded_aluOp : ∀ names ∈ aluNames, ∀ e ∈ allPairs,
    e.1 ≠ e.2 ∧ (aluOp names.2.1 names.2.2 e.1 e.2).Coded false false := by
  decide +kernel

theorem arithmetic_read : ReadsEach earlier arithmetic := by
  unfold ReadsEach arithmetic
  simp only [Rule.soundEach_append]
  refine ⟨⟨⟨⟨⟨⟨⟨.of_forall ?_, .of_forall ?_⟩, .of_forall ?_⟩, .of_forall ?_⟩, .of_forall ?_⟩,
    .of_forall ?_⟩, .of_forall ?_⟩, .of_forall ?_⟩
  all_goals simp only [List.forall_mem_map, List.forall_mem_flatMap, List.forall_mem_append,
    List.forall_mem_singleton]
  · exact fun r _ => reads_register .inc (by decide) (by cases r <;> decide) rfl
  · refine reads_address (by decide) (by decide) rfl (.inr fun r => ?_)
    refine ⟨plain (line "inc" [theReg r]) (.inc r), ?_, rfl⟩
    exact List.mem_append_right _ (List.mem_map.mpr ⟨r, mem_regs r, rfl⟩)
  · exact fun r _ => reads_register .dec (by decide) (by cases r <;> decide) rfl
  · refine reads_address (by decide) (by decide) rfl (.inr fun r => ?_)
    refine ⟨plain (line "dec" [theReg r]) (.dec r), ?_, rfl⟩
    exact List.mem_append_right _ (List.mem_append_right _ (List.mem_map.mpr ⟨r, mem_regs r, rfl⟩))
  · rintro ⟨name, alu, orderMatters⟩ hname
    obtain ⟨hmnemonic, himmediate, hindex, hregisters⟩ := lookup_of_mem_aluNames hname
    refine ⟨fun r _ => ?_, fun e he => ?_⟩
    · exact reads_immediate (.aluImmediate alu) hmnemonic (coded_aluImmediate alu r) himmediate
    · exact reads_registers (.aluRegisters alu) hmnemonic (coded_aluOp _ hname e he).1
        (coded_aluOp _ hname e he).2 (Op.same_aluOp hname _ _) hindex hregisters
  · exact fun r _ => reads_register .lsl (by decide) (by cases r <;> decide) rfl
  · exact fun r _ => reads_register .lsr (by decide) (by cases r <;> decide) rfl
  · exact fun r _ => reads_register .not (by decide) (by cases r <;> decide) rfl

/-- Every rule of the table agrees with the reading of the lines that it decides. -/
theorem instructions_read : ReadsEach [] instructions := by
  unfold ReadsEach instructions
  simp only [Rule.soundEach_append]
  exact ⟨⟨⟨⟨⟨control_read, exchanges_read⟩, conditionalJumps_read⟩, conditionalCalls_read⟩,
    transfers_read⟩, arithmetic_read⟩

end Table

end PocketAsm.Bitzzy

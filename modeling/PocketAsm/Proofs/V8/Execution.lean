/-
  Proofs/V8/Execution.lean --- one step of the machine has the effect of its operation.

  The opcode of an operation is a byte, with the register in its low three bits
  (`Op.code`).  The machine takes the byte apart again and moves through
  intermediate states; at the end it has done what the effect of the operation
  says (`step_eq_effect`), in every well-formed state.
-/
import PocketAsm.Proofs.V8.Meaning

set_option autoImplicit false

namespace PocketAsm.V8

/-! ## Opcodes -/

/-- The upper five bits of the opcode. -/
def Alu.group : Alu → Nat
  | .adc => 0b00010
  | .sbc => 0b00100
  | .xor => 0b00111
  | .and => 0b01000
  | .or => 0b01001

@[inherit_doc Alu.group]
def Unary.group : Unary → Nat
  | .inc => 0b00011
  | .dec => 0b00101
  | .not => 0b00110
  | .slc => 0b01010
  | .src => 0b01011
  | .rol => 0b01100
  | .ror => 0b01101

/-- The upper five bits of a load in a mode. -/
def Mode.loadGroup : Mode → Nat
  | .absolute => 0b10001
  | .indexed => 0b10011
  | .indirect => 0b10101

/-- The upper five bits of a store in a mode. -/
def Mode.storeGroup : Mode → Nat
  | .absolute => 0b10000
  | .indexed => 0b10010
  | .indirect => 0b10100

namespace Op

/-- The opcode. -/
def code : Op → Nat
  | .hlt => 0x00
  | .nop => 0x01
  | .jump .always => 0x02
  | .jumpIndirect => 0x03
  | .jump .zero => 0x04
  | .jump .notZero => 0x05
  | .jump .carry => 0x06
  | .jump .noCarry => 0x07
  | .call => 0x08
  | .callIndirect => 0x09
  | .ret => 0x0A
  | .rti => 0x0B
  | .sec => 0x0C
  | .clc => 0x0D
  | .eni => 0x0E
  | .dsi => 0x0F
  | .withA alu r => 8 * alu.group + r
  | .compare r => 8 * 0b01110 + r
  | .unary f r => 8 * f.group + r
  | .loadImmediate r => 8 * 0b01111 + r
  | .load r mode => 8 * mode.loadGroup + r
  | .store r mode => 8 * mode.storeGroup + r
  | .push r => 8 * 0b10110 + r
  | .pull r => 8 * 0b10111 + r
  | .move destination r => 0b11000000 + 8 * destination + r

/-- The operation has an operand. -/
def takesOperand : Op → Bool
  | .jump _ | .jumpIndirect | .call | .callIndirect | .loadImmediate _ | .load _ _ | .store _ _ =>
    true
  | _ => false

/-- The number of bytes of an instruction. -/
def size (op : Op) : Nat := if op.takesOperand then 2 else 1

end Op

/-! ## Registers -/

theorem ofNat_group (group : Nat) (r : RegisterIndex) :
    (8 * group + r.val) / 8 = group ∧ RegisterIndex.ofNat (8 * group + r.val) = r := by
  have hr := r.isLt
  refine ⟨by omega, Fin.ext ?_⟩
  change (8 * group + r.val) % 8 = r.val
  omega

/-- An opcode with a register is executed by its group. -/
theorem step_eq_registerOp {s : State} {group : Nat} {r : RegisterIndex} (hlow : 2 ≤ group)
    (hhigh : group < 24) (h : s.read s.pc = 8 * group + r.val) :
    step s = registerOp { s with cycle := s.cycle + 1 } group r (s.read (s.pc + 1)) := by
  obtain ⟨hgroup, hr⟩ := ofNat_group group r
  have hlt := r.isLt
  simp only [step, h, hgroup, hr]
  rw [if_neg (by omega), if_neg (by omega)]

/-- A load from a register has both registers in its opcode. -/
theorem step_eq_move {s : State} {destination r : RegisterIndex}
    (h : s.read s.pc = (Op.move destination r).code) :
    step s = (State.loadReg { s with cycle := s.cycle + 1 } destination
      (State.reg { s with cycle := s.cycle + 1 } r)).goto (s.pc + 1) := by
  have hdestination := destination.isLt
  have hr := r.isLt
  have hofNat (n : Nat) (q : RegisterIndex) (hq : n % 8 = q.val) : RegisterIndex.ofNat n = q :=
    Fin.ext hq
  have hcode : (Op.move destination r).code = 192 + 8 * destination + r := rfl
  simp only [step, h, hcode]
  rw [if_neg (by omega), if_pos (by omega), hofNat _ destination (by omega), hofNat _ r (by omega)]
  rfl

theorem step_eq_control {s : State} {code : Nat} (hcode : code < 16) (h : s.read s.pc = code) :
    step s = control { s with cycle := s.cycle + 1 } code (s.read (s.pc + 1)) := by
  simp only [step, h]
  rw [if_pos (by omega)]

/-! ## The stack -/

section Stack

variable {s : State}

theorem State.WellFormed.read_lt (hs : s.WellFormed) (address : Nat) : s.read address < 256 :=
  hs.memory _

theorem push_eq (hs : s.WellFormed) {value : Nat} (hvalue : value < 256) :
    s.push value = { s with memory := s.memory.writeAll (s.pushes value) } := by
  have hsp : s.sp < 256 := hs.read_lt _
  simp only [State.push, State.write, State.pushes, Memory.writeAll, List.foldl_cons,
    List.foldl_nil, Nat.mod_eq_of_lt hvalue, Nat.mod_eq_of_lt hsp]
  rfl

theorem pop_eq (s : State) :
    s.pop = (s.top, { s with memory := s.memory.writeAll s.pulls }) := by
  have hlt : (s.sp + 1) % 256 < 256 := Nat.mod_lt _ (by decide)
  have hmemory : s.memory.writeAll s.pulls = s.memory.write 0x7F ((s.sp + 1) % 256) := rfl
  simp only [State.pop, State.write, State.read, State.top, hmemory, Memory.read_write,
    Nat.mod_mod, Prod.mk.injEq]
  refine ⟨?_, rfl⟩
  change (if (127 : Int) = ((s.sp + 1) % 256 : Nat) then _ else _) = _
  split_ifs <;> omega

end Stack

/-! ## Arithmetic -/

/-- A result is stored as a byte; the flags tell whether it is zero and whether it is no byte. -/
theorem alu_eq (s : State) (target : RegisterIndex) (carry : Bool) {result : Int} {byte : Nat}
    (hbyte : (result % 256).toNat = byte)
    (hcarry : carry = true ↔ result < 0 ∨ 255 < result) :
    s.alu target result = { s.setReg target byte with zero := byte = 0, carry := carry } := by
  have hzero : (result % 256 == 0) = decide (byte = 0) := by
    rw [Bool.eq_iff_iff, beq_iff_eq, decide_eq_true_eq]
    omega
  have hrange : (!(decide (0 ≤ result) && decide (result ≤ 255))) = carry := by
    rw [Bool.eq_iff_iff, hcarry, Bool.not_and, Bool.or_eq_true]
    simp
  rw [State.alu, hbyte, hzero, hrange]

/-- The result of an operation before it is stored as a byte. -/
def Alu.exact (x a carry : Nat) : Alu → Int
  | .adc => x + a + carry
  | .sbc => x - a - carry
  | .xor => (x ^^^ a : Nat)
  | .and => (x &&& a : Nat)
  | .or => (x ||| a : Nat)

theorem Alu.exact_eq {x a carry : Nat} (hx : x < 256) (ha : a < 256) (hcarry : carry ≤ 1)
    (alu : Alu) :
    (alu.exact x a carry % 256).toNat = alu.result x a carry ∧
      (alu.carry x a carry = true ↔ alu.exact x a carry < 0 ∨ 255 < alu.exact x a carry) := by
  have hlogic {n : Nat} (hn : n < 2 ^ 8) : ((n : Int) % 256).toNat = n ∧
      (false = true ↔ (n : Int) < 0 ∨ 255 < (n : Int)) := by
    rw [Bool.false_eq_true, false_iff]
    omega
  cases alu with
  | adc =>
    simp only [exact, result, Alu.carry, decide_eq_true_eq]
    omega
  | sbc =>
    simp only [exact, result, Alu.carry, decide_eq_true_eq]
    omega
  | xor => exact hlogic (Nat.xor_lt_two_pow hx ha)
  | and => exact hlogic (Nat.and_lt_two_pow x ha)
  | or => exact hlogic (Nat.or_lt_two_pow hx ha)

/-- The result of an operation before it is stored as a byte. -/
def Unary.exact (x carry : Nat) : Unary → Int
  | .inc => x + 1
  | .dec => x - 1
  | .not => 255 - x
  | .slc => x * 2 + carry
  | .src => (x / 2 + carry * 128 : Nat)
  | .rol => x * 2 + x / 128
  | .ror => (x / 2 + x % 2 * 128 : Nat)

theorem Unary.exact_eq {x carry : Nat} (hx : x < 256) (hcarry : carry ≤ 1) (f : Unary) :
    (f.exact x carry % 256).toNat = f.result x carry := by
  cases f <;> simp only [exact, result] <;> omega

/-- A shift to the right makes no more than a byte; the carry tells about the bit that left. -/
theorem Unary.carry_iff {x carry : Nat} (hx : x < 256) (hcarry : carry ≤ 1) {f : Unary}
    (hsrc : f ≠ .src) (hror : f ≠ .ror) :
    f.carry x = true ↔ f.exact x carry < 0 ∨ 255 < f.exact x carry := by
  cases f
  case src => exact absurd rfl hsrc
  case ror => exact absurd rfl hror
  case not =>
    simp only [Unary.carry, exact, Bool.false_eq_true, false_iff]
    omega
  all_goals
    simp only [Unary.carry, exact, decide_eq_true_eq]
    omega

/-! ## Instructions -/

section Instructions

variable {s : State}

/-- The state after an operation, apart from the count of cycles, which goes on before the operation
is executed. -/
def Op.outcome (s : State) (v : Nat) (op : Op) : State :=
  { op.effect s v op.size with cycle := s.cycle }

theorem registerOp_withA (hs : s.WellFormed) (alu : Alu) (r : RegisterIndex) (immediate : Nat) :
    registerOp s alu.group r immediate = (Op.withA alu r).outcome s immediate := by
  have ha : s.a < 256 := hs.registers accumulator
  obtain ⟨hbyte, hcarry⟩ := alu.exact_eq (hs.registers r) ha (Bool.toNat_le s.carry)
  have hgroup : registerOp s alu.group r immediate =
      (s.alu accumulator (alu.exact (s.reg r) s.a s.carry.toNat)).goto (s.pc + 1) := by
    cases alu <;> rfl
  rw [hgroup, alu_eq s accumulator _ hbyte hcarry]
  rfl

theorem registerOp_unary (hs : s.WellFormed) (f : Unary) (r : RegisterIndex) (immediate : Nat) :
    registerOp s f.group r immediate = (Op.unary f r).outcome s immediate := by
  have hcarry := Bool.toNat_le s.carry
  have hbyte := f.exact_eq (hs.registers r) hcarry
  by_cases hsrc : f = .src
  · subst hsrc
    have hresult : s.reg r / 2 + s.carry.toNat * 128 =
        Unary.result (s.reg r) s.carry.toNat .src := by
      simp only [Unary.result, Nat.mul_comm]
    change ({ s.setReg r (s.reg r / 2 + s.carry.toNat * 128) with
      zero := s.reg r / 2 + s.carry.toNat * 128 == 0
      carry := s.reg r % 2 == 1 } : State).goto _ = _
    rw [hresult]
    rfl
  by_cases hror : f = .ror
  · subst hror
    change ({ s.alu r (Unary.exact (s.reg r) s.carry.toNat .ror) with
      carry := s.reg r % 2 == 1 } : State).goto _ = _
    rw [alu_eq s r false hbyte]
    · rfl
    · have hx := hs.registers r
      simp only [Unary.exact, Bool.false_eq_true, false_iff]
      omega
  · have hgroup : registerOp s f.group r immediate =
        (s.alu r (f.exact (s.reg r) s.carry.toNat)).goto (s.pc + 1) := by
      cases f <;> first | rfl | contradiction
    rw [hgroup, alu_eq s r _ hbyte (Unary.carry_iff (hs.registers r) hcarry hsrc hror)]
    rfl

theorem loadReg_eq (s : State) (target : RegisterIndex) {value : Nat} (hvalue : value < 256) :
    s.loadReg target value = { s.setReg target value with zero := value = 0 } := by
  rw [State.loadReg, Nat.mod_eq_of_lt hvalue]
  rfl

theorem write_eq (s : State) {address value : Nat} (haddress : address < 256)
    (hvalue : value < 256) :
    s.write address value = { s with memory := s.memory.write (address : Int) value } := by
  rw [State.write, Nat.mod_eq_of_lt haddress, Nat.mod_eq_of_lt hvalue]

theorem registerOp_load (hs : s.WellFormed) (r : RegisterIndex) (mode : Mode) (v : Nat) :
    registerOp s mode.loadGroup r v = (Op.load r mode).outcome s v := by
  have hgroup : registerOp s mode.loadGroup r v =
      (s.loadReg r (s.read (mode.address s v))).goto (s.pc + 2) := by
    cases mode with
    | absolute => rfl
    | indexed =>
      change (s.loadReg r (s.read (v + s.a))).goto (s.pc + 2) = _
      rw [Mode.address, State.read, State.read, Nat.mod_mod]
    | indirect => rfl
  rw [hgroup, loadReg_eq s r (hs.read_lt _)]
  rfl

theorem registerOp_store (hs : s.WellFormed) (r : RegisterIndex) (mode : Mode) {v : Nat}
    (hv : v < 256) : registerOp s mode.storeGroup r v = (Op.store r mode).outcome s v := by
  have hgroup : registerOp s mode.storeGroup r v =
      (s.write (mode.address s v) (s.reg r)).goto (s.pc + 2) := by
    cases mode with
    | absolute => rfl
    | indexed =>
      change (s.write (v + s.a) (s.reg r)).goto (s.pc + 2) = _
      rw [Mode.address, State.write, State.write, Nat.mod_mod]
    | indirect => rfl
  have haddress : mode.address s v < 256 := by
    cases mode with
    | absolute => exact hv
    | indexed => exact Nat.mod_lt _ (by decide)
    | indirect => exact hs.read_lt v
  rw [hgroup, write_eq s haddress (hs.registers r)]
  rfl

theorem registerOp_compare (s : State) (r : RegisterIndex) (v : Nat) :
    registerOp s 0b01110 r v = (Op.compare r).outcome s v := by
  have hzero : (s.a == s.reg r) = decide (s.reg r = s.a) := by
    rw [Bool.eq_iff_iff, beq_iff_eq, decide_eq_true_eq, eq_comm]
  change ({ s with zero := s.a == s.reg r, carry := decide (s.reg r < s.a) } : State).goto _ = _
  rw [hzero]
  rfl

theorem registerOp_loadImmediate (s : State) (r : RegisterIndex) {v : Nat} (hv : v < 256) :
    registerOp s 0b01111 r v = (Op.loadImmediate r).outcome s v := by
  change (s.loadReg r v).goto _ = _
  rw [loadReg_eq s r hv]
  rfl

theorem registerOp_push (hs : s.WellFormed) (r : RegisterIndex) (v : Nat) :
    registerOp s 0b10110 r v = (Op.push r).outcome s v := by
  change (s.push (s.reg r)).goto _ = _
  rw [push_eq hs (hs.registers r)]
  rfl

theorem registerOp_pull (s : State) (r : RegisterIndex) (v : Nat) :
    registerOp s 0b10111 r v = (Op.pull r).outcome s v := by
  change (s.pop.2.setReg r s.pop.1).goto _ = _
  rw [pop_eq]
  rfl

/-- The operation has no register. -/
def Op.isControl : Op → Bool
  | .hlt | .nop | .ret | .rti | .sec | .clc | .eni | .dsi | .jump _ | .jumpIndirect | .call
  | .callIndirect => true
  | _ => false

theorem goto_eq (s : State) {address : Nat} (h : address < 256) :
    s.goto address = { s with pc := address } := by
  rw [State.goto, Nat.mod_eq_of_lt h]

theorem control_ret (hs : s.WellFormed) (v : Nat) :
    control s Op.ret.code v = Op.ret.outcome s v := by
  have htop : s.top < 256 := by
    rw [State.top]
    split
    · decide
    · exact hs.read_lt _
  change s.pop.2.goto s.pop.1 = _
  rw [pop_eq]
  exact goto_eq _ htop

theorem control_jump (condition : Condition) {v : Nat} (hv : v < 256) :
    control s (Op.jump condition).code v = (Op.jump condition).outcome s v := by
  have hgoto : control s (Op.jump condition).code v =
      s.goto (if condition.holds s then v else s.pc + 2) := by
    cases condition with
    | always => rfl
    | zero => rfl
    | notZero => cases h : s.zero <;> simp [control, Op.code, Condition.holds, h]
    | carry => rfl
    | noCarry => cases h : s.carry <;> simp [control, Op.code, Condition.holds, h]
  have hmod : (if condition.holds s then v else s.pc + 2) % 256 =
      if condition.holds s then v else (s.pc + 2) % 256 := by
    split
    · exact Nat.mod_eq_of_lt hv
    · rfl
  rw [hgoto, State.goto, hmod]
  rfl

theorem control_callIndirect (hs : s.WellFormed) {v : Nat} (hv : v < 256) :
    control s Op.callIndirect.code v = Op.callIndirect.outcome s v := by
  have hreturn : (s.pc + 2) % 256 < 256 := Nat.mod_lt _ (by decide)
  have htarget : (s.memory.writeAll (s.pushes ((s.pc + 2) % 256))).read v < 256 := by
    simp only [State.pushes, Memory.writeAll, List.foldl_cons, List.foldl_nil, Memory.read_write]
    split_ifs
    · exact Nat.mod_lt _ (by decide)
    · exact hreturn
    · exact hs.memory _
  change (s.push ((s.pc + 2) % 256)).goto ((s.push ((s.pc + 2) % 256)).read v) = _
  rw [push_eq hs hreturn, State.read, Nat.mod_eq_of_lt hv, goto_eq _ htarget]
  rfl

/-- An instruction without register. -/
theorem control_eq (hs : s.WellFormed) {op : Op} (hop : op.isControl = true) {v : Nat}
    (hv : v < 256) : control s op.code v = op.outcome s v := by
  cases op with
  | hlt => rfl
  | nop => rfl
  | ret => exact control_ret hs v
  | rti =>
    have hreturn := control_ret hs v
    change { control s Op.ret.code v with interrupts := true } = _
    rw [hreturn]
    rfl
  | sec => rfl
  | clc => rfl
  | eni => rfl
  | dsi => rfl
  | jump condition => exact control_jump condition hv
  | jumpIndirect => exact goto_eq s (hs.read_lt v)
  | call =>
    change (s.push ((s.pc + 2) % 256)).goto v = _
    rw [push_eq hs (Nat.mod_lt _ (by decide)), goto_eq _ hv]
    rfl
  | callIndirect => exact control_callIndirect hs hv
  | _ => exact Bool.noConfusion hop

/-- The operand of an operation that takes none is not used. -/
theorem Op.effect_of_takesOperand {op : Op} (h : op.takesOperand = false) (s : State)
    (v v' size : Nat) : op.effect s v size = op.effect s v' size := by
  cases op <;> first | rfl | exact Bool.noConfusion h

/-- One step has the effect of the operation whose opcode is at the program counter. -/
theorem step_eq_effect (hs : s.WellFormed) {op : Op} (hop : s.read s.pc = op.code) {v : Nat}
    (hoperand : op.takesOperand = true → s.read (s.pc + 1) = v) :
    step s = op.effect s v op.size := by
  have hbyte : op.effect s v op.size = op.effect s (s.read (s.pc + 1)) op.size := by
    cases h : op.takesOperand with
    | true => rw [hoperand h]
    | false => exact op.effect_of_takesOperand h s _ _ _
  have hstart : State.WellFormed { s with cycle := s.cycle + 1 } :=
    ⟨hs.registers, hs.memory, hs.pc⟩
  have hlt : s.read (s.pc + 1) < 256 := hs.read_lt _
  -- the state of the execution differs by the count of cycles only
  have hcycle : op.outcome { s with cycle := s.cycle + 1 } (s.read (s.pc + 1)) =
      op.effect s (s.read (s.pc + 1)) op.size := by
    cases op <;> rfl
  rw [hbyte, ← hcycle]
  cases op with
  | withA alu r =>
    rw [step_eq_registerOp (by cases alu <;> decide) (by cases alu <;> decide) hop]
    exact registerOp_withA hstart alu r _
  | compare r =>
    rw [step_eq_registerOp (by decide) (by decide) hop]
    exact registerOp_compare _ r _
  | unary f r =>
    rw [step_eq_registerOp (by cases f <;> decide) (by cases f <;> decide) hop]
    exact registerOp_unary hstart f r _
  | loadImmediate r =>
    rw [step_eq_registerOp (by decide) (by decide) hop]
    exact registerOp_loadImmediate _ r hlt
  | load r mode =>
    rw [step_eq_registerOp (by cases mode <;> decide) (by cases mode <;> decide) hop]
    exact registerOp_load hstart r mode _
  | store r mode =>
    rw [step_eq_registerOp (by cases mode <;> decide) (by cases mode <;> decide) hop]
    exact registerOp_store hstart r mode hlt
  | push r =>
    rw [step_eq_registerOp (by decide) (by decide) hop]
    exact registerOp_push hstart r _
  | pull r =>
    rw [step_eq_registerOp (by decide) (by decide) hop]
    exact registerOp_pull _ r _
  | move destination r =>
    rw [step_eq_move hop, loadReg_eq _ destination (hstart.registers r)]
    rfl
  | jump condition =>
    rw [← control_eq hstart rfl hlt]
    exact step_eq_control (by cases condition <;> decide) hop
  | _ =>
    rw [← control_eq hstart rfl hlt]
    exact step_eq_control (by decide) hop

end Instructions

end PocketAsm.V8

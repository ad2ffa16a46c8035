/-
  Proofs/Bitzzy/Execution.lean --- one step of the machine has the effect of its operation.

  The machine executes an operation by moving through intermediate states; the
  effect of the operation says what is observed at the end.  The two agree in
  every well-formed state (`execute_eq`), where the operands are those that lie
  behind the opcode.
-/
import PocketAsm.Proofs.Bitzzy.Meaning

set_option autoImplicit false

namespace PocketAsm.Bitzzy

/-! ## Operands -/

namespace Op

/-- The operation has an address operand. -/
def takesAddress : Op → Bool
  | .jmp _ | .jsr _ | .ifZero _ _ | .ifGreater _ | .ifEqual _ _ _ | .ifRemainder _ | .djnz _
  | .load _ _ | .store _ _ | .storeImmediate _ | .incMemory | .decMemory => true
  | _ => false

/-- The operation has immediate data. -/
def takesImmediate : Op → Bool
  | .loadImmediate _ | .aluImmediate _ _ | .storeImmediate _ => true
  | _ => false

/-- The number of bytes of an instruction. -/
def size (op : Op) : Nat :=
  1 + (if op.takesAddress then 2 else 0) + if op.takesImmediate then 1 else 0

end Op

/-! ## Arithmetic -/

theorem withCarry_add (x y : Nat) :
    withCarry ((x : Int) + y) = ((x + y) % 256, if x + y < 256 then 0 else 1) := by
  simp only [withCarry, Prod.mk.injEq]
  refine ⟨by omega, ?_⟩
  split <;> split <;> omega

theorem withCarry_sub {x y : Nat} (hx : x < 256) (hy : y < 256) :
    withCarry ((x : Int) - y) = ((x + 256 - y) % 256, if y ≤ x then 0 else 1) := by
  simp only [withCarry, Prod.mk.injEq]
  refine ⟨by omega, ?_⟩
  split <;> split <;> omega

theorem withCarry_mul (x y : Nat) :
    withCarry ((x : Int) * y) = (x * y % 256, if x * y < 256 then 0 else 1) := by
  have h := withCarry_add (x * y) 0
  simpa using h

theorem withCarry_succ {x : Nat} (hx : x < 256) :
    withCarry ((x : Int) + 1) = ((x + 1) % 256, if x = 255 then 1 else 0) := by
  simp only [withCarry, Prod.mk.injEq]
  refine ⟨by omega, ?_⟩
  split <;> split <;> omega

theorem withCarry_pred {x : Nat} (hx : x < 256) :
    withCarry ((x : Int) - 1) = ((x + 255) % 256, if x = 0 then 1 else 0) := by
  simp only [withCarry, Prod.mk.injEq]
  refine ⟨by omega, ?_⟩
  split <;> split <;> omega

theorem withCarry_double (x : Nat) :
    withCarry ((x : Int) * 2) = (2 * x % 256, if x < 128 then 0 else 1) := by
  simp only [withCarry, Prod.mk.injEq]
  refine ⟨by omega, ?_⟩
  split <;> split <;> omega

/-- The operations give their results and remainders. -/
theorem alu_eq (op : Alu) {x y : Nat} (hx : x < 256) (hy : y < 256) (before : Nat) :
    alu op x y before = (op.result x y, op.remainder x y before) := by
  cases op with
  | add => exact withCarry_add x y
  | sub => exact withCarry_sub hx hy
  | mul => exact withCarry_mul x y
  | div => by_cases h : y = 0 <;> simp [alu, Alu.result, Alu.remainder, h]
  | mod => by_cases h : y = 0 <;> simp [alu, Alu.result, Alu.remainder, h]
  | and => rfl
  | or => rfl
  | xor => rfl

/-! ## Control -/

@[simp] theorem index_eq_value (s : State) (index : Index) : s.index index = index.value s := by
  cases index with
  | none => rfl
  | reg r => rfl
  | yx => simp [State.index, State.yx, Index.value, Nat.mul_comm]

/-- A call leaves the address of the next instruction on the stack. -/
theorem push_eq {s : State} (hsp : s.sp < 65536) (target : Nat) :
    s.push (s.pc + 3) = { s with
      memory := s.memory.writeAll ((Flow.call target).stores s 3),
      sp := (Flow.call target).sp s } := by
  have hhigh : (((s.pc : Int) + 3) / 256 % 256).toNat % 256 = (s.pc + 3) % 65536 / 256 := by omega
  have hlow : (((s.pc : Int) + 3) % 256).toNat % 256 = (s.pc + 3) % 65536 % 256 := by omega
  have hone : s.sp + 65536 - 1 = s.sp + 65535 := by omega
  have htwo : s.sp + 65536 - 2 = s.sp + 65534 := by omega
  simp only [State.push, State.write, Memory.writeAll, Flow.stores, Flow.sp, List.foldl_cons,
    List.foldl_nil, hhigh, hlow, hone, htwo, Nat.mod_eq_of_lt hsp]

/-- A return takes the return address off the stack. -/
theorem pop_eq (s : State) :
    s.pop = (s.returnAddress, { s with sp := (Flow.back).sp s }) := by
  have hlow : ((s.sp + 2) % 65536 + 65535) % 65536 = (s.sp + 1) % 65536 := by omega
  simp [State.pop, State.read, State.returnAddress, State.byte, Flow.sp, hlow, Nat.mul_comm]

/-- A jump or call on a condition. -/
theorem branch_eq {s : State} (hsp : s.sp < 65536) (taken call : Bool) {a : Nat} (ha : a < 65536) :
    s.branch taken a call =
      { s with
        memory := s.memory.writeAll ((Flow.onlyIf taken call a).stores s 3),
        sp := (Flow.onlyIf taken call a).sp s,
        pc := (Flow.onlyIf taken call a).pc s 3 } := by
  cases taken with
  | false => rfl
  | true =>
    cases call with
    | false => simp [State.branch, State.goto, Flow.onlyIf, Flow.stores, Flow.sp, Flow.pc,
        Memory.writeAll, Nat.mod_eq_of_lt ha]
    | true => simp [State.branch, State.goto, Flow.onlyIf, push_eq hsp a, Flow.pc,
        Nat.mod_eq_of_lt ha]

/-! ## Execution -/

namespace State.WellFormed

variable {s : State}

theorem byte_lt (hs : s.WellFormed) (address : Nat) : s.byte address < 256 := hs.memory _

theorem returnAddress_lt (hs : s.WellFormed) : s.returnAddress < 65536 := by
  have hhigh := hs.byte_lt (s.sp + 2)
  have hlow := hs.byte_lt (s.sp + 1)
  rw [State.returnAddress]
  omega

/-- Returning is going back. -/
theorem goto_pop (hs : s.WellFormed) :
    s.pop.2.goto s.pop.1 = { s with sp := (Flow.back).sp s, pc := (Flow.back).pc s 1 } := by
  rw [pop_eq]
  simp [State.goto, Flow.pc, Nat.mod_eq_of_lt hs.returnAddress_lt]

end State.WellFormed

theorem remainderIs_eq (s : State) (zero : Bool) :
    ((s.remainder == 0) == zero) = s.remainderIs zero := by
  cases zero <;> by_cases h : s.remainder = 0 <;> simp [State.remainderIs, h]

/-- The condition of a loop is the one before the register is counted down. -/
theorem countdown_condition {x : Nat} (hx : x < 256) :
    ((x + 255) % 256 != 0) = decide (x ≠ 1) := by
  rw [Bool.eq_iff_iff, bne_iff_ne, decide_eq_true_iff]
  omega

/-- A byte is stored as it is. -/
theorem write_eq {s : State} {value : Nat} (hvalue : value < 256) (address : Nat) :
    s.write address value =
      { s with memory := s.memory.write (address % 65536 : Nat) value } := by
  rw [State.write, Nat.mod_eq_of_lt hvalue]

/-- The machine has the effect of the operation.  A store finds its immediate data behind the
address, the other instructions behind the opcode; what an operation does not take does not
matter. -/
theorem execute_eq {s : State} (hs : s.WellFormed) (op : Op) (address immediate : Nat)
    {a i : Nat} (ha : a < 65536) (hi : i < 256) (haddress : op.takesAddress = true → a = address)
    (himmediate : op.takesImmediate = true →
      (if op.takesAddress then s.read (s.pc + 3) else immediate) = i) :
    execute s address immediate op = { op.effect s a i op.size with cycle := s.cycle } := by
  cases op with
  | hlt => rfl
  | ret => exact hs.goto_pop
  | rti => exact congrArg (fun s : State => { s with interrupts := true }) hs.goto_pop
  | eni => rfl
  | dsi => rfl
  | nop => rfl
  | clr => rfl
  | rem r => rfl
  | jmp index =>
    obtain rfl := haddress rfl
    rw [execute, index_eq_value]
    rfl
  | jsr index =>
    obtain rfl := haddress rfl
    rw [execute, index_eq_value, push_eq hs.sp (index.address s a)]
    rfl
  | ifZero r call =>
    obtain rfl := haddress rfl
    exact branch_eq hs.sp (s.reg r = 0) call ha
  | ifGreater call =>
    obtain rfl := haddress rfl
    exact branch_eq hs.sp (s.reg .y < s.reg .x) call ha
  | ifEqual r r' call =>
    obtain rfl := haddress rfl
    exact branch_eq hs.sp (s.reg r = s.reg r') call ha
  | ifRemainder zero =>
    obtain rfl := haddress rfl
    rw [execute, remainderIs_eq]
    exact branch_eq hs.sp (s.remainderIs zero) false ha
  | retRemainder zero =>
    rw [execute, remainderIs_eq]
    by_cases h : s.remainderIs zero = true
    · have hflow : (Op.retRemainder zero).flow s a = .back := if_pos h
      rw [if_pos h, Op.effect, hflow]
      exact hs.goto_pop
    · have hflow : (Op.retRemainder zero).flow s a = .next := if_neg h
      rw [if_neg h, Op.effect, hflow]
      rfl
  | djnz r =>
    obtain rfl := haddress rfl
    rw [execute]
    dsimp only
    rw [countdown_condition (hs.registers r)]
    exact branch_eq (s := s.setReg r ((s.reg r + 255) % 256)) hs.sp (s.reg r ≠ 1) false ha
  | swp r r' => rfl
  | loadImmediate r =>
    obtain rfl := himmediate rfl
    rfl
  | move destination r => rfl
  | load r index =>
    obtain rfl := haddress rfl
    rw [execute, index_eq_value]
    rfl
  | store r index =>
    obtain rfl := haddress rfl
    rw [execute, index_eq_value, write_eq (hs.registers r)]
    rfl
  | storeImmediate index =>
    obtain rfl := haddress rfl
    have himmediate : s.read (s.pc + 3) = i := himmediate rfl
    rw [execute, index_eq_value, himmediate, write_eq hi]
    rfl
  | inc r =>
    rw [execute, withCarry_succ (hs.registers r)]
    rfl
  | dec r =>
    rw [execute, withCarry_pred (hs.registers r)]
    rfl
  | incMemory =>
    obtain rfl := haddress rfl
    have hbyte : s.read a < 256 := hs.byte_lt a
    rw [execute, withCarry_succ hbyte]
    dsimp only
    rw [write_eq (Nat.mod_lt _ (by decide)), Nat.mod_eq_of_lt ha]
    rfl
  | decMemory =>
    obtain rfl := haddress rfl
    have hbyte : s.read a < 256 := hs.byte_lt a
    rw [execute, withCarry_pred hbyte]
    dsimp only
    rw [write_eq (Nat.mod_lt _ (by decide)), Nat.mod_eq_of_lt ha]
    rfl
  | lsl r =>
    rw [execute, withCarry_double]
    rfl
  | lsr r => rfl
  | not r => rfl
  | aluImmediate op r =>
    have himmediate : immediate = i := himmediate rfl
    rw [execute, himmediate, alu_eq op (hs.registers r) hi]
    rfl
  | aluRegisters op r r' =>
    rw [execute, alu_eq op (hs.registers r) (hs.registers r')]
    rfl

/-- One step has the effect of the operation whose opcode is at the program counter. -/
theorem step_eq_effect {s : State} (hs : s.WellFormed) {op : Op}
    (hop : decode? (s.byte s.pc) = some op) {a i : Nat} (ha : a < 65536) (hi : i < 256)
    (haddress : op.takesAddress = true → 256 * s.byte (s.pc + 1) + s.byte (s.pc + 2) = a)
    (himmediate : op.takesImmediate = true →
      s.byte (s.pc + if op.takesAddress then 3 else 1) = i) :
    step s = .ok (op.effect s a i op.size) := by
  have hstart : State.WellFormed { s with cycle := s.cycle + 1 } :=
    ⟨hs.registers, hs.memory, hs.remainder, hs.sp, hs.pc⟩
  have hexecute := execute_eq hstart op (s.readWord (s.pc + 1)) (s.read (s.pc + 1)) ha hi ?_ ?_
  · have hread : decode? (s.read s.pc) = some op := hop
    rw [step, hread]
    refine congrArg Except.ok (hexecute.trans ?_)
    cases op <;> rfl
  · intro h
    rw [← haddress h, State.readWord, Nat.mul_comm]
    rfl
  · intro h
    rw [← himmediate h]
    split <;> rfl

end PocketAsm.Bitzzy

/-
  Proofs/Bitzzy/Ranges.lean --- the Bitzzy stays within its bytes and addresses.

  Registers and stored words are bytes at reset, addresses have sixteen bits
  and the remainder has one, and each instruction keeps them so (`InRange`).
  Moves, loads and logic store what they are given, so they rely on it; the
  others reduce what they store.
-/
import PocketAsm.Isa.Bitzzy.Machine
import PocketAsm.Proofs.Stepping

set_option autoImplicit false

namespace PocketAsm.Bitzzy

/-! ## States -/

/-- Registers and stored words are bytes, addresses have sixteen bits, and the remainder has one. -/
structure State.InRange (s : State) : Prop where
  registers : ∀ r, s.reg r < 256
  memory : ∀ entry ∈ s.memory.toList, 0 ≤ entry.1 ∧ entry.1 < 65536 ∧ entry.2 < 256
  remainder : s.remainder ≤ 1
  sp : s.sp < 65536
  pc : s.pc < 65536

theorem Registers.get_set (regs : Registers) (r q : Reg) (value : Nat) :
    (regs.set r value).get q = if r = q then value else regs.get q := by
  cases r <;> cases q <;> rfl

namespace State.InRange

variable {s : State}

theorem read_lt (h : s.InRange) (address : Nat) : s.read address < 256 :=
  Memory.read_lt (by decide) (fun entry hentry => (h.memory entry hentry).2.2) _

/-- The register pair is an address. -/
theorem yx_lt (h : s.InRange) : s.yx < 65536 := by
  have hx := h.registers .x
  have hy := h.registers .y
  rw [State.yx]
  omega

theorem withCycle (h : s.InRange) (cycle : Nat) : State.InRange { s with cycle := cycle } :=
  ⟨h.registers, h.memory, h.remainder, h.sp, h.pc⟩

theorem withInterrupts (h : s.InRange) (interrupts : Bool) :
    State.InRange { s with interrupts := interrupts } :=
  ⟨h.registers, h.memory, h.remainder, h.sp, h.pc⟩

theorem withRemainder (h : s.InRange) {remainder : Nat} (hremainder : remainder ≤ 1) :
    State.InRange { s with remainder := remainder } :=
  ⟨h.registers, h.memory, hremainder, h.sp, h.pc⟩

theorem withSp (h : s.InRange) (sp : Nat) : State.InRange { s with sp := sp % 65536 } :=
  ⟨h.registers, h.memory, h.remainder, Nat.mod_lt _ (by decide), h.pc⟩

theorem goto (h : s.InRange) (address : Nat) : (s.goto address).InRange :=
  ⟨h.registers, h.memory, h.remainder, h.sp, Nat.mod_lt _ (by decide)⟩

theorem write (h : s.InRange) (address value : Nat) : (s.write address value).InRange := by
  have haddress : address % 65536 < 65536 := Nat.mod_lt address (by decide)
  have hvalue : value % 256 < 256 := Nat.mod_lt value (by decide)
  refine ⟨h.registers, Memory.forall_write h.memory ⟨?_, ?_, hvalue⟩, h.remainder, h.sp, h.pc⟩
  · exact Int.natCast_nonneg _
  · exact Int.ofNat_lt.mpr haddress

theorem setReg (h : s.InRange) (r : Reg) {value : Nat} (hvalue : value < 256) :
    (s.setReg r value).InRange := by
  refine ⟨fun q => ?_, h.memory, h.remainder, h.sp, h.pc⟩
  rw [State.reg, State.setReg, Registers.get_set]
  split
  · exact hvalue
  · exact h.registers q

theorem push (h : s.InRange) (value : Int) : (s.push value).InRange :=
  ((h.write _ _).write _ _).withSp _

theorem pop (h : s.InRange) : s.pop.2.InRange := h.withSp _

theorem store (h : s.InRange) (r : Reg) {result : Nat × Nat}
    (hresult : result.1 < 256 ∧ result.2 ≤ 1) : (s.store r result).InRange :=
  (h.setReg r hresult.1).withRemainder hresult.2

theorem branch (h : s.InRange) (taken : Bool) (address : Nat) (call : Bool) :
    (s.branch taken address call).InRange := by
  unfold State.branch
  split
  · split
    · exact (h.push _).goto _
    · exact h.goto _
  · exact h.goto _

end State.InRange

/-! ## Arithmetic -/

theorem withCarry_inRange (result : Int) :
    (withCarry result).1 < 256 ∧ (withCarry result).2 ≤ 1 := by
  unfold withCarry
  constructor
  · dsimp only
    omega
  · dsimp only
    split <;> omega

/-- An operation on bytes gives a byte; logic keeps the remainder. -/
theorem alu_inRange (op : Alu) {a b remainder : Nat} (ha : a < 256) (hb : b < 256)
    (hremainder : remainder ≤ 1) :
    (alu op a b remainder).1 < 256 ∧ (alu op a b remainder).2 ≤ 1 := by
  cases op with
  | add | sub | mul => exact withCarry_inRange _
  | div =>
    simp only [alu]
    split
    · decide
    · exact ⟨(Nat.div_le_self a b).trans_lt ha, Nat.zero_le 1⟩
  | mod =>
    simp only [alu]
    split
    · decide
    · exact ⟨(Nat.mod_le a b).trans_lt ha, Nat.zero_le 1⟩
  | and => exact ⟨Nat.and_lt_two_pow (n := 8) a hb, hremainder⟩
  | or => exact ⟨Nat.or_lt_two_pow (n := 8) ha hb, hremainder⟩
  | xor => exact ⟨Nat.xor_lt_two_pow (n := 8) ha hb, hremainder⟩

/-! ## Instructions -/

variable {s : State}

theorem inRange_execute (h : s.InRange) (address : Nat) {immediate : Nat}
    (himmediate : immediate < 256)
    (op : Op) : (execute s address immediate op).InRange := by
  have hreg := h.registers
  cases op with
  | hlt => exact h
  | nop | jmp => exact h.goto _
  | ret => exact h.pop.goto _
  | rti => exact (h.pop.goto _).withInterrupts _
  | eni | dsi => exact (h.goto _).withInterrupts _
  | rem r => exact (h.setReg r (h.remainder.trans_lt (by decide))).goto _
  | clr => exact (h.goto _).withRemainder (Nat.zero_le 1)
  | jsr => exact (h.push _).goto _
  | ifZero | ifGreater | ifEqual | ifRemainder => exact h.branch _ _ _
  | retRemainder =>
    simp only [execute]
    split
    · exact h.pop.goto _
    · exact h.goto _
  | djnz r => exact (h.setReg r (Nat.mod_lt _ (by decide))).branch _ _ _
  | swp a b => exact ((h.setReg a (hreg b)).setReg b (hreg a)).goto _
  | loadImmediate r => exact (h.setReg r himmediate).goto _
  | move d r => exact (h.setReg d (hreg r)).goto _
  | load r => exact (h.setReg r (h.read_lt _)).goto _
  | store | storeImmediate => exact (h.write _ _).goto _
  | inc | dec | lsl => exact (h.store _ (withCarry_inRange _)).goto _
  | incMemory | decMemory =>
    exact ((h.write _ _).goto _).withRemainder (withCarry_inRange _).2
  | lsr r =>
    have hr := hreg r
    exact (h.store r ⟨by omega, by omega⟩).goto _
  | not r => exact (h.setReg r (by omega)).goto _
  | aluImmediate op r => exact (h.store r (alu_inRange op (hreg r) himmediate h.remainder)).goto _
  | aluRegisters op a b => exact (h.store _ (alu_inRange op (hreg a) (hreg b) h.remainder)).goto _

theorem cycle_branch (s : State) (taken : Bool) (address : Nat) (call : Bool) :
    (s.branch taken address call).cycle = s.cycle := by
  unfold State.branch
  split
  · split <;> rfl
  · rfl

/-- Instructions do not count themselves. -/
theorem cycle_execute (s : State) (address immediate : Nat) (op : Op) :
    (execute s address immediate op).cycle = s.cycle := by
  cases op
  case ifZero | ifGreater | ifEqual | ifRemainder | djnz => exact cycle_branch _ _ _ _
  case retRemainder =>
    simp only [execute]
    split <;> rfl
  all_goals rfl

/-- A step executes the instruction at the program counter. -/
theorem step_eq_ok {t : State} (h : step s = .ok t) :
    ∃ op, decode? (s.read s.pc) = some op ∧
      t = execute { s with cycle := s.cycle + 1 } (s.readWord (s.pc + 1)) (s.read (s.pc + 1)) op := by
  simp only [step] at h
  split at h
  · cases h
  · rename_i op hop
    exact ⟨op, hop, (Except.ok.inj h).symm⟩

theorem inRange_step {t : State} (h : s.InRange) (hstep : step s = .ok t) :
    t.InRange ∧ t.cycle = s.cycle + 1 := by
  obtain ⟨op, -, rfl⟩ := step_eq_ok hstep
  exact ⟨inRange_execute (h.withCycle _) _ (h.read_lt _) op, cycle_execute _ _ _ op⟩

/-- A step fails exactly where no instruction has the byte at the program counter as its opcode. -/
theorem step_eq_error {fault : MachineFault} :
    step s = .error fault ↔
      decode? (s.read s.pc) = none ∧ fault = .unknownOpcode (s.read s.pc) s.pc := by
  simp only [step]
  cases decode? (s.read s.pc) with
  | none => simp [eq_comm]
  | some op => simp

/-! ## Reset -/

theorem inRange_load (words : List (Int × Int)) : (load words).InRange := by
  have hmemory : ∀ entry ∈ (load words).memory.toList,
      0 ≤ entry.1 ∧ entry.1 < 65536 ∧ entry.2 < 256 := by
    refine Memory.forall_writeAll_empty (List.forall_mem_map.mpr ?_)
    rintro ⟨address, value⟩ -
    dsimp only
    omega
  have hregisters : ∀ r, Registers.get ⟨0, 0, 0⟩ r < 256 := by
    rintro (_ | _ | _) <;> decide
  exact ⟨hregisters, hmemory, Nat.zero_le 1, (by decide : 0xFFFF < 65536), (by decide : 0 < 65536)⟩

/-- After loading any words and executing any number of instructions the state is in range, and it
has counted the instructions. -/
theorem inRange_after_load {words : List (Int × Int)} {n : Nat} {s : State}
    (h : Machine.after n (Machine.load words) = .ok s) : s.InRange ∧ s.cycle = n := by
  have hload : (load words).InRange ∧ (load words).cycle = 0 := ⟨inRange_load words, rfl⟩
  have := Machine.after_induction (P := fun k (s : State) => s.InRange ∧ s.cycle = k) ?_ hload h
  · rwa [Nat.zero_add] at this
  · rintro k s t ⟨hs, rfl⟩ hstep
    exact inRange_step hs hstep

end PocketAsm.Bitzzy

/-
  Proofs/V8/Ranges.lean --- the V8 stays within its eight bits.

  Registers, stored bytes and the program counter are bytes at reset, and each
  way of changing a state keeps them so (`InRange`).  Most ways reduce what they
  store; a value that is taken off the stack, and one that is shifted to the
  right, are bytes because they come from a state that is in range.
-/
import PocketAsm.Isa.V8.Machine
import PocketAsm.Proofs.Stepping

set_option autoImplicit false

namespace PocketAsm.V8

/-! ## States -/

/-- Registers, stored words and the program counter are bytes, and words are stored at bytes only. -/
structure State.InRange (s : State) : Prop where
  registers : ∀ r, s.reg r < 256
  memory : ∀ entry ∈ s.memory.toList, 0 ≤ entry.1 ∧ entry.1 < 256 ∧ entry.2 < 256
  pc : s.pc < 256

namespace State.InRange

variable {s : State}

theorem read_lt (h : s.InRange) (address : Nat) : s.read address < 256 :=
  Memory.read_lt (by decide) (fun entry hentry => (h.memory entry hentry).2.2) _

/-- Flags and the count of cycles are free. -/
theorem withFlags (h : s.InRange) (cycle : Nat) (carry zero interrupts : Bool) :
    State.InRange ⟨s.memory, s.registers, s.pc, cycle, carry, zero, interrupts⟩ :=
  ⟨h.registers, h.memory, h.pc⟩

theorem goto (h : s.InRange) (address : Nat) : (s.goto address).InRange :=
  ⟨h.registers, h.memory, Nat.mod_lt _ (by decide)⟩

theorem write (h : s.InRange) (address value : Nat) : (s.write address value).InRange := by
  have haddress : address % 256 < 256 := Nat.mod_lt address (by decide)
  have hvalue : value % 256 < 256 := Nat.mod_lt value (by decide)
  refine ⟨h.registers, Memory.forall_write h.memory ⟨?_, ?_, hvalue⟩, h.pc⟩
  · exact Int.natCast_nonneg _
  · exact Int.ofNat_lt.mpr haddress

theorem setReg (h : s.InRange) (r : RegisterIndex) {value : Nat} (hvalue : value < 256) :
    (s.setReg r value).InRange := by
  refine ⟨fun q => ?_, h.memory, h.pc⟩
  rw [State.reg, State.setReg, RegisterFile.get_set]
  split
  · exact hvalue
  · exact h.registers q

theorem push (h : s.InRange) (value : Nat) : (s.push value).InRange := (h.write _ _).write _ _

theorem pop (h : s.InRange) : s.pop.2.InRange := h.write _ _

theorem pop_lt (h : s.InRange) : s.pop.1 < 256 := h.pop.read_lt _

theorem alu (h : s.InRange) (target : RegisterIndex) (result : Int) :
    (s.alu target result).InRange :=
  (h.setReg target (by omega : (result % 256).toNat < 256)).withFlags _ _ _ _

theorem loadReg (h : s.InRange) (target : RegisterIndex) (value : Nat) :
    (s.loadReg target value).InRange :=
  (h.setReg target (Nat.mod_lt value (by decide))).withFlags _ _ _ _

end State.InRange

/-! ## Instructions -/

variable {s : State}

theorem inRange_control (h : s.InRange) (opcode immediate : Nat) :
    (control s opcode immediate).InRange := by
  unfold control
  split
  case h_1 | h_17 => exact h
  case h_9 | h_10 => exact (h.push _).goto _
  case h_11 => exact h.pop.goto _
  case h_12 => exact (h.pop.goto _).withFlags _ _ _ _
  case h_13 | h_14 | h_15 | h_16 => exact (h.goto _).withFlags _ _ _ _
  all_goals exact h.goto _

theorem inRange_registerOp (h : s.InRange) (group : Nat) (r : RegisterIndex) (immediate : Nat) :
    (registerOp s group r immediate).InRange := by
  have hvalue := h.registers r
  unfold registerOp
  split
  case h_10 =>
    have hcarry := s.carry.toNat_le
    exact ((h.setReg r (by omega)).withFlags _ _ _ _).goto _
  case h_12 => exact ((h.alu _ _).withFlags _ _ _ _).goto _
  case h_13 => exact (h.withFlags _ _ _ _).goto _
  case h_14 | h_16 | h_18 | h_20 => exact (h.loadReg _ _).goto _
  case h_15 | h_17 | h_19 => exact (h.write _ _).goto _
  case h_21 => exact (h.push _).goto _
  case h_22 => exact (h.pop.setReg r h.pop_lt).goto _
  case h_23 => exact h.goto _
  all_goals exact (h.alu _ _).goto _

theorem inRange_step (h : s.InRange) : (step s).InRange := by
  have hcycle := h.withFlags (s.cycle + 1) s.carry s.zero s.interrupts
  simp only [step]
  split
  · exact inRange_control hcycle _ _
  · split
    · exact (hcycle.loadReg _ _).goto _
    · exact inRange_registerOp hcycle _ _ _

/-! ## Reset -/

theorem inRange_load (words : List (Int × Int)) : (load words).InRange := by
  have hbytes : ∀ entry ∈ (Memory.empty.writeAll ((lastWords words).map fun word =>
      (word.1 % 256, (word.2 % 256).toNat))).toList,
      0 ≤ entry.1 ∧ entry.1 < 256 ∧ entry.2 < 256 := by
    refine Memory.forall_writeAll_empty (List.forall_mem_map.mpr fun word _ => ?_)
    omega
  have hmemory := Memory.forall_write hbytes
    (a := (State.stackPointerAddress : Nat)) (v := 0x7E) (by decide)
  refine ⟨fun r => ?_, hmemory, ?_⟩
  · have hcleared : ∀ r, RegisterFile.cleared.get r < 256 := by decide
    exact hcleared r
  · exact Memory.read_lt (by decide) (fun entry hentry => (hmemory entry hentry).2.2) _

/-- After loading any words and executing any number of instructions, none of which fails, the state
is in range. -/
theorem exists_after_load (words : List (Int × Int)) (n : Nat) :
    ∃ s : State, Machine.after n (Machine.load words) = .ok s ∧ s.InRange :=
  Machine.exists_after (fun s h => ⟨step s, rfl, inRange_step h⟩) n (inRange_load words)

end PocketAsm.V8

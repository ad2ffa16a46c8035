/-
  Proofs/Parva/Ranges.lean --- the Parva stays within its words.

  Everything that an instruction sets is reduced to a word, the program counter
  and the count of cycles too; only a store writes what it finds, and that is a
  register.  The pixels of the display keep their number whatever is drawn.
-/
import PocketAsm.Isa.Parva.Machine
import PocketAsm.Proofs.Stepping

set_option autoImplicit false

namespace PocketAsm.Parva

/-! ## Screens -/

/-- A screen has its rows, and each row its pixels. -/
theorem Screen.rows_shape (screen : Screen) :
    screen.rows.length = screenHeight ∧ ∀ row ∈ screen.rows, row.length = screenWidth :=
  Bits.pieces_whole (by decide) (n := screenHeight) screen.pixels.length_toList

/-! ## States -/

/-- A value that is reduced to a word is one. -/
theorem toNat_emod_lt (value : Int) : (value % wordCount).toNat < wordCount :=
  (Int.toNat_lt_of_ne_zero (by decide)).mpr (Int.emod_lt_of_pos value (by decide))

/-- Registers, stored words and both counters have 24 bits. -/
structure State.InRange (s : State) : Prop where
  registers : ∀ r, s.reg r < wordCount
  memory : ∀ entry ∈ s.memory.toList, entry.2 < wordCount
  pc : s.pc < wordCount
  cycle : s.cycle < wordCount

namespace State.InRange

variable {s : State}

theorem setReg (h : s.InRange) (r : RegisterIndex) (value : Int) : (s.setReg r value).InRange := by
  refine ⟨fun q => ?_, h.memory, h.pc, h.cycle⟩
  rw [State.reg, State.setReg, RegisterFile.get_set]
  split
  · exact toNat_emod_lt value
  · exact h.registers q

theorem write (h : s.InRange) (address : Int) {value : Nat} (hvalue : value < wordCount) :
    State.InRange { s with memory := s.memory.write address value } :=
  ⟨h.registers, Memory.forall_write h.memory hvalue, h.pc, h.cycle⟩

theorem device (h : s.InRange) (address first second : Nat) :
    (device s address first second).InRange := by
  unfold Parva.device
  split
  · exact ⟨h.registers, h.memory, h.pc, h.cycle⟩
  · exact h

end State.InRange

/-! ## Instructions -/

variable {s : State}

theorem inRange_computation (h : s.InRange) (f : Fields) : (computation s f).InRange := by
  unfold computation
  split <;> exact h.setReg _ _

theorem inRange_transfer (h : s.InRange) (f : Fields) : (transfer s f).InRange := by
  unfold transfer
  extract_lets offset address double store first second memory s'
  split
  · exact h.device _ _ _
  · split
    · cases double with
      | true => exact (h.write address (h.registers _)).write _ (h.registers _)
      | false => exact h.write address (h.registers _)
    · cases double with
      | true => exact (h.setReg _ _).setReg _ _
      | false => exact h.setReg _ _

theorem inRange_step (h : s.InRange) : (step s).InRange := by
  have hcounted {t : State} (ht : t.InRange) (next : Int) : State.InRange
      { t with pc := (next % wordCount).toNat, cycle := (s.cycle + 1) % wordCount } :=
    ⟨ht.registers, ht.memory, toNat_emod_lt next, Nat.mod_lt _ (by decide)⟩
  simp only [step]
  split
  · exact hcounted (inRange_computation h _) _
  · split
    · exact hcounted (inRange_transfer h _) _
    · exact hcounted h _

/-! ## Reset -/

theorem inRange_load (words : List (Int × Int)) : (load words).InRange := by
  have hmemory : ∀ entry ∈ (load words).memory.toList, entry.2 < wordCount := by
    refine Memory.forall_writeAll_empty (List.forall_mem_map.mpr ?_)
    rintro ⟨address, value⟩ -
    exact toNat_emod_lt value
  have hregisters : ∀ r, RegisterFile.cleared.get r < wordCount := by decide
  exact ⟨hregisters, hmemory, (by decide : 0 < wordCount), (by decide : 0 < wordCount)⟩

/-- After loading any words and executing any number of instructions, none of which fails, the state
is in range. -/
theorem exists_after_load (words : List (Int × Int)) (n : Nat) :
    ∃ s : State, Machine.after n (Machine.load words) = .ok s ∧ s.InRange :=
  Machine.exists_after (fun s h => ⟨step s, rfl, inRange_step h⟩) n (inRange_load words)

end PocketAsm.Parva

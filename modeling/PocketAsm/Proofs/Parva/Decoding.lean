/-
  Proofs/Parva/Decoding.lean --- how the machine reads the word of an instruction.

  Every instruction has the same layout: five bits that tell what it does, four
  bits for a register, three for another one, and twelve bits for a number or a
  third register.  The assembler puts these together (`toNat_layout`), the
  machine takes them apart (`Fields`), and the three classes of instructions
  are told by the top bits (`step_computation`, `step_transfer`,
  `step_branch`).
-/
import PocketAsm.Proofs.Parva.Operands

set_option autoImplicit false

namespace PocketAsm.Parva

/-- The number of an instruction, by its five top bits, its two registers and its low bits. -/
def layout (top a d low : Nat) : Nat := ((top * 16 + a) * 8 + d) * 4096 + low

/-- The bits of an instruction make the number of its layout. -/
theorem toNat_layout {top a d low : Bits} (ha : a.length = 4) (hd : d.length = 3)
    (hlow : low.length = 12) :
    Bits.toNat (top ++ (a ++ (d ++ low))) =
      layout (Bits.toNat top) (Bits.toNat a) (Bits.toNat d) (Bits.toNat low) := by
  simp only [Bits.toNat_append, List.length_append, ha, hd, hlow, layout, Bits.span]
  norm_num
  ring

/-- The fields of an instruction make the number of its layout. -/
theorem layout_of_encodes {p : Program} {symbols : Symbols} {top bits : Bits}
    {first second : Except Fault Bits} {fields : List Field}
    (h : dialect.Encodes p symbols (.bits top :: .register first :: .register second :: fields)
      bits) :
    ∃ a d low, first = .ok a ∧ second = .ok d ∧ dialect.Encodes p symbols fields low ∧
      (a.length = 4 → d.length = 3 → low.length = 12 →
        Bits.toNat bits =
          layout (Bits.toNat top) (Bits.toNat a) (Bits.toNat d) (Bits.toNat low)) := by
  obtain ⟨top', rest₁, rfl, htop, a, rest₂, rfl, ha, d, low, rfl, hd, hlow⟩ := h
  obtain rfl := Dialect.encodesField_bits.mp htop
  exact ⟨a, d, low, Dialect.encodesField_register.mp ha, Dialect.encodesField_register.mp hd, hlow,
    toNat_layout⟩

/-- A register in the low bits is followed by unused ones. -/
theorem toNat_unused (b : Bits) :
    Bits.toNat (b ++ List.replicate 9 false) = Bits.toNat b * 512 := by
  have hspan : Bits.span 9 = 512 := by decide
  rw [Bits.toNat_append, Bits.toNat_replicate_false, List.length_replicate, hspan, Nat.add_zero]

/-! ## Fields of a layout -/

section Fields

variable {top a d low : Nat}

theorem Fields.immediate_layout (hlow : low < 4096) :
    (Fields.mk (layout top a d low)).immediate = low := by
  simp only [Fields.immediate, layout]
  omega

theorem Fields.signedImmediate_layout (hlow : low < 4096) :
    (Fields.mk (layout top a d low)).signedImmediate = Bits.signExtend low 12 := by
  rw [Fields.signedImmediate, Fields.immediate_layout hlow]

/-- The bits from the nineteenth on are the top bits. -/
theorem Fields.bits_layout (ha : a < 16) (hd : d < 8) (hlow : low < 4096) (shift width : Nat) :
    (Fields.mk (layout top a d low)).bits (19 + shift) width =
      top / Bits.span shift % Bits.span width := by
  have hspan : Bits.span (19 + shift) = 524288 * Bits.span shift := by
    simp only [Bits.span, Nat.pow_eq, Nat.pow_add]
  have htop : layout top a d low / 524288 = top := by
    simp only [layout]
    omega
  rw [Fields.bits, hspan, ← Nat.div_div_eq_div_mul, htop]

theorem Fields.a_layout (ha : a < 16) (hd : d < 8) (hlow : low < 4096) :
    (Fields.mk (layout top a d low)).a = a := by
  have hspan : Bits.span 15 = 32768 ∧ Bits.span 4 = 16 := by decide
  simp only [Fields.a, Fields.bits, hspan, layout]
  omega

theorem Fields.d_layout (hd : d < 8) (hlow : low < 4096) :
    (Fields.mk (layout top a d low)).d = .ofNat d := by
  have hspan : Bits.span 12 = 4096 ∧ Bits.span 3 = 8 := by decide
  have hbits : (Fields.mk (layout top a d low)).bits 12 3 = d := by
    simp only [Fields.bits, hspan, layout]
    omega
  rw [Fields.d, hbits]

theorem Fields.b_layout {b : Nat} (hb : b < 8) :
    (Fields.mk (layout top a d (b * 512))).b = .ofNat b := by
  have hspan : Bits.span 9 = 512 ∧ Bits.span 3 = 8 := by decide
  have hbits : (Fields.mk (layout top a d (b * 512))).bits 9 3 = b := by
    simp only [Fields.bits, hspan, layout]
    omega
  rw [Fields.b, hbits]

theorem Fields.usesImmediate_layout (ha : a < 16) (hd : d < 8) (hlow : low < 4096) :
    (Fields.mk (layout top a d low)).usesImmediate = (top % 2 == 0) := by
  have h : (Fields.mk (layout top a d low)).bits 19 1 = top / Bits.span 0 % Bits.span 1 :=
    Fields.bits_layout ha hd hlow 0 1
  have hspan : Bits.span 0 = 1 ∧ Bits.span 1 = 2 := by decide
  rw [hspan.1, hspan.2, Nat.div_one] at h
  rw [Fields.usesImmediate, h]

end Fields

/-! ## Words -/

/-- A word in two's complement. -/
def twosComplement (n : Nat) : Int := Int.bmod n wordCount

theorem signedWord_eq (n : Nat) : signedWord n = twosComplement n := by
  have hspan : Bits.span wordSize = 16777216 := by decide
  have hcount : wordCount = 16777216 := rfl
  simp only [signedWord, Bits.signExtend, hspan, twosComplement, hcount, Int.bmod_def]
  split <;> split <;> omega

/-! ## Classes of instructions -/

section Steps

variable {s : State} {top a d low : Nat}

theorem toNat_emod (n : Nat) : ((n : Int) % (wordCount : Int)).toNat = n % wordCount := by
  rw [← Int.natCast_mod, Int.toNat_natCast]

theorem step_computation (htop : top < 16) (ha : a < 16) (hd : d < 8) (hlow : low < 4096)
    (hword : s.memory.read s.pc = layout top a d low) :
    step s = { computation s ⟨layout top a d low⟩ with
      pc := (s.pc + 1) % wordCount, cycle := (s.cycle + 1) % wordCount } := by
  have hclass : (Fields.mk (layout top a d low)).bits 23 1 = 0 := by
    rw [Fields.bits_layout ha hd hlow 4 1]
    have hspan : Bits.span 4 = 16 ∧ Bits.span 1 = 2 := by decide
    rw [hspan.1, hspan.2]
    omega
  have hnext : ((s.pc : Int) + 1) = ((s.pc + 1 : Nat) : Int) := by norm_num
  simp only [step, hword, hclass, if_true, hnext, toNat_emod]

theorem step_transfer (hlow16 : 16 ≤ top) (htop : top < 24) (ha : a < 16) (hd : d < 8)
    (hlow : low < 4096) (hword : s.memory.read s.pc = layout top a d low) :
    step s = { transfer s ⟨layout top a d low⟩ with
      pc := (s.pc + 1) % wordCount, cycle := (s.cycle + 1) % wordCount } := by
  have hspan : Bits.span 4 = 16 ∧ Bits.span 1 = 2 ∧ Bits.span 3 = 8 ∧ Bits.span 2 = 4 := by decide
  have hclass : (Fields.mk (layout top a d low)).bits 23 1 = 1 := by
    rw [Fields.bits_layout ha hd hlow 4 1, hspan.1, hspan.2.1]
    omega
  have hdata : (Fields.mk (layout top a d low)).bits 22 2 = 2 := by
    rw [Fields.bits_layout ha hd hlow 3 2, hspan.2.2.1, hspan.2.2.2]
    omega
  have hnext : ((s.pc : Int) + 1) = ((s.pc + 1 : Nat) : Int) := by norm_num
  simp only [step, hword, hclass, hdata, one_ne_zero, if_true, if_false, hnext, toNat_emod]

theorem step_branch (hbranch : 24 ≤ top) (htop : top < 32) (ha : a < 16) (hd : d < 8)
    (hlow : low < 4096) (hword : s.memory.read s.pc = layout top a d low) :
    step s = { s with
      pc := (((target? s ⟨layout top a d low⟩).getD (s.pc + 1 : Nat)) % wordCount).toNat,
      cycle := (s.cycle + 1) % wordCount } := by
  have hspan : Bits.span 4 = 16 ∧ Bits.span 1 = 2 ∧ Bits.span 3 = 8 ∧ Bits.span 2 = 4 := by decide
  have hclass : (Fields.mk (layout top a d low)).bits 23 1 = 1 := by
    rw [Fields.bits_layout ha hd hlow 4 1, hspan.1, hspan.2.1]
    omega
  have hdata : (Fields.mk (layout top a d low)).bits 22 2 = 3 := by
    rw [Fields.bits_layout ha hd hlow 3 2, hspan.2.2.1, hspan.2.2.2]
    omega
  have hnext : ((s.pc : Int) + 1) = ((s.pc + 1 : Nat) : Int) := by norm_num
  simp only [step, hword, hclass, hdata, one_ne_zero, if_false, hnext]
  norm_num

end Steps

end PocketAsm.Parva

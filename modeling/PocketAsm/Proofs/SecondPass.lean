/-
  Proofs/SecondPass.lean --- what the second pass makes of a placed line.

  Resolving the parts of an instruction gives as many bits as the parts are
  wide (`length_of_partsBits`), and fails only for an operand: a name that is
  not defined, a value out of range, or a number with too many digits.  So an
  instruction whose parts fill its words is never refused for its width.
-/
import PocketAsm.Proofs.Widths

set_option autoImplicit false

namespace PocketAsm

/-- The fault lies in an operand. -/
def Fault.isOperand : Fault → Bool
  | .longNumber _ | .undefined .. | .outOfRange .. => true
  | _ => false

theorem Bits.isOperand_of_encodeField {value : Int} {width : Nat} {signed : Bool} {e : Fault}
    (h : encodeField value width signed = .error e) : e.isOperand = true := by
  simp only [encodeField, encode] at h
  split at h
  · simp at h
  · rw [← Except.error.inj h]
    rfl

theorem NumberSyntax.isOperand_of_read {numbers : NumberSyntax} {text : String} {e : Fault}
    (h : numbers.read text = .error e) : e.isOperand = true := by
  unfold NumberSyntax.read at h
  split at h
  · rw [← Except.error.inj h]
    rfl
  · simp at h

namespace Symbols

variable {symbols : Symbols}

/-! ## Faults of operands -/

theorem isOperand_of_atom {text : String} {origin : Int} {relative : Bool} {e : Fault}
    (h : symbols.atom text origin relative = .error e) : e.isOperand = true := by
  unfold atom at h
  split at h
  · rename_i fault hread
    rw [← Except.error.inj h]
    exact NumberSyntax.isOperand_of_read hread
  · simp at h
  · split at h
    · simp at h
    · split at h
      · simp at h
      · rw [← Except.error.inj h]
        rfl

theorem isOperand_of_value {text : String} {origin : Int} {relative : Bool} {e : Fault}
    (h : symbols.value text origin relative = .error e) : e.isOperand = true := by
  unfold value at h
  split at h
  · rename_i fault hread
    rw [← Except.error.inj h]
    exact NumberSyntax.isOperand_of_read hread
  · simp at h
  · split at h
    · simp at h
    · split at h
      · split at h
        · rename_i fault hbase
          rw [← Except.error.inj h]
          exact isOperand_of_atom hbase
        · split at h
          · rename_i fault hoffset
            rw [← Except.error.inj h]
            exact isOperand_of_atom hoffset
          · simp at h
      · split at h
        · simp at h
        · rw [← Except.error.inj h]
          rfl

theorem isOperand_of_partBits {part : Part} {e : Fault} (h : symbols.partBits part = .error e) :
    e.isOperand = true := by
  cases part with
  | bits bits => simp [partBits] at h
  | ref r =>
    rw [partBits] at h
    split at h
    · rename_i fault hvalue
      rw [← Except.error.inj h]
      exact isOperand_of_value hvalue
    · exact Bits.isOperand_of_encodeField h

theorem isOperand_of_partsBits {parts : List Part} {e : Fault}
    (h : symbols.partsBits parts = .error e) : e.isOperand = true := by
  induction parts with
  | nil => simp [partsBits] at h
  | cons part parts ih =>
    rw [partsBits] at h
    split at h
    · rename_i fault hpart
      rw [← Except.error.inj h]
      exact isOperand_of_partBits hpart
    · split at h
      · rename_i fault hrest
        exact ih (hrest.trans (congrArg _ (Except.error.inj h)))
      · simp at h

/-! ## Widths of parts -/

theorem length_of_partBits {part : Part} {bits : Bits} (h : symbols.partBits part = .ok bits) :
    bits.length = part.width := by
  cases part with
  | bits fixed =>
    rw [← Except.ok.inj h]
    rfl
  | ref r =>
    rw [partBits] at h
    split at h
    · simp at h
    · exact Bits.length_of_encodeField h

/-- Resolved parts are as wide as they were announced to be. -/
theorem length_of_partsBits {parts : List Part} {bits : Bits}
    (h : symbols.partsBits parts = .ok bits) : bits.length = partsWidth parts := by
  induction parts generalizing bits with
  | nil =>
    rw [← Except.ok.inj h]
    rfl
  | cons part parts ih =>
    rw [partsBits] at h
    split at h
    · simp at h
    · rename_i first hfirst
      split at h
      · simp at h
      · rename_i rest hrest
        rw [← Except.ok.inj h, List.length_append, length_of_partBits hfirst, ih hrest,
          partsWidth_cons]

end Symbols

namespace Dialect

variable {dialect : Dialect} {maxWords : Nat}

/-! ## Instructions -/

/-- Whole words, not too many of them, are no wrong width. -/
theorem widthFault?_eq_none (hdialect : dialect.WellFormed maxWords) {words : Nat}
    (hleast : 1 ≤ words) (hmost : words ≤ maxWords) (source : Source) :
    dialect.widthFault? (words * dialect.wordSize) source = none := by
  unfold widthFault?
  split
  · rename_i fixed hfixed
    obtain ⟨rfl, hone⟩ := hdialect.fixedWidth fixed hfixed
    obtain rfl : words = 1 := by omega
    simp
  · simp

/-- The bits of an instruction are its resolved parts. -/
theorem partsBits_of_instructionBits {symbols : Symbols} {source : Source} {parts : List Part}
    {bits : Bits} (h : dialect.instructionBits symbols source parts = .ok bits) :
    symbols.partsBits parts = .ok bits := by
  unfold instructionBits at h
  split at h
  · simp at h
  · rename_i found hfound
    split at h
    · simp at h
    · rw [hfound, Except.ok.inj h]

/-- An instruction whose parts fill its words fails only for an operand. -/
theorem isOperand_of_instructionBits (hdialect : dialect.WellFormed maxWords) {symbols : Symbols}
    {source : Source} {parts : List Part} {words : Nat}
    (hwidth : partsWidth parts = words * dialect.wordSize) (hleast : 1 ≤ words)
    (hmost : words ≤ maxWords) {e : Fault}
    (h : dialect.instructionBits symbols source parts = .error e) : e.isOperand = true := by
  unfold instructionBits at h
  split at h
  · rename_i fault hparts
    rw [← Except.error.inj h]
    exact Symbols.isOperand_of_partsBits hparts
  · rename_i bits hbits
    rw [Symbols.length_of_partsBits hbits, hwidth,
      widthFault?_eq_none hdialect hleast hmost source] at h
    simp at h

/-! ## Lines -/

theorem mem_finished {results : List (Except Diagnostic OutputLine)} {line : OutputLine} :
    line ∈ finished results ↔ .ok line ∈ results := by
  constructor
  · intro h
    obtain ⟨result, hmem, hresult⟩ := List.mem_filterMap.mp h
    cases result with
    | ok found => exact Option.some.inj hresult ▸ hmem
    | error d => simp at hresult
  · intro h
    exact List.mem_filterMap.mpr ⟨_, h, rfl⟩

/-- What holds between any two results that are finished lines holds between any two of these. -/
theorem pairwise_finished {results : List (Except Diagnostic OutputLine)}
    {R : OutputLine → OutputLine → Prop}
    (h : results.Pairwise fun first second =>
      ∀ x, first = .ok x → ∀ y, second = .ok y → R x y) :
    (finished results).Pairwise R := by
  rw [finished, List.pairwise_filterMap]
  refine h.imp ?_
  intro first second hR x hx y hy
  cases first with
  | error d => simp at hx
  | ok line =>
    cases second with
    | error d => simp at hy
    | ok line' =>
      obtain rfl := Option.some.inj hx
      obtain rfl := Option.some.inj hy
      exact hR line rfl line' rfl

theorem mem_failed {results : List (Except Diagnostic OutputLine)} {d : Diagnostic} :
    d ∈ failed results ↔ .error d ∈ results := by
  constructor
  · intro h
    obtain ⟨result, hmem, hresult⟩ := List.mem_filterMap.mp h
    cases result with
    | ok found => simp at hresult
    | error found => exact Option.some.inj hresult ▸ hmem
  · intro h
    exact List.mem_filterMap.mpr ⟨_, h, rfl⟩

theorem resolveLine_eq_instruction {symbols : Symbols} {placed : Placed} {address : Nat}
    {bits : Bits} {source : Source}
    (h : dialect.resolveLine symbols placed = .ok (.instruction address bits source)) :
    ∃ parts, placed = .instruction address source parts ∧
      dialect.instructionBits symbols source parts = .ok bits := by
  cases placed with
  | label name origin => simp [resolveLine] at h
  | instruction place origin parts =>
    rw [resolveLine] at h
    split at h
    · simp at h
    · rename_i found hfound
      obtain ⟨rfl, rfl, rfl⟩ := OutputLine.instruction.inj (Except.ok.inj h)
      exact ⟨parts, rfl, hfound⟩

theorem resolveLine_eq_error {symbols : Symbols} {placed : Placed} {d : Diagnostic}
    (h : dialect.resolveLine symbols placed = .error d) :
    ∃ address source parts, placed = .instruction address source parts ∧
      dialect.instructionBits symbols source parts = .error d.fault := by
  cases placed with
  | label name origin => simp [resolveLine] at h
  | instruction address source parts =>
    rw [resolveLine] at h
    split at h
    · rename_i fault hfault
      refine ⟨address, source, parts, rfl, ?_⟩
      rw [hfault, ← Except.error.inj h]
    · simp at h

end Dialect

end PocketAsm

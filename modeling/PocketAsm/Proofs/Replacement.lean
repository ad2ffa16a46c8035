/-
  Proofs/Replacement.lean --- texts that differ in one line.

  The lines behind a line read nothing of the program but the address, the
  symbols and the encoding.  If one line is put in the place of another, and
  the two leave programs that agree on these, then the lines behind make the
  same edits (`laterEdits_eq`): the symbols are the same in the end
  (`symbols_eq`), and the program keeps the instructions of both lines or of
  neither (`placedAt_cases`).
-/
import PocketAsm.Proofs.Agreement
import PocketAsm.Proofs.Reports

set_option autoImplicit false

namespace PocketAsm.Dialect

variable {dialect : Dialect} {maxWords : Nat} {text text' : String} {number : Nat}

/-! ## Passes over programs that agree -/

/-- Programs that agree make the same of any number of lines. -/
theorem passEdits_congr (lines : List String) :
    ∀ (number : Nat) {p q : Program}, p.Agree q →
      dialect.passEdits number lines p = dialect.passEdits number lines q := by
  induction lines with
  | nil => exact fun _ _ _ _ => rfl
  | cons raw lines ih =>
    intro number p q h
    rw [passEdits_cons, passEdits_cons, placeLine_congr h]
    rw [ih (number + 1) (h.applyAll _)]

/-! ## One line in the place of another -/

/-- The texts have the same lines, but for the one with the given number. -/
def SameBut (number : Nat) (text text' : String) : Prop :=
  ∃ raw, Text.lines text' = (Text.lines text).set number raw

namespace SameBut

variable (h : SameBut number text text')

include h

theorem programBefore_eq :
    dialect.programBefore text' number = dialect.programBefore text number := by
  obtain ⟨raw, hlines⟩ := h
  rw [programBefore, programBefore, hlines, List.take_set_of_le le_rfl]

variable (hagree :
  ((dialect.programBefore text number).applyAll (dialect.outcomeAt text number).kept).Agree
    ((dialect.programBefore text number).applyAll (dialect.outcomeAt text' number).kept))

include hagree

/-- The lines behind make the same edits. -/
theorem laterEdits_eq :
    dialect.laterEdits text' number = dialect.laterEdits text number := by
  have hprogram : dialect.programBefore text' number = _ := h.programBefore_eq
  obtain ⟨raw, hlines⟩ := h
  rw [laterEdits, laterEdits, hprogram, hlines, List.drop_set_of_lt (Nat.lt_succ_self number)]
  exact (passEdits_congr _ _ hagree).symm

/-- The finished programs have the same symbols. -/
theorem symbols_eq (hdialect : dialect.WellFormed maxWords) :
    dialect.symbols (dialect.firstPass text').1 = dialect.symbols (dialect.firstPass text).1 := by
  have hfinal := hagree.applyAll (dialect.laterEdits text number)
  rw [firstPass_eq_later hdialect text number, firstPass_eq_later hdialect text' number,
    h.laterEdits_eq hagree, h.programBefore_eq, symbols, symbols, hfinal.labels, hfinal.constants]

/-- Of lines that only place instructions the programs keep all of them, or none. -/
theorem placedAt_cases (hdialect : dialect.WellFormed maxWords)
    (hplaces : ∀ e ∈ (dialect.outcomeAt text number).kept, e.isPlace = true)
    (hplaces' : ∀ e ∈ (dialect.outcomeAt text' number).kept, e.isPlace = true) :
    (dialect.placedAt text number = [] ∧ dialect.placedAt text' number = []) ∨
      (dialect.placedAt text number = Edit.instructions (dialect.programBefore text number).address
          (dialect.outcomeAt text number).kept ∧
        dialect.placedAt text' number = Edit.instructions
          (dialect.programBefore text number).address (dialect.outcomeAt text' number).kept) := by
  obtain ⟨keep, hkeep⟩ := Program.exists_keep_applyAll
    (fun e (he : e ∈ dialect.laterEdits text number) => exists_comesFrom_of_mem_laterEdits he)
    (dialect.programBefore text number).emitting
  have hkeep' := hkeep
  rw [← h.laterEdits_eq hagree, ← h.programBefore_eq] at hkeep'
  rw [placedAt_eq hdialect hplaces hkeep, placedAt_eq hdialect hplaces' hkeep', h.programBefore_eq]
  split
  · exact .inr ⟨rfl, rfl⟩
  · exact .inl ⟨rfl, rfl⟩

end SameBut

end PocketAsm.Dialect

/-
  Proofs/FirstPass.lean --- the first pass as the edits and the faults of its lines.

  A line that fails is rolled back, and in a well-formed dialect that restores
  the program before it exactly (`rollback_placeLine`).  So the first pass is
  the run of the edits of the lines that succeed, `passEdits`, and reports the
  faults of the others, `passFaults`; neither mentions a checkpoint.
-/
import PocketAsm.Proofs.Lines

set_option autoImplicit false

namespace PocketAsm.Dialect

variable {dialect : Dialect} {maxWords : Nat}

/-! ## Lines that fail -/

/-- A line that fails is undone by the checkpoint before it. -/
theorem rollback_placeLine (hdialect : dialect.WellFormed maxWords) {number : Nat} {raw : String}
    {p : Program} {fault : Fault} (hfault : (dialect.placeLine number raw p).fault = some fault) :
    (p.applyAll (dialect.placeLine number raw p).edits).rollback p.checkpoint = p := by
  apply Program.rollback_applyAll
  rintro e he rfl
  have hnone := fault_of_mem_resume hdialect he
  have : some fault = none := hfault.symm.trans hnone
  simp at this

@[simp] theorem instructionOf_empty (dialect : Dialect) : dialect.instructionOf "" = "" := by
  unfold instructionOf
  split <;> rfl

/-- An empty line does nothing. -/
@[simp] theorem placeLine_empty (number : Nat) (p : Program) :
    dialect.placeLine number "" p = .nothing := by
  simp only [placeLine, instructionOf_empty]
  unfold placeText
  rw [if_pos rfl]

/-! ## The edits and the faults of a pass -/

/-- The edits of the lines that succeed, where the first line has the given number. -/
def passEdits (dialect : Dialect) : Nat → List String → Program → List Edit
  | _, [], _ => []
  | number, raw :: rest, p =>
    let line := dialect.placeLine number raw p
    match line.fault with
    | some _ => dialect.passEdits (number + 1) rest p
    | none => line.edits ++ dialect.passEdits (number + 1) rest (p.applyAll line.edits)

/-- The faults of the lines that fail, where the first line has the given number. -/
def passFaults (dialect : Dialect) : Nat → List String → Program → List Diagnostic
  | _, [], _ => []
  | number, raw :: rest, p =>
    let line := dialect.placeLine number raw p
    match line.fault with
    | some e => ⟨number, e⟩ :: dialect.passFaults (number + 1) rest p
    | none => dialect.passFaults (number + 1) rest (p.applyAll line.edits)

section Equations

variable {number : Nat} {raw : String} {rest : List String} {p : Program}

theorem passEdits_of_fault {e : Fault} (h : (dialect.placeLine number raw p).fault = some e) :
    dialect.passEdits number (raw :: rest) p = dialect.passEdits (number + 1) rest p := by
  simp [passEdits, h]

theorem passEdits_of_ok (h : (dialect.placeLine number raw p).fault = none) :
    dialect.passEdits number (raw :: rest) p =
      (dialect.placeLine number raw p).edits ++ dialect.passEdits (number + 1) rest
        (p.applyAll (dialect.placeLine number raw p).edits) := by
  simp [passEdits, h]

theorem passFaults_of_fault {e : Fault} (h : (dialect.placeLine number raw p).fault = some e) :
    dialect.passFaults number (raw :: rest) p =
      ⟨number, e⟩ :: dialect.passFaults (number + 1) rest p := by
  simp [passFaults, h]

theorem passFaults_of_ok (h : (dialect.placeLine number raw p).fault = none) :
    dialect.passFaults number (raw :: rest) p =
      dialect.passFaults (number + 1) rest
        (p.applyAll (dialect.placeLine number raw p).edits) := by
  simp [passFaults, h]

end Equations

/-- Placing lines is running the edits of those that succeed and collecting the faults of the
others. -/
theorem placeLines_eq (hdialect : dialect.WellFormed maxWords) :
    ∀ (lines : List String) (number : Nat) (p : Program) (faults : Array Diagnostic),
      dialect.placeLines number lines p faults =
        (p.applyAll (dialect.passEdits number lines p),
          faults ++ (dialect.passFaults number lines p).toArray) := by
  intro lines
  induction lines with
  | nil => intro number p faults; simp [placeLines, passEdits, passFaults]
  | cons raw rest ih =>
    intro number p faults
    cases hfault : (dialect.placeLine number raw p).fault with
    | some e =>
      rw [passEdits_of_fault hfault, passFaults_of_fault hfault, placeLines]
      simp only [hfault]
      rw [rollback_placeLine hdialect hfault, ih]
      simp
    | none =>
      rw [passEdits_of_ok hfault, passFaults_of_ok hfault, placeLines]
      simp only [hfault]
      rw [ih, Program.applyAll_append]

/-- The edits of the lines of a text that succeed. -/
def edits (dialect : Dialect) (text : String) : List Edit :=
  dialect.passEdits 0 (Text.lines text) (.start dialect.encoding)

theorem firstPass_eq (hdialect : dialect.WellFormed maxWords) (text : String) :
    dialect.firstPass text = ((Program.start dialect.encoding).applyAll (dialect.edits text),
      (dialect.passFaults 0 (Text.lines text) (.start dialect.encoding)).toArray) := by
  rw [firstPass, placeLines_eq hdialect]
  simp [edits]

/-! ## Lines that are reported -/

/-- A fault is reported for a line from the first one on. -/
theorem le_line_of_mem_passFaults :
    ∀ (lines : List String) (number : Nat) (p : Program),
      ∀ d ∈ dialect.passFaults number lines p, (number : Int) ≤ d.line := by
  intro lines
  induction lines with
  | nil => intro number p d hd; simp [passFaults] at hd
  | cons raw rest ih =>
    intro number p d hd
    cases hfault : (dialect.placeLine number raw p).fault with
    | some e =>
      rw [passFaults_of_fault hfault] at hd
      rcases List.mem_cons.mp hd with rfl | hd
      · exact le_refl _
      · have := ih (number + 1) p d hd
        omega
    | none =>
      rw [passFaults_of_ok hfault] at hd
      have := ih (number + 1) _ d hd
      omega

/-- The diagnostics have one for the line with the given number. -/
def reports (faults : List Diagnostic) (number : Nat) : Bool := faults.any (·.line == number)

/-- The faults of a pass do not report a line before its first one. -/
theorem reports_passFaults_succ (number : Nat) (lines : List String) (p : Program) :
    reports (dialect.passFaults (number + 1) lines p) number = false := by
  rw [reports, List.any_eq_false]
  intro d hd
  have hle := le_line_of_mem_passFaults lines (number + 1) p d hd
  rw [beq_iff_eq]
  omega

/-- A diagnostic of an earlier line reports no later one. -/
theorem reports_cons_of_lt {number later : Nat} (fault : Fault) (faults : List Diagnostic)
    (h : number < later) : reports (⟨number, fault⟩ :: faults) later = reports faults later := by
  have hne : ((number : Int) == (later : Int)) = false := by
    rw [beq_eq_false_iff_ne]
    omega
  simp only [reports, List.any_cons, hne, Bool.false_or]

end PocketAsm.Dialect

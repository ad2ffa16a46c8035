/-
  Proofs/Atomicity.lean --- a line that fails leaves no trace.

  Blank every line that the first pass reports: the first pass then ends with
  the same program and reports nothing, so the second pass has the same to do.
  A failing line therefore cannot be told from an empty one, except by its own
  diagnostic.
-/
import PocketAsm.Proofs.FirstPass

set_option autoImplicit false

namespace PocketAsm.Dialect

variable {dialect : Dialect} {maxWords : Nat}

/-! ## Blanking lines -/

/-- The lines, the first of which has the given number, with the reported ones blanked. -/
def blankLines (faults : List Diagnostic) (number : Nat) (lines : List String) : List String :=
  lines.mapIdx fun i raw => if reports faults (number + i) then "" else raw

/-- The text with an empty line for each line that the first pass reports. -/
def blankReported (dialect : Dialect) (text : String) : String :=
  "\n".intercalate (blankLines (dialect.firstPass text).2.toList 0 (Text.lines text))

theorem blankLines_cons (faults : List Diagnostic) (number : Nat) (raw : String)
    (rest : List String) :
    blankLines faults number (raw :: rest) =
      (if reports faults number then "" else raw) :: blankLines faults (number + 1) rest := by
  simp [blankLines, List.mapIdx_cons, Nat.add_assoc, Nat.add_comm 1]

/-- A diagnostic of an earlier line blanks nothing. -/
theorem blankLines_cons_fault (number : Nat) (fault : Fault) (faults : List Diagnostic)
    (lines : List String) :
    blankLines (⟨number, fault⟩ :: faults) (number + 1) lines =
      blankLines faults (number + 1) lines := by
  have hother (i : Nat) : reports (⟨number, fault⟩ :: faults) (number + 1 + i) =
      reports faults (number + 1 + i) := reports_cons_of_lt fault faults (by omega)
  simp only [blankLines, hother]

/-- Without the lines that fail, a pass makes the same edits and has no faults. -/
theorem pass_blankLines (dialect : Dialect) :
    ∀ (lines : List String) (number : Nat) (p : Program),
      let blanked := blankLines (dialect.passFaults number lines p) number lines
      dialect.passEdits number blanked p = dialect.passEdits number lines p ∧
        dialect.passFaults number blanked p = [] := by
  intro lines
  induction lines with
  | nil => intro number p; simp [blankLines, passEdits, passFaults]
  | cons raw rest ih =>
    intro number p
    cases hfault : (dialect.placeLine number raw p).fault with
    | some e =>
      have hhead : reports (⟨number, e⟩ :: dialect.passFaults (number + 1) rest p) number := by
        simp [reports]
      have hempty : (dialect.placeLine number "" p).fault = none := by simp [Outcome.nothing]
      simp only [passFaults_of_fault hfault, passEdits_of_fault hfault, blankLines_cons, hhead,
        if_true, blankLines_cons_fault]
      rw [passEdits_of_ok hempty, passFaults_of_ok hempty]
      simpa [Outcome.nothing] using ih (number + 1) p
    | none =>
      let q := p.applyAll (dialect.placeLine number raw p).edits
      have hhead : reports (dialect.passFaults (number + 1) rest q) number = false :=
        reports_passFaults_succ number rest q
      obtain ⟨hedits, hfaults⟩ := ih (number + 1) q
      simp only [passFaults_of_ok hfault, passEdits_of_ok hfault, blankLines_cons]
      rw [hhead, if_neg (by simp), passEdits_of_ok hfault, passFaults_of_ok hfault, hedits]
      exact ⟨rfl, hfaults⟩

theorem lines_blankReported (dialect : Dialect) (text : String) :
    Text.lines (dialect.blankReported text) =
      blankLines (dialect.firstPass text).2.toList 0 (Text.lines text) := by
  apply Text.lines_intercalate
  · simpa [blankLines] using Text.lines_ne_nil text
  · intro line hline
    obtain ⟨i, hi, rfl⟩ := List.mem_mapIdx.mp hline
    split
    · decide
    · exact Text.newline_not_mem_of_mem_lines (List.getElem_mem hi)

/-- The first pass over the blanked text ends with the same program and has no faults. -/
theorem firstPass_blankReported (hdialect : dialect.WellFormed maxWords) (text : String) :
    dialect.firstPass (dialect.blankReported text) = ((dialect.firstPass text).1, #[]) := by
  have hfaults : (dialect.firstPass text).2.toList =
      dialect.passFaults 0 (Text.lines text) (.start dialect.encoding) := by
    rw [firstPass_eq hdialect]
  obtain ⟨hedits, hnone⟩ := pass_blankLines dialect (Text.lines text) 0
    (.start dialect.encoding)
  rw [firstPass_eq hdialect, firstPass_eq hdialect text]
  simp only [edits, lines_blankReported, hfaults, hedits, hnone]

/-! ## Error isolation -/

/-- The blanked text assembles to the same lines, and only what fails in the second pass fails. -/
theorem assemble_blankReported (hdialect : dialect.WellFormed maxWords) (text : String) :
    dialect.assemble (dialect.blankReported text) =
      ⟨(dialect.assemble text).lines, failed (dialect.secondPass (dialect.firstPass text).1)⟩ := by
  have hpass := firstPass_blankReported hdialect text
  simp only [assemble, hpass, List.nil_append]

/-- Blanking the reported lines makes no run fail for a number with too many digits. -/
theorem tryAssemble_blankReported (hdialect : dialect.WellFormed maxWords) {text : String}
    {result : Assembly} (h : dialect.tryAssemble text = .ok result) :
    dialect.tryAssemble (dialect.blankReported text) =
      .ok ⟨result.lines, failed (dialect.secondPass (dialect.firstPass text).1)⟩ := by
  obtain ⟨hwritable, rfl⟩ := tryAssemble_eq_ok.mp h
  rw [tryAssemble_eq_ok, assemble_blankReported hdialect]
  exact ⟨fun d hd => hwritable d (List.mem_append_right _ hd), rfl⟩

/-- A line that fails is undone completely, whatever it did before it failed; and a text with such
lines gives what the text without them gives, plus their diagnostics. -/
theorem failing_line_leaves_no_trace {a : Architecture} (ha : a ∈ Architecture.all) :
    (∀ (p : Program) (number : Nat) (raw : String) (fault : Fault),
      (a.dialect.placeLine number raw p).fault = some fault →
      (p.applyAll (a.dialect.placeLine number raw p).edits).rollback p.checkpoint = p) ∧
    ∀ text : String,
      (a.dialect.assemble (a.dialect.blankReported text)).lines = (a.dialect.assemble text).lines ∧
      (a.dialect.assemble (a.dialect.blankReported text)).errors =
        failed (a.dialect.secondPass (a.dialect.firstPass text).1) ∧
      ∀ result, a.dialect.tryAssemble text = .ok result →
        a.dialect.tryAssemble (a.dialect.blankReported text) =
          .ok ⟨result.lines, failed (a.dialect.secondPass (a.dialect.firstPass text).1)⟩ := by
  have hdialect := Architecture.wellFormed ha
  refine ⟨fun p number raw fault hfault => rollback_placeLine hdialect hfault, ?_⟩
  intro text
  rw [assemble_blankReported hdialect]
  exact ⟨rfl, rfl, fun result hresult => tryAssemble_blankReported hdialect hresult⟩

/-- A data line whose second item does not fit has placed the first one when it fails. -/
theorem half_placed_data_leaves_no_trace :
    let dialect := Architecture.v8.dialect
    let line := dialect.placeLine 1 ".data 1, 300" (.start none)
    let text := "x:\n.data 1, 300\n.data 2"
    line.edits.length = 1 ∧
    ((Program.start none).applyAll line.edits).rollback (Program.start none).checkpoint =
      .start none ∧
    (dialect.assemble (dialect.blankReported text)).lines = (dialect.assemble text).lines ∧
    dialect.tryAssemble (dialect.blankReported text) = .ok ⟨(dialect.assemble text).lines,
      failed (dialect.secondPass (dialect.firstPass text).1)⟩ := by
  intro dialect line text
  have hall : Architecture.v8 ∈ Architecture.all := by simp [Architecture.all]
  obtain ⟨hundone, hisolated⟩ := failing_line_leaves_no_trace hall
  obtain ⟨hfault, hplaced⟩ :
      line.fault = some (.outOfRange 300 8 false) ∧ line.edits.length = 1 := by
    decide +kernel
  have hwritable : ((dialect.assemble text).errors.all fun d => d.fault.fatal?.isNone) = true := by
    decide +kernel
  have hresult : dialect.tryAssemble text = .ok (dialect.assemble text) :=
    tryAssemble_eq_ok.mpr
      ⟨fun d hd => Option.isNone_iff_eq_none.mp (List.all_eq_true.mp hwritable d hd), rfl⟩
  obtain ⟨hlines, -, htry⟩ := hisolated text
  exact ⟨hplaced, hundone _ _ _ _ hfault, hlines, htry _ hresult⟩

end PocketAsm.Dialect

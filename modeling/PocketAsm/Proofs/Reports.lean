/-
  Proofs/Reports.lean --- what the errors of a text say of one of its lines.

  The first pass reports a line exactly if its outcome has a fault
  (`mem_firstPass_iff`), the second one if an instruction that the program
  keeps of it cannot be resolved (`exists_of_mem_errors`).  So a line that is
  refused is reported once and leaves nothing in the output
  (`reported_of_refused`), and a line whose instructions all resolve is not
  reported (`not_reported`).  A fault that cannot be put into words ends the
  run (`tryAssemble_ne_ok_of_refused`).
-/
import PocketAsm.Proofs.Accounting
import PocketAsm.Proofs.Atomicity

set_option autoImplicit false

namespace PocketAsm.Dialect

variable {dialect : Dialect} {maxWords : Nat} {text : String} {number : Nat}

/-! ## The faults of the first pass -/

theorem passFaults_append (dialect : Dialect) (first second : List String) :
    ∀ (number : Nat) (p : Program),
      dialect.passFaults number (first ++ second) p =
        dialect.passFaults number first p ++
          dialect.passFaults (number + first.length) second
            (p.applyAll (dialect.passEdits number first p)) := by
  induction first with
  | nil => intro number p; rfl
  | cons raw rest ih =>
    intro number p
    have hlength : number + 1 + rest.length = number + (raw :: rest).length := by
      rw [List.length_cons]
      omega
    rw [List.cons_append, passFaults_cons, passFaults_cons, passEdits_cons, ih, hlength,
      Program.applyAll_append, List.append_assoc]

/-- The first pass reports what the line comes to. -/
theorem mem_firstPass_iff (hdialect : dialect.WellFormed maxWords) {e : Fault} :
    ⟨number, e⟩ ∈ (dialect.firstPass text).2.toList ↔
      (dialect.outcomeAt text number).fault = some e := by
  have hsplit := passFaults_append dialect ((Text.lines text).take number)
    ((Text.lines text).drop number) 0 (.start dialect.encoding)
  rw [List.take_append_drop, ← programBefore_eq hdialect] at hsplit
  have hfaults : (dialect.firstPass text).2.toList =
      dialect.passFaults 0 (Text.lines text) (.start dialect.encoding) := by
    rw [firstPass_eq hdialect]
  have hearlier : ⟨(number : Int), e⟩ ∉
      dialect.passFaults 0 ((Text.lines text).take number) (.start dialect.encoding) := by
    intro h
    have hlt := lt_of_mem_passFaults _ _ _ _ h
    rw [List.length_take] at hlt
    dsimp only at hlt
    omega
  rw [hfaults, hsplit, List.mem_append, or_iff_right hearlier]
  cases hdrop : (Text.lines text).drop number with
  | nil =>
    -- behind the last line there is nothing that could fail
    have hlength : (Text.lines text).length ≤ number := List.drop_eq_nil_iff.mp hdrop
    have hnothing : dialect.outcomeAt text number = .nothing := by
      rw [outcomeAt, List.getD_eq_getElem?_getD, List.getElem?_eq_none hlength, Option.getD_none,
        placeLine_empty]
    simp [hnothing, passFaults, Outcome.nothing]
  | cons raw rest =>
    have hget : (Text.lines text)[number]? = some raw := by
      rw [← List.head?_drop, hdrop, List.head?_cons]
    obtain ⟨hlt, -⟩ := List.getElem?_eq_some_iff.mp hget
    have hnumber : 0 + ((Text.lines text).take number).length = number := by
      rw [List.length_take]
      omega
    have hline : (Text.lines text).getD number "" = raw := by
      rw [List.getD_eq_getElem?_getD, hget, Option.getD_some]
    have hlater (p : Program) : ⟨(number : Int), e⟩ ∉ dialect.passFaults (number + 1) rest p := by
      intro h
      have hle := le_line_of_mem_passFaults _ _ _ _ h
      dsimp only at hle
      omega
    rw [hnumber, passFaults_cons, List.mem_append, or_iff_left (hlater _), outcomeAt, hline]
    simp

/-! ## The errors of a line -/

/-- An error of a line is the fault that stopped it, or that of an instruction which the program
keeps of it. -/
theorem exists_of_mem_errors (hdialect : dialect.WellFormed maxWords) {d : Diagnostic}
    (hd : d ∈ (dialect.assemble text).errors) (hline : d.line = number) :
    (dialect.outcomeAt text number).fault = some d.fault ∨
      ∃ placed ∈ dialect.placedAt text number,
        dialect.resolveLine (dialect.symbols (dialect.firstPass text).1) placed = .error d := by
  rcases List.mem_append.mp hd with hfirst | hsecond
  · left
    rw [← mem_firstPass_iff hdialect, ← hline]
    exact hfirst
  · right
    obtain ⟨placed, hmem, hresolve⟩ := List.mem_map.mp (mem_failed.mp hsecond)
    refine ⟨placed, List.mem_filter.mpr ⟨hmem, ?_⟩, hresolve⟩
    have hfails := failsWith_of_resolveLine hresolve
    cases placed with
    | label name source => exact hfails.elim
    | instruction address source parts =>
      have hsource : d.line = source.line := hfails.1
      rw [Placed.isFrom, beq_iff_eq]
      omega

/-- The errors of a line are its fault and those of the instructions which the program keeps of
it. -/
theorem mem_errors_iff (hdialect : dialect.WellFormed maxWords) {e : Fault} :
    ⟨number, e⟩ ∈ (dialect.assemble text).errors ↔
      (dialect.outcomeAt text number).fault = some e ∨
        ∃ placed ∈ dialect.placedAt text number,
          dialect.resolveLine (dialect.symbols (dialect.firstPass text).1) placed =
            .error ⟨number, e⟩ := by
  refine ⟨fun h => exists_of_mem_errors hdialect h rfl, ?_⟩
  rintro (hfirst | ⟨placed, hmem, hresolve⟩)
  · exact List.mem_append_left _ ((mem_firstPass_iff hdialect).mpr hfirst)
  · refine List.mem_append_right _ (mem_failed.mpr ?_)
    exact List.mem_map.mpr ⟨placed, (List.mem_filter.mp hmem).1, hresolve⟩

/-- A line that is refused is reported for it and for nothing else, and nothing comes of it. -/
theorem reported_of_refused (hdialect : dialect.WellFormed maxWords) {e : Fault}
    (h : dialect.outcomeAt text number = .refused e) :
    ⟨number, e⟩ ∈ (dialect.assemble text).errors ∧
      (∀ d ∈ (dialect.assemble text).errors, d.line = number → d.fault = e) ∧
      dialect.outputAt text number = [] := by
  have hfault : (dialect.outcomeAt text number).fault = some e := congrArg Outcome.fault h
  have hkept : (dialect.outcomeAt text number).kept = [] := by
    rw [Outcome.kept, hfault]
    rfl
  have hplaced : dialect.placedAt text number = [] := by
    have hplaces : ∀ e ∈ (dialect.outcomeAt text number).kept, e.isPlace = true := by simp [hkept]
    rcases placedAt_cases hdialect hplaces with hnone | hall
    · exact hnone
    · rw [hall, hkept]
      rfl
  refine ⟨List.mem_append_left _ ((mem_firstPass_iff hdialect).mpr hfault), ?_, ?_⟩
  · intro d hd hline
    rcases exists_of_mem_errors hdialect hd hline with hfirst | ⟨placed, hmem, -⟩
    · exact Option.some.inj (hfirst.symm.trans hfault)
    · simp [hplaced] at hmem
  · rw [outputAt_eq, hplaced]
    rfl

/-- A line that succeeds is not reported if each instruction which is kept of it can be resolved. -/
theorem not_reported (hdialect : dialect.WellFormed maxWords)
    (hfault : (dialect.outcomeAt text number).fault = none)
    (hresolved : ∀ placed ∈ dialect.placedAt text number, ∃ line,
      dialect.resolveLine (dialect.symbols (dialect.firstPass text).1) placed = .ok line) :
    ∀ d ∈ (dialect.assemble text).errors, d.line ≠ number := by
  intro d hd hline
  rcases exists_of_mem_errors hdialect hd hline with hfirst | ⟨placed, hmem, hresolve⟩
  · simp [hfault] at hfirst
  · obtain ⟨line, hok⟩ := hresolved placed hmem
    simp [hresolve] at hok

/-! ## Runs without a result -/

/-- A line that is refused for a number nobody can write ends the run. -/
theorem tryAssemble_ne_ok_of_refused (hdialect : dialect.WellFormed maxWords) {e : Fault}
    (h : dialect.outcomeAt text number = .refused e) (hfatal : e.fatal? ≠ none)
    (result : Assembly) : dialect.tryAssemble text ≠ .ok result := by
  intro hok
  obtain ⟨hmem, -⟩ := reported_of_refused hdialect h
  exact hfatal ((tryAssemble_eq_ok.mp hok).1 _ hmem)

/-- A line that is refused for another reason ends no run. -/
theorem tryAssemble_of_refused (hdialect : dialect.WellFormed maxWords) {e : Fault}
    (h : dialect.outcomeAt text number = .refused e) (hfatal : e.fatal? = none)
    (hothers : ∀ d ∈ (dialect.assemble text).errors, d.line ≠ number → d.fault.fatal? = none) :
    dialect.tryAssemble text = .ok (dialect.assemble text) := by
  obtain ⟨-, honly, -⟩ := reported_of_refused hdialect h
  refine tryAssemble_eq_ok.mpr ⟨fun d hd => ?_, rfl⟩
  by_cases hline : d.line = number
  · rw [honly d hd hline, hfatal]
  · exact hothers d hd hline

end PocketAsm.Dialect

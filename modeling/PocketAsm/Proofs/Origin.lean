/-
  Proofs/Origin.lean --- the source line that an instruction comes from.

  Every instruction of the output names a line of the text.  It was placed when
  that line was carried out, on the program as it was before the line, and the
  symbols of the finished program resolve its parts
  (`exists_place_of_mem_assemble_line`).  Conversely, where nothing fails, the
  instructions that name a line are all that the line placed, or none of them
  where a later `.start` drops them (`outputAt_cases`).
-/
import PocketAsm.Proofs.Layout

set_option autoImplicit false

namespace PocketAsm

/-- The edit places an instruction. -/
def Edit.isPlace : Edit → Bool
  | .place _ _ _ => true
  | _ => false

/-- The instructions that edits place, from an address upwards. -/
def Edit.instructions : Nat → List Edit → List Placed
  | _, [] => []
  | address, .place parts words source :: edits =>
    .instruction address source parts :: instructions (address + words) edits
  | address, _ :: edits => instructions address edits

/-- The source line that a placed line names. -/
def Placed.line : Placed → Nat
  | .label _ source => source.line
  | .instruction _ source _ => source.line

/-- The line is an instruction of the source line with the given number. -/
def Placed.isFrom (number : Nat) : Placed → Bool
  | .label _ _ => false
  | .instruction _ source _ => source.line == number

@[inherit_doc Placed.isFrom]
def OutputLine.isFrom (number : Nat) : OutputLine → Bool
  | .label _ => false
  | .instruction _ _ source => source.line == number

/-- The edits of a line that succeeds; those of one that fails are undone. -/
def Outcome.kept (outcome : Outcome) : List Edit :=
  if outcome.fault.isNone then outcome.edits else []

namespace Dialect

variable {dialect : Dialect} {maxWords : Nat} {text : String}

/-! ## A line of a text -/

/-- The instruction on the line with the given number. -/
def instructionAt (dialect : Dialect) (text : String) (number : Nat) : String :=
  dialect.instructionOf ((Text.lines text).getD number "")

/-- The program before the line with the given number. -/
def programBefore (dialect : Dialect) (text : String) (number : Nat) : Program :=
  (dialect.placeLines 0 ((Text.lines text).take number) (.start dialect.encoding) #[]).1

/-- What the line with the given number comes to. -/
def outcomeAt (dialect : Dialect) (text : String) (number : Nat) : Outcome :=
  dialect.placeLine number ((Text.lines text).getD number "") (dialect.programBefore text number)

/-- Characters that no mark of a comment begins with are kept. -/
theorem beforeComment_append {marks : List (List Char)} {xs : List Char}
    (h : ∀ mark ∈ marks, ∃ c ∈ mark.head?, c ∉ xs) (cs : List Char) :
    beforeComment marks (xs ++ cs) = xs ++ beforeComment marks cs := by
  induction xs with
  | nil => rfl
  | cons d xs ih =>
    have hnone : marks.any (·.isPrefixOf (d :: (xs ++ cs))) = false := by
      rw [List.any_eq_false]
      intro mark hmark hbegins
      obtain ⟨c, hc, hnot⟩ := h mark hmark
      cases mark with
      | nil => simp at hc
      | cons m mark =>
        obtain rfl : m = c := by simpa using hc
        simp only [List.isPrefixOf, Bool.and_eq_true, beq_iff_eq] at hbegins
        exact hnot (hbegins.1 ▸ List.mem_cons_self)
    have htail : ∀ mark ∈ marks, ∃ c ∈ mark.head?, c ∉ xs := by
      intro mark hmark
      obtain ⟨c, hc, hnot⟩ := h mark hmark
      exact ⟨c, hc, fun hmem => hnot (List.mem_cons_of_mem d hmem)⟩
    rw [List.cons_append, beforeComment, hnone, ih htail]
    rfl

/-! ## Edits name their line -/

theorem comesFrom_of_mem_perform (source : Source) {p : Program} {action : Action} {e : Edit}
    (h : e ∈ (dialect.perform source p action).edits) : e.ComesFrom source.line :=
  (mem_perform h).2

/-- Whatever a text expands into names the line of the text. -/
theorem comesFrom_of_mem_placeText {source : Source} {e : Edit} :
    ∀ (levels : Nat) (text : String) (p : Program),
      e ∈ (dialect.placeText levels source text p).edits → e.ComesFrom source.line := by
  intro levels
  induction levels generalizing e with
  | zero =>
    intro text p he
    obtain hnil | ⟨_, _, _, hlevels, _⟩ | ⟨action, _, _, heq⟩ :=
      placeText_cases dialect 0 source text p
    · simp [hnil] at he
    · simp at hlevels
    · rw [heq] at he
      exact comesFrom_of_mem_perform { source with matched := text } he
  | succ levels ih =>
    intro text p he
    obtain hnil | ⟨lines, further, _, hlevels, heq⟩ | ⟨action, _, _, heq⟩ :=
      placeText_cases dialect (levels + 1) source text p
    · simp [hnil] at he
    · obtain rfl : levels = further := by simpa using hlevels
      rw [heq] at he
      exact placeAll_forall (P := fun _ => True) (Q := fun e => e.ComesFrom source.line)
        (fun _ _ _ _ => trivial) lines p [] (fun line _ q _ _ => ih line q) trivial (by simp) e he
    · rw [heq] at he
      exact comesFrom_of_mem_perform { source with matched := text } he

theorem comesFrom_of_mem_placeLine {number : Nat} {raw : String} {p : Program} {e : Edit}
    (h : e ∈ (dialect.placeLine number raw p).edits) : e.ComesFrom number :=
  comesFrom_of_mem_placeText maxExpansions _ p h

/-- The edits of a pass name lines from its first one to its last one. -/
theorem exists_comesFrom_of_mem_passEdits {e : Edit} :
    ∀ (lines : List String) (number : Nat) (p : Program),
      e ∈ dialect.passEdits number lines p → ∃ i < lines.length, e.ComesFrom (number + i) := by
  intro lines
  induction lines with
  | nil => intro number p h; simp [passEdits] at h
  | cons raw rest ih =>
    intro number p h
    -- an edit of a later line names it by its number in the rest
    have hrest : ∀ q, e ∈ dialect.passEdits (number + 1) rest q →
        ∃ i < (raw :: rest).length, e.ComesFrom (number + i) := by
      intro q hq
      obtain ⟨i, hi, hfrom⟩ := ih (number + 1) q hq
      refine ⟨i + 1, by simpa using hi, ?_⟩
      rwa [Nat.add_comm i 1, ← Nat.add_assoc]
    cases hfault : (dialect.placeLine number raw p).fault with
    | some fault => exact hrest p (passEdits_of_fault hfault ▸ h)
    | none =>
      rw [passEdits_of_ok hfault] at h
      rcases List.mem_append.mp h with h | h
      · exact ⟨0, by simp, comesFrom_of_mem_placeLine h⟩
      · exact hrest _ h

/-! ## The edits of a text, taken apart at a line -/

theorem passEdits_append (dialect : Dialect) (first second : List String) :
    ∀ (number : Nat) (p : Program),
      dialect.passEdits number (first ++ second) p =
        dialect.passEdits number first p ++
          dialect.passEdits (number + first.length) second
            (p.applyAll (dialect.passEdits number first p)) := by
  induction first with
  | nil => intro number p; rfl
  | cons raw rest ih =>
    intro number p
    have hlength : number + 1 + rest.length = number + (raw :: rest).length := by
      rw [List.length_cons]
      omega
    rw [List.cons_append]
    cases hfault : (dialect.placeLine number raw p).fault with
    | some fault => rw [passEdits_of_fault hfault, passEdits_of_fault hfault, ih, hlength]
    | none =>
      rw [passEdits_of_ok hfault, passEdits_of_ok hfault, ih, hlength, Program.applyAll_append,
        List.append_assoc]

/-- The edits of a pass are those that its first line leaves, and then those of the other lines. -/
theorem passEdits_cons (dialect : Dialect) (number : Nat) (raw : String) (rest : List String)
    (p : Program) :
    dialect.passEdits number (raw :: rest) p =
      (dialect.placeLine number raw p).kept ++ dialect.passEdits (number + 1) rest
        (p.applyAll (dialect.placeLine number raw p).kept) := by
  cases hfault : (dialect.placeLine number raw p).fault with
  | some fault =>
    rw [passEdits_of_fault hfault]
    simp [Outcome.kept, hfault]
  | none =>
    rw [passEdits_of_ok hfault]
    simp [Outcome.kept, hfault]

/-- The faults of a pass are that of its first line, if it fails, and then those of the others. -/
theorem passFaults_cons (dialect : Dialect) (number : Nat) (raw : String) (rest : List String)
    (p : Program) :
    dialect.passFaults number (raw :: rest) p =
      ((dialect.placeLine number raw p).fault.map (Diagnostic.mk number)).toList ++
        dialect.passFaults (number + 1) rest
          (p.applyAll (dialect.placeLine number raw p).kept) := by
  cases hfault : (dialect.placeLine number raw p).fault with
  | some fault =>
    rw [passFaults_of_fault hfault]
    simp [Outcome.kept, hfault]
  | none =>
    rw [passFaults_of_ok hfault]
    simp [Outcome.kept, hfault]

theorem programBefore_eq (hdialect : dialect.WellFormed maxWords) (text : String) (number : Nat) :
    dialect.programBefore text number =
      (Program.start dialect.encoding).applyAll
        (dialect.passEdits 0 ((Text.lines text).take number) (.start dialect.encoding)) := by
  rw [programBefore, placeLines_eq hdialect]

/-- What a line leaves is there before the next one. -/
theorem programBefore_succ (hdialect : dialect.WellFormed maxWords) (text : String)
    (number : Nat) :
    dialect.programBefore text (number + 1) =
      (dialect.programBefore text number).applyAll (dialect.outcomeAt text number).kept := by
  rw [programBefore_eq hdialect text (number + 1), List.take_add_one, passEdits_append,
    Program.applyAll_append, ← programBefore_eq hdialect, outcomeAt, List.getD_eq_getElem?_getD]
  cases hget : (Text.lines text)[number]? with
  | none =>
    rw [Option.getD_none, placeLine_empty]
    rfl
  | some raw =>
    have hlength : 0 + ((Text.lines text).take number).length = number := by
      have hlt := (List.getElem?_eq_some_iff.mp hget).1
      rw [List.length_take]
      omega
    rw [hlength, Option.toList_some, passEdits_cons, Option.getD_some]
    simp [passEdits]

/-- The edits of the lines behind the one with the given number. -/
def laterEdits (dialect : Dialect) (text : String) (number : Nat) : List Edit :=
  dialect.passEdits (number + 1) ((Text.lines text).drop (number + 1))
    ((dialect.programBefore text number).applyAll (dialect.outcomeAt text number).kept)

theorem exists_comesFrom_of_mem_laterEdits {number : Nat} {e : Edit}
    (h : e ∈ dialect.laterEdits text number) : ∃ n, number < n ∧ e.ComesFrom n := by
  obtain ⟨i, -, hfrom⟩ := exists_comesFrom_of_mem_passEdits _ _ _ h
  exact ⟨number + 1 + i, by omega, hfrom⟩

/-- The finished program is the one before a line, changed by the line and by those behind it. -/
theorem firstPass_eq_later (hdialect : dialect.WellFormed maxWords) (text : String)
    (number : Nat) :
    (dialect.firstPass text).1 =
      ((dialect.programBefore text number).applyAll
        (dialect.outcomeAt text number).kept).applyAll (dialect.laterEdits text number) := by
  have hsplit := passEdits_append dialect ((Text.lines text).take number)
    ((Text.lines text).drop number) 0 (.start dialect.encoding)
  rw [List.take_append_drop, ← programBefore_eq hdialect] at hsplit
  rw [program_eq hdialect, edits, hsplit, Program.applyAll_append, ← programBefore_eq hdialect,
    laterEdits, ← List.drop_drop]
  cases hdrop : (Text.lines text).drop number with
  | nil =>
    -- behind the last line there is nothing to be done
    have hlength : (Text.lines text).length ≤ number := List.drop_eq_nil_iff.mp hdrop
    have hnothing : dialect.outcomeAt text number = .nothing := by
      rw [outcomeAt, List.getD_eq_getElem?_getD, List.getElem?_eq_none hlength, Option.getD_none,
        placeLine_empty]
    rw [hnothing]
    rfl
  | cons raw rest =>
    have hget : (Text.lines text)[number]? = some raw := by
      rw [← List.head?_drop, hdrop, List.head?_cons]
    obtain ⟨hlt, -⟩ := List.getElem?_eq_some_iff.mp hget
    have hlength : 0 + ((Text.lines text).take number).length = number := by
      rw [List.length_take]
      omega
    have hline : (Text.lines text).getD number "" = raw := by
      rw [List.getD_eq_getElem?_getD, hget, Option.getD_some]
    rw [hlength, passEdits_cons, Program.applyAll_append, outcomeAt, hline]
    rfl

/-- The edits before a line name earlier lines. -/
theorem lt_of_mem_earlier_edits {number : Nat} {parts : List Part} {words : Nat} {source : Source}
    (h : .place parts words source ∈
      dialect.passEdits 0 ((Text.lines text).take number) (.start dialect.encoding)) :
    source.line < number := by
  obtain ⟨i, hi, hfrom⟩ := exists_comesFrom_of_mem_passEdits _ _ _ h
  have hline : source.line = 0 + i := hfrom
  rw [List.length_take] at hi
  omega

/-! ## The line of an instruction -/

/-- An instruction of the output stands in the finished program, which resolves its parts. -/
theorem exists_placed_of_mem_assemble {address : Nat} {bits : Bits} {source : Source}
    (h : .instruction address bits source ∈ (dialect.assemble text).lines) :
    ∃ parts, .instruction address source parts ∈ (dialect.firstPass text).1.lines ∧
      (dialect.symbols (dialect.firstPass text).1).partsBits parts = .ok bits := by
  obtain ⟨placed, hmem, hresolve⟩ := List.mem_map.mp (mem_finished.mp h)
  obtain ⟨parts, rfl, hbits⟩ := resolveLine_eq_instruction hresolve
  exact ⟨parts, Array.mem_def.mpr hmem, partsBits_of_instructionBits hbits⟩

/-- An instruction of the output was placed by the line that it names: that line succeeds, the
address is the one at that moment, and the symbols of the program resolve the parts to the bits. -/
theorem exists_place_of_mem_assemble_line (hdialect : dialect.WellFormed maxWords) {address : Nat}
    {bits : Bits} {source : Source}
    (h : .instruction address bits source ∈ (dialect.assemble text).lines) :
    (dialect.outcomeAt text source.line).fault = none ∧
    ∃ before parts words after,
      (dialect.outcomeAt text source.line).edits =
        before ++ Edit.place parts words source :: after ∧
      address = ((dialect.programBefore text source.line).applyAll before).address ∧
      (dialect.symbols (dialect.firstPass text).1).partsBits parts = .ok bits := by
  obtain ⟨parts, hmem, hparts⟩ := exists_placed_of_mem_assemble h
  rw [firstPass_eq_later hdialect text source.line] at hmem
  rcases Program.exists_place_of_mem_lines hmem with hmem | hplace
  · rcases Program.exists_place_of_mem_lines hmem with hmem | hplace
    · -- an instruction that was there before the line names an earlier one
      rw [programBefore_eq hdialect] at hmem
      rcases Program.exists_place_of_mem_lines hmem with hmem | ⟨before, words, after, hedits, -⟩
      · simp [Program.start] at hmem
      · have hplace : .place parts words source ∈ dialect.passEdits 0
            ((Text.lines text).take source.line) (.start dialect.encoding) := by simp [hedits]
        exact absurd (lt_of_mem_earlier_edits hplace) (lt_irrefl _)
    · obtain ⟨before, words, after, hedits, haddress⟩ := hplace
      cases hfault : (dialect.outcomeAt text source.line).fault with
      | some fault => simp [Outcome.kept, hfault] at hedits
      | none =>
        rw [Outcome.kept, hfault, Option.isNone_none, if_pos rfl] at hedits
        exact ⟨rfl, before, parts, words, after, hedits, haddress, hparts⟩
  · obtain ⟨before, words, after, hedits, -⟩ := hplace
    have hlater : .place parts words source ∈ dialect.laterEdits text source.line := by
      simp [hedits]
    obtain ⟨n, hn, hfrom⟩ := exists_comesFrom_of_mem_laterEdits hlater
    have hline : source.line = n := hfrom
    omega

/-! ## The instructions of a line -/

/-- The output that names the line with the given number. -/
def outputAt (dialect : Dialect) (text : String) (number : Nat) : List OutputLine :=
  (dialect.assemble text).lines.filter (·.isFrom number)

end Dialect

namespace Program

variable {p : Program} {number : Nat}

/-- Edits that only place instructions add them all, or none if instructions are not kept. -/
theorem lines_applyAll_places {edits : List Edit} (h : ∀ e ∈ edits, e.isPlace = true) :
    (p.applyAll edits).lines.toList =
      p.lines.toList ++ if p.keeps then Edit.instructions p.address edits else [] := by
  induction edits generalizing p with
  | nil => simp [Edit.instructions]
  | cons e edits ih =>
    obtain ⟨he, hrest⟩ := List.forall_mem_cons.mp h
    cases e with
    | place parts words source =>
      rw [applyAll_cons, ih hrest]
      have hkeeps : (p.apply (.place parts words source)).keeps = p.keeps := rfl
      rw [hkeeps, Edit.instructions]
      by_cases hp : p.keeps <;> simp [apply, hp]
    | _ => simp [Edit.isPlace] at he

/-- Instructions do not change whether instructions are kept. -/
theorem emitting_applyAll_places {edits : List Edit} (h : ∀ e ∈ edits, e.isPlace = true) :
    (p.applyAll edits).emitting = p.emitting := by
  refine applyAll_induction (P := fun q => q.emitting = p.emitting) ?_ edits rfl h
  intro q e hq he
  cases e with
  | place parts words source => exact hq
  | _ => simp [Edit.isPlace] at he

/-- Edits of other lines leave the instructions of a line as they are, or drop them all; which of
the two depends on whether instructions are kept before them. -/
theorem exists_keep_applyAll {edits : List Edit}
    (h : ∀ e ∈ edits, ∃ n, number < n ∧ e.ComesFrom n) (emitting : Option Bool) :
    ∃ keep : Bool, ∀ p : Program, p.emitting = emitting →
      (p.applyAll edits).lines.toList.filter (·.isFrom number) =
        if keep then p.lines.toList.filter (·.isFrom number) else [] := by
  have step (e : Edit) (he : ∃ n, number < n ∧ e.ComesFrom n) (emitting : Option Bool) :
      ∃ (after : Option Bool) (keep : Bool), ∀ p : Program, p.emitting = emitting →
        (p.apply e).emitting = after ∧ (p.apply e).lines.toList.filter (·.isFrom number) =
          if keep then p.lines.toList.filter (·.isFrom number) else [] := by
    cases e with
    | place parts words source =>
      obtain ⟨n, hn, hfrom⟩ := he
      have hline : source.line = n := hfrom
      have hne : (source.line == number) = false := by
        rw [beq_eq_false_iff_ne]
        omega
      refine ⟨emitting, true, fun p hp => ⟨hp, ?_⟩⟩
      by_cases hkeeps : p.keeps <;> simp [apply, hkeeps, Placed.isFrom, hne]
    | label name source => exact ⟨emitting, true, fun p hp => ⟨hp, by simp [apply, Placed.isFrom]⟩⟩
    | resume =>
      refine ⟨some true, !emitting.isNone, fun p hp => ⟨rfl, ?_⟩⟩
      cases emitting <;> simp [apply, hp]
    | stop => exact ⟨some false, true, fun p _ => ⟨rfl, rfl⟩⟩
    | _ => exact ⟨emitting, true, fun p hp => ⟨hp, rfl⟩⟩
  induction edits generalizing emitting with
  | nil => exact ⟨true, fun p _ => rfl⟩
  | cons e edits ih =>
    obtain ⟨he, hrest⟩ := List.forall_mem_cons.mp h
    obtain ⟨after, keep, hstep⟩ := step e he emitting
    obtain ⟨keep', hedits⟩ := ih hrest after
    refine ⟨keep' && keep, fun p hp => ?_⟩
    obtain ⟨hafter, hfilter⟩ := hstep p hp
    rw [applyAll_cons, hedits _ hafter, hfilter]
    cases keep' <;> rfl

end Program

namespace Dialect

variable {dialect : Dialect} {maxWords : Nat} {text : String} {number : Nat}

theorem finished_ok (line : OutputLine) (results : List (Except Diagnostic OutputLine)) :
    finished (.ok line :: results) = line :: finished results := rfl

theorem finished_error (d : Diagnostic) (results : List (Except Diagnostic OutputLine)) :
    finished (.error d :: results) = finished results := rfl

theorem finished_map_ok (lines : List OutputLine) : finished (lines.map .ok) = lines := by
  induction lines with
  | nil => rfl
  | cons line lines ih => rw [List.map_cons, finished_ok, ih]

theorem failed_map_ok (lines : List OutputLine) : failed (lines.map .ok) = [] := by
  simp [failed]

/-- Resolving a line does not change what source line it names. -/
theorem filter_finished (symbols : Symbols) (lines : List Placed) :
    (finished (lines.map (dialect.resolveLine symbols))).filter (·.isFrom number) =
      finished ((lines.filter (·.isFrom number)).map (dialect.resolveLine symbols)) := by
  induction lines with
  | nil => rfl
  | cons placed lines ih =>
    rw [List.map_cons, List.filter_cons]
    cases hresolve : dialect.resolveLine symbols placed with
    | error d =>
      rw [finished_error, ih]
      split
      · rw [List.map_cons, hresolve, finished_error]
      · rfl
    | ok line =>
      have hfrom : line.isFrom number = placed.isFrom number := by
        cases line with
        | label name =>
          cases placed with
          | label name source => rfl
          | instruction address source parts =>
            rw [resolveLine] at hresolve
            split at hresolve <;> simp at hresolve
        | instruction address bits source =>
          obtain ⟨parts, rfl, -⟩ := resolveLine_eq_instruction hresolve
          rfl
      rw [finished_ok, List.filter_cons, ih, hfrom]
      split
      · rw [List.map_cons, hresolve, finished_ok]
      · rfl

/-- Where nothing fails every line is finished. -/
theorem forall₂_finished {results : List (Except Diagnostic OutputLine)}
    (h : failed results = []) :
    List.Forall₂ (fun result line => result = .ok line) results (finished results) := by
  induction results with
  | nil => exact .nil
  | cons result results ih =>
    cases result with
    | error d => simp [failed] at h
    | ok line => exact .cons rfl (ih h)

/-- No instruction that stands before a line names it. -/
theorem filter_isFrom_programBefore (hdialect : dialect.WellFormed maxWords) (text : String)
    (number : Nat) :
    (dialect.programBefore text number).lines.toList.filter (·.isFrom number) = [] := by
  rw [List.filter_eq_nil_iff]
  intro placed hmem hfrom
  cases placed with
  | label name source => simp [Placed.isFrom] at hfrom
  | instruction address source parts =>
    have hline : source.line = number := by simpa [Placed.isFrom] using hfrom
    rw [programBefore_eq hdialect] at hmem
    rcases Program.exists_place_of_mem_lines (Array.mem_def.mpr hmem) with
      hmem | ⟨before, words, after, hedits, -⟩
    · simp [Program.start] at hmem
    · have hplace : .place parts words source ∈ dialect.passEdits 0
          ((Text.lines text).take number) (.start dialect.encoding) := by simp [hedits]
      have hlt := lt_of_mem_earlier_edits hplace
      omega

theorem isFrom_instructions {edits : List Edit} (h : ∀ e ∈ edits, e.ComesFrom number)
    {address : Nat} : ∀ placed ∈ Edit.instructions address edits, placed.isFrom number = true := by
  induction edits generalizing address with
  | nil => simp [Edit.instructions]
  | cons e edits ih =>
    obtain ⟨he, hrest⟩ := List.forall_mem_cons.mp h
    cases e with
    | place parts words source =>
      rw [Edit.instructions, List.forall_mem_cons]
      exact ⟨beq_iff_eq.mpr he, ih hrest⟩
    | _ => exact ih hrest

/-- The instructions of the finished program that name the line with the given number. -/
def placedAt (dialect : Dialect) (text : String) (number : Nat) : List Placed :=
  (dialect.firstPass text).1.lines.toList.filter (·.isFrom number)

/-- The output that names a line is what becomes of the instructions that name it. -/
theorem outputAt_eq (dialect : Dialect) (text : String) (number : Nat) :
    dialect.outputAt text number = finished ((dialect.placedAt text number).map
      (dialect.resolveLine (dialect.symbols (dialect.firstPass text).1))) :=
  filter_finished _ _

/-- Of the instructions that a line places the program keeps all of them, or none, whatever they
are. -/
theorem placedAt_eq (hdialect : dialect.WellFormed maxWords)
    (hplaces : ∀ e ∈ (dialect.outcomeAt text number).kept, e.isPlace = true) {keep : Bool}
    (hkeep : ∀ p : Program, p.emitting = (dialect.programBefore text number).emitting →
      (p.applyAll (dialect.laterEdits text number)).lines.toList.filter (·.isFrom number) =
        if keep then p.lines.toList.filter (·.isFrom number) else []) :
    dialect.placedAt text number =
      if keep && (dialect.programBefore text number).keeps then
        Edit.instructions (dialect.programBefore text number).address
          (dialect.outcomeAt text number).kept
      else [] := by
  have hfrom : ∀ e ∈ (dialect.outcomeAt text number).kept, e.ComesFrom number := by
    intro e he
    rw [Outcome.kept] at he
    split at he
    · exact comesFrom_of_mem_placeLine he
    · simp at he
  rw [placedAt, firstPass_eq_later hdialect text number,
    hkeep _ (Program.emitting_applyAll_places hplaces), Program.lines_applyAll_places hplaces,
    List.filter_append, filter_isFrom_programBefore hdialect, List.nil_append]
  cases keep with
  | false => rfl
  | true =>
    rw [if_pos rfl, Bool.true_and]
    split
    · exact List.filter_eq_self.mpr (isFrom_instructions hfrom)
    · rfl

/-- Of a line that only places instructions the program keeps all of them, or none. -/
theorem placedAt_cases (hdialect : dialect.WellFormed maxWords)
    (hplaces : ∀ e ∈ (dialect.outcomeAt text number).kept, e.isPlace = true) :
    dialect.placedAt text number = [] ∨
      dialect.placedAt text number = Edit.instructions (dialect.programBefore text number).address
        (dialect.outcomeAt text number).kept := by
  obtain ⟨keep, hkeep⟩ := Program.exists_keep_applyAll
    (fun e he => exists_comesFrom_of_mem_laterEdits he) (dialect.programBefore text number).emitting
  rw [placedAt_eq hdialect hplaces hkeep]
  split
  · exact .inr rfl
  · exact .inl rfl

/-- Of a line that only places instructions the output has all of them, resolved one by one, or
none. -/
theorem outputAt_cases (hdialect : dialect.WellFormed maxWords)
    (hok : (dialect.assemble text).errors = [])
    (hplaces : ∀ e ∈ (dialect.outcomeAt text number).kept, e.isPlace = true) :
    dialect.outputAt text number = [] ∨
      List.Forall₂ (fun placed line =>
          dialect.resolveLine (dialect.symbols (dialect.firstPass text).1) placed = .ok line)
        (Edit.instructions (dialect.programBefore text number).address
          (dialect.outcomeAt text number).kept)
        (dialect.outputAt text number) := by
  have houtput := dialect.outputAt_eq text number
  rcases placedAt_cases hdialect hplaces with hplaced | hplaced
  · left
    rw [houtput, hplaced]
    rfl
  · right
    have hfailed : failed ((dialect.placedAt text number).map
        (dialect.resolveLine (dialect.symbols (dialect.firstPass text).1))) = [] := by
      have hall : failed (dialect.secondPass (dialect.firstPass text).1) = [] :=
        (List.append_eq_nil_iff.mp hok).2
      rw [List.eq_nil_iff_forall_not_mem] at hall ⊢
      intro d hd
      obtain ⟨placed, hmem, hresolve⟩ := List.mem_map.mp (mem_failed.mp hd)
      have hmapped := List.mem_map.mpr ⟨placed, List.mem_of_mem_filter hmem, hresolve⟩
      exact hall d (mem_failed.mpr hmapped)
    have hresolved := forall₂_finished hfailed
    rwa [← houtput, hplaced, List.forall₂_map_left_iff] at hresolved

end Dialect

end PocketAsm

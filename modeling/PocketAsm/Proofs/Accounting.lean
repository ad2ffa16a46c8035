/-
  Proofs/Accounting.lean --- nothing is lost between the two passes.

  Every edit suits the program that it is made on: a label is new, and the
  references of an instruction count from its address (`Program.Suited`).  That
  keeps the labels apart and the references true (`Program.Coherent`).  Edits
  name their lines in order and never a line that fails, so the faults of the
  second pass are told apart from those of the first one by their lines.  The
  second pass turns each placed line into one line of the output or into one
  fault.
-/
import PocketAsm.Proofs.Origin

set_option autoImplicit false

namespace PocketAsm

/-! ## Edits that suit a program -/

/-- The first pass can make the edit on this program: references count from the current address, and
a label is new. -/
def Edit.Suits (p : Program) : Edit → Prop
  | .place parts _ _ => ∀ r : Reference, .ref r ∈ parts → r.origin = p.address
  | .label name _ => Program.defines p.labels name = false
  | _ => True

theorem Edit.suits_place_bits (p : Program) (bits : Bits) (words : Nat) (source : Source) :
    (Edit.place [.bits bits] words source).Suits p := by
  simp [Edit.Suits]

namespace Program

/-- Each edit suits the program that the edits before it leave. -/
def Suited : Program → List Edit → Prop
  | _, [] => True
  | p, e :: edits => e.Suits p ∧ (p.apply e).Suited edits

theorem suited_append {p : Program} {first second : List Edit} :
    p.Suited (first ++ second) ↔ p.Suited first ∧ (p.applyAll first).Suited second := by
  induction first generalizing p with
  | nil => simp [Suited]
  | cons e first ih => rw [List.cons_append, Suited, Suited, applyAll_cons, ih, and_assoc]

theorem suited_of_forall {edits : List Edit} (h : ∀ e ∈ edits, ∀ q : Program, e.Suits q)
    (p : Program) :
    p.Suited edits := by
  induction edits generalizing p with
  | nil => trivial
  | cons e edits ih =>
    obtain ⟨he, hedits⟩ := List.forall_mem_cons.mp h
    exact ⟨he p, ih hedits _⟩

/-- What each edit that suits the program keeps, a run of them keeps. -/
theorem Suited.induction {P : Program → Prop} (step : ∀ p e, P p → e.Suits p → P (p.apply e))
    {edits : List Edit} {p : Program} (h : p.Suited edits) (hp : P p) : P (p.applyAll edits) := by
  induction edits generalizing p with
  | nil => exact hp
  | cons e edits ih => exact ih h.2 (step p e hp h.1)

end Program

namespace Dialect

variable {dialect : Dialect} {p : Program}

theorem origin_of_operand {text : String} {width : Nat} {signed relative : Bool} {r : Reference}
    (h : dialect.operand p text width signed relative = .ok (.ref r)) : r.origin = p.address := by
  unfold operand at h
  split at h
  · cases h
  · split at h <;> cases h
  · obtain rfl := Part.ref.inj (Except.ok.inj h)
    rfl

theorem origin_of_fieldParts {fields : List Field} {parts : List Part}
    (h : dialect.fieldParts p fields = .ok parts) :
    ∀ r : Reference, .ref r ∈ parts → r.origin = p.address := by
  induction fields generalizing parts with
  | nil =>
    obtain rfl := Except.ok.inj h
    simp
  | cons field fields ih =>
    rw [fieldParts] at h
    split at h
    · cases h
    · rename_i part hpart
      split at h
      · cases h
      · rename_i rest hrest
        obtain rfl := Except.ok.inj h
        intro r hr
        rcases List.mem_cons.mp hr with rfl | hr
        · -- only a value makes a reference
          cases field with
          | bits bits => cases hpart
          | register encoded =>
            cases encoded with
            | ok bits => cases hpart
            | error e => cases hpart
          | value text width signed relative => exact origin_of_operand hpart
        · exact ih hrest r hr

/-- Texts that make edits which suit the program make them one after the other. -/
theorem suited_placeAll {place : String → Program → Outcome}
    (hplace : ∀ text (q : Program), q.Suited (place text q).edits) :
    ∀ (texts : List String) (p : Program) (done : List Edit),
      ∃ more, (placeAll place texts p done).edits = done.reverse ++ more ∧ p.Suited more := by
  intro texts
  induction texts with
  | nil =>
    intro p done
    exact ⟨[], (List.append_nil _).symm, trivial⟩
  | cons text texts ih =>
    intro p done
    rw [placeAll]
    split
    · exact ⟨(place text p).edits, by simp, hplace text p⟩
    · obtain ⟨more, hmore, hsuited⟩ :=
        ih (p.applyAll (place text p).edits) ((place text p).edits.reverse ++ done)
      refine ⟨(place text p).edits ++ more, ?_, Program.suited_append.mpr ⟨hplace text p, hsuited⟩⟩
      simp [hmore]

theorem suited_placeAll_nil {place : String → Program → Outcome}
    (hplace : ∀ text (q : Program), q.Suited (place text q).edits) (texts : List String)
    (p : Program) :
    p.Suited (placeAll place texts p []).edits := by
  obtain ⟨more, hmore, hsuited⟩ := suited_placeAll hplace texts p []
  rwa [hmore]

theorem suited_placeItem (symbolWords : Nat) (source : Source) (item : String) (p : Program) :
    p.Suited (dialect.placeItem symbolWords source item p).edits := by
  unfold placeItem
  split
  · trivial
  · dsimp only
    split
    · trivial
    · rename_i part hpart
      refine ⟨fun r hr => ?_, trivial⟩
      obtain rfl := List.mem_singleton.mp hr
      exact origin_of_operand hpart

/-- An action makes edits that suit the program. -/
theorem suited_perform (source : Source) (p : Program) (action : Action) :
    p.Suited (dialect.perform source p action).edits := by
  cases action with
  | emit fields words mark =>
    unfold perform
    dsimp only
    split
    · trivial
    · rename_i parts hparts
      exact ⟨origin_of_fieldParts hparts, trivial⟩
  | label name =>
    unfold perform Program.defineLabel
    dsimp only
    split
    · trivial
    · rename_i hnew
      exact ⟨Bool.eq_false_iff.mpr hnew, trivial⟩
  | data items symbolWords => exact suited_placeAll_nil (suited_placeItem symbolWords _) items p
  | «repeat» item count symbolWords =>
    unfold perform
    dsimp only
    split
    · trivial
    · split
      · exact suited_placeAll_nil (suited_placeItem symbolWords _) _ p
      · trivial
  | align boundary =>
    refine Program.suited_of_forall (fun e he q => ?_) p
    have hmakes := makes_of_mem_perform he
    cases e with
    | place parts words origin =>
      obtain ⟨rfl, -⟩ := hmakes
      exact Edit.suits_place_bits q _ words origin
    | _ => exact hmakes.elim
  | string literal =>
    refine Program.suited_of_forall (fun e he q => ?_) p
    have hmakes := makes_of_mem_perform he
    cases e with
    | place parts words origin =>
      obtain ⟨encoding, characters, bits, -, -, -, rfl, -⟩ := hmakes
      exact Edit.suits_place_bits q _ words origin
    | _ => exact hmakes.elim
  | _ =>
    -- the other actions add no lines
    refine Program.suited_of_forall (fun e he q => ?_) p
    have hmakes := makes_of_mem_perform he
    cases e with
    | place parts words origin => exact hmakes.elim
    | label name origin => exact hmakes.elim
    | _ => trivial

theorem suited_placeText (levels : Nat) :
    ∀ (source : Source) (text : String) (p : Program),
      p.Suited (dialect.placeText levels source text p).edits := by
  induction levels with
  | zero =>
    intro source text p
    obtain hnil | ⟨_, _, _, hlevels, _⟩ | ⟨action, _, _, heq⟩ :=
      placeText_cases dialect 0 source text p
    · rw [hnil]
      trivial
    · simp at hlevels
    · rw [heq]
      exact suited_perform _ p action
  | succ levels ih =>
    intro source text p
    obtain hnil | ⟨lines, further, _, hlevels, heq⟩ | ⟨action, _, _, heq⟩ :=
      placeText_cases dialect (levels + 1) source text p
    · rw [hnil]
      trivial
    · obtain rfl : levels = further := by simpa using hlevels
      rw [heq]
      exact suited_placeAll_nil (ih source) lines p
    · rw [heq]
      exact suited_perform _ p action

theorem suited_passEdits (lines : List String) :
    ∀ (number : Nat) (p : Program), p.Suited (dialect.passEdits number lines p) := by
  induction lines with
  | nil => intro number p; trivial
  | cons raw rest ih =>
    intro number p
    rw [passEdits_cons, Program.suited_append]
    refine ⟨?_, ih _ _⟩
    rw [Outcome.kept]
    split
    · exact suited_placeText _ _ _ _
    · trivial

end Dialect

/-! ## Labels and references -/

/-- The name of a label. -/
def Placed.name? : Placed → Option String
  | .label name _ => some name
  | .instruction .. => none

/-- The line is an instruction. -/
def Placed.isInstruction : Placed → Bool
  | .label .. => false
  | .instruction .. => true

/-- The references of an instruction count from its address. -/
def Placed.Anchored : Placed → Prop
  | .label .. => True
  | .instruction address _ parts => ∀ r : Reference, .ref r ∈ parts → r.origin = address

namespace Program

/-- Labels have names and addresses of their own, those that are kept as lines are among them in
their order, and references count from where they are. -/
structure Coherent (p : Program) : Prop where
  distinct : (p.labels.map (·.1)).Nodup
  nonneg : ∀ entry ∈ p.labels, 0 ≤ entry.2
  names : (p.lines.toList.filterMap Placed.name?).Sublist (p.labels.map (·.1))
  anchored : ∀ placed ∈ p.lines.toList, placed.Anchored

theorem coherent_start (encoding : Option CharEncoding) : (start encoding).Coherent :=
  ⟨List.nodup_nil, by simp [start], List.Sublist.refl _, by simp [start]⟩

theorem Coherent.apply {p : Program} {e : Edit} (h : p.Coherent) (he : e.Suits p) :
    (p.apply e).Coherent := by
  cases e with
  | place parts words source =>
    cases hkeeps : p.keeps with
    | true =>
      refine ⟨h.distinct, h.nonneg, ?_, ?_⟩
      · simpa [Program.apply, hkeeps, List.filterMap_cons, Placed.name?] using h.names
      · simp only [Program.apply, hkeeps, if_true, Array.toList_push, List.forall_mem_append,
          List.forall_mem_singleton]
        exact ⟨h.anchored, he⟩
    | false =>
      refine ⟨h.distinct, h.nonneg, ?_, ?_⟩
      · simpa [Program.apply, hkeeps] using h.names
      · simpa [Program.apply, hkeeps] using h.anchored
  | label name source =>
    have hnew : name ∉ p.labels.map (·.1) := by
      intro hmem
      obtain ⟨entry, hentry, rfl⟩ := List.mem_map.mp hmem
      exact List.any_eq_false.mp he entry hentry (beq_self_eq_true _)
    refine ⟨?_, ?_, ?_, ?_⟩
    · simpa [Program.apply, List.nodup_append] using ⟨h.distinct, fun a b hab heq =>
        hnew (List.mem_map.mpr ⟨(a, b), hab, heq⟩)⟩
    · simp only [Program.apply, List.forall_mem_append, List.forall_mem_singleton]
      exact ⟨h.nonneg, Int.natCast_nonneg _⟩
    · simpa [Program.apply, Placed.name?] using h.names.append (List.Sublist.refl [name])
    · simp only [Program.apply, Array.toList_push, List.forall_mem_append,
        List.forall_mem_singleton]
      exact ⟨h.anchored, trivial⟩
  | resume =>
    cases hnone : p.emitting.isNone with
    | true => exact ⟨h.distinct, h.nonneg, by simp [Program.apply, hnone],
        by simp [Program.apply, hnone]⟩
    | false =>
      refine ⟨h.distinct, h.nonneg, ?_, ?_⟩
      · simpa [Program.apply, hnone] using h.names
      · simpa [Program.apply, hnone] using h.anchored
  | _ => exact ⟨h.distinct, h.nonneg, h.names, h.anchored⟩

end Program

/-! ## Lines of the source -/

/-- The line of the source, of an edit that adds a line. -/
def Edit.line? : Edit → Option Nat
  | .place _ _ source => some source.line
  | .label _ source => some source.line
  | _ => none

theorem Edit.ComesFrom.eq_of_line? {number n : Nat} {e : Edit} (h : e.ComesFrom number)
    (hn : e.line? = some n) : n = number := by
  cases e with
  | place parts words source => exact (Option.some.inj hn).symm.trans h
  | label name source => exact (Option.some.inj hn).symm.trans h
  | _ => cases hn

/-- Edits add lines one behind the other, and may leave some out or drop them. -/
theorem Program.sourceLines_applyAll (edits : List Edit) (p : Program) :
    ((p.applyAll edits).lines.toList.map Placed.line).Sublist
      (p.lines.toList.map Placed.line ++ edits.filterMap Edit.line?) := by
  induction edits generalizing p with
  | nil => simp
  | cons e edits ih =>
    have hstep : ((p.apply e).lines.toList.map Placed.line).Sublist
        (p.lines.toList.map Placed.line ++ e.line?.toList) := by
      cases e with
      | place parts words source =>
        by_cases hkeeps : p.keeps <;>
          simp [Program.apply, hkeeps, Placed.line, Edit.line?]
      | label name source => simp [Program.apply, Placed.line, Edit.line?]
      | resume => by_cases hnone : p.emitting.isNone = true <;>
          simp [Program.apply, hnone, Edit.line?]
      | _ => simp [Program.apply, Edit.line?]
    have hcons : (e :: edits).filterMap Edit.line? =
        e.line?.toList ++ edits.filterMap Edit.line? := by
      rw [List.filterMap_cons]
      cases e.line? <;> rfl
    rw [hcons, ← List.append_assoc]
    exact (ih (p.apply e)).trans (hstep.append_right _)

namespace Dialect

variable {dialect : Dialect}

/-- A pass adds lines of the source from its first one to its last one. -/
theorem le_of_mem_sourceLines {lines : List String} {number : Nat} {p : Program} {n : Nat}
    (h : n ∈ (dialect.passEdits number lines p).filterMap Edit.line?) :
    number ≤ n ∧ n < number + lines.length := by
  obtain ⟨e, he, hn⟩ := List.mem_filterMap.mp h
  obtain ⟨i, hi, hfrom⟩ := exists_comesFrom_of_mem_passEdits lines number p he
  have := hfrom.eq_of_line? hn
  omega

theorem eq_of_mem_sourceLines_kept {number : Nat} {raw : String} {p : Program} {n : Nat}
    (h : n ∈ (dialect.placeLine number raw p).kept.filterMap Edit.line?) : n = number := by
  obtain ⟨e, he, hn⟩ := List.mem_filterMap.mp h
  rw [Outcome.kept] at he
  split at he
  · exact (comesFrom_of_mem_placeLine he).eq_of_line? hn
  · cases he

/-- A pass adds lines in the order of the source. -/
theorem sourceLines_passEdits_pairwise (lines : List String) :
    ∀ (number : Nat) (p : Program),
      ((dialect.passEdits number lines p).filterMap Edit.line?).Pairwise (· ≤ ·) := by
  induction lines with
  | nil => intro number p; exact List.Pairwise.nil
  | cons raw rest ih =>
    intro number p
    rw [passEdits_cons, List.filterMap_append, List.pairwise_append]
    refine ⟨?_, ih _ _, ?_⟩
    · refine List.pairwise_of_forall_mem_list fun a ha b hb => ?_
      rw [eq_of_mem_sourceLines_kept ha, eq_of_mem_sourceLines_kept hb]
    · intro a ha b hb
      obtain rfl := eq_of_mem_sourceLines_kept ha
      exact (Nat.le_succ a).trans (le_of_mem_sourceLines hb).1

/-- The faults of a pass are those of its lines. -/
theorem lt_of_mem_passFaults (lines : List String) :
    ∀ (number : Nat) (p : Program), ∀ d ∈ dialect.passFaults number lines p,
      d.line < ((number + lines.length : Nat) : Int) := by
  induction lines with
  | nil =>
    intro number p d hd
    cases hd
  | cons raw rest ih =>
    intro number p d hd
    rw [List.length_cons]
    rw [passFaults_cons] at hd
    rcases List.mem_append.mp hd with hd | hd
    · obtain ⟨fault, -, rfl⟩ := Option.map_eq_some_iff.mp (Option.mem_toList.mp hd)
      dsimp only
      omega
    · have := ih (number + 1) _ d hd
      omega

/-- Each line that fails is reported once, in the order of the source. -/
theorem passFaults_pairwise (lines : List String) :
    ∀ (number : Nat) (p : Program),
      (dialect.passFaults number lines p).Pairwise fun d d' => d.line < d'.line := by
  induction lines with
  | nil => intro number p; exact List.Pairwise.nil
  | cons raw rest ih =>
    intro number p
    rw [passFaults_cons, List.pairwise_append]
    refine ⟨?_, ih _ _, ?_⟩
    · cases (dialect.placeLine number raw p).fault <;> simp
    · intro d hd d' hd'
      obtain ⟨fault, -, rfl⟩ := Option.map_eq_some_iff.mp (Option.mem_toList.mp hd)
      have := le_line_of_mem_passFaults rest (number + 1) _ d' hd'
      dsimp only
      omega

/-- A line that fails adds nothing. -/
theorem line_ne_of_mem_passFaults (lines : List String) :
    ∀ (number : Nat) (p : Program), ∀ d ∈ dialect.passFaults number lines p,
      ∀ n ∈ (dialect.passEdits number lines p).filterMap Edit.line?, d.line ≠ n := by
  induction lines with
  | nil =>
    intro number p d hd
    cases hd
  | cons raw rest ih =>
    intro number p d hd n hn
    rw [passFaults_cons] at hd
    rw [passEdits_cons, List.filterMap_append] at hn
    rcases List.mem_append.mp hd with hd | hd
    · obtain ⟨fault, hfault, rfl⟩ := Option.map_eq_some_iff.mp (Option.mem_toList.mp hd)
      rcases List.mem_append.mp hn with hn | hn
      · simp [Outcome.kept, hfault] at hn
      · have := (le_of_mem_sourceLines hn).1
        dsimp only
        omega
    · have hle := le_line_of_mem_passFaults rest (number + 1) _ d hd
      rcases List.mem_append.mp hn with hn | hn
      · have := eq_of_mem_sourceLines_kept hn
        omega
      · exact ih _ _ d hd n hn

end Dialect

/-! ## What becomes of a placed line -/

/-- A label comes out as it is, and an instruction at its address with the bits of its parts. -/
def Placed.Becomes (symbols : Symbols) : Placed → OutputLine → Prop
  | .label name _, .label shown => shown = name
  | .instruction address source parts, .instruction place bits origin =>
    place = address ∧ origin = source ∧ symbols.partsBits parts = .ok bits
  | _, _ => False

/-- An instruction is reported with its line of the source. -/
def Placed.FailsWith (dialect : Dialect) (symbols : Symbols) : Placed → Diagnostic → Prop
  | .label .., _ => False
  | .instruction _ source parts, d =>
    d.line = source.line ∧ dialect.instructionBits symbols source parts = .error d.fault

namespace Dialect

variable {dialect : Dialect} {symbols : Symbols}

/-- The second pass finishes the line. -/
def finishes (dialect : Dialect) (symbols : Symbols) (placed : Placed) : Bool :=
  (dialect.resolveLine symbols placed).isOk

theorem finishes_of_ok {placed : Placed} {line : OutputLine}
    (h : dialect.resolveLine symbols placed = .ok line) :
    dialect.finishes symbols placed = true := by
  rw [finishes, h]
  rfl

theorem finishes_of_error {placed : Placed} {d : Diagnostic}
    (h : dialect.resolveLine symbols placed = .error d) :
    dialect.finishes symbols placed = false := by
  rw [finishes, h]
  rfl

theorem becomes_of_resolveLine {placed : Placed} {line : OutputLine}
    (h : dialect.resolveLine symbols placed = .ok line) : placed.Becomes symbols line := by
  cases line with
  | label shown =>
    cases placed with
    | label name source => exact (OutputLine.label.inj (Except.ok.inj h)).symm
    | instruction address source parts =>
      rw [resolveLine] at h
      split at h <;> cases h
  | instruction place bits origin =>
    obtain ⟨parts, rfl, hbits⟩ := resolveLine_eq_instruction h
    exact ⟨rfl, rfl, partsBits_of_instructionBits hbits⟩

theorem failsWith_of_resolveLine {placed : Placed} {d : Diagnostic}
    (h : dialect.resolveLine symbols placed = .error d) : placed.FailsWith dialect symbols d := by
  cases placed with
  | label name source => cases h
  | instruction address source parts =>
    rw [resolveLine] at h
    split at h
    · rename_i fault hfault
      obtain rfl := Except.error.inj h
      exact ⟨rfl, hfault⟩
    · cases h

/-- The output is what the lines that are finished become, one by one. -/
theorem forall₂_becomes (lines : List Placed) :
    List.Forall₂ (Placed.Becomes symbols) (lines.filter (dialect.finishes symbols))
      (finished (lines.map (dialect.resolveLine symbols))) := by
  induction lines with
  | nil => exact .nil
  | cons placed lines ih =>
    rw [List.map_cons]
    cases hresolve : dialect.resolveLine symbols placed with
    | ok line =>
      rw [finished_ok, List.filter_cons_of_pos (finishes_of_ok hresolve)]
      exact .cons (becomes_of_resolveLine hresolve) ih
    | error d =>
      rw [finished_error, List.filter_cons_of_neg (by simp [finishes_of_error hresolve])]
      exact ih

theorem failed_ok (line : OutputLine) (results : List (Except Diagnostic OutputLine)) :
    failed (.ok line :: results) = failed results := rfl

theorem failed_error (d : Diagnostic) (results : List (Except Diagnostic OutputLine)) :
    failed (.error d :: results) = d :: failed results := rfl

/-- The faults are those of the lines that are not finished, one by one. -/
theorem forall₂_failsWith (lines : List Placed) :
    List.Forall₂ (Placed.FailsWith dialect symbols)
      (lines.filter fun placed => !dialect.finishes symbols placed)
      (failed (lines.map (dialect.resolveLine symbols))) := by
  induction lines with
  | nil => exact .nil
  | cons placed lines ih =>
    rw [List.map_cons]
    cases hresolve : dialect.resolveLine symbols placed with
    | ok line =>
      rw [failed_ok, List.filter_cons_of_neg (by simp [finishes_of_ok hresolve])]
      exact ih
    | error d =>
      rw [failed_error, List.filter_cons_of_pos (by simp [finishes_of_error hresolve])]
      exact .cons (failsWith_of_resolveLine hresolve) ih

/-- Each instruction is in the output or among the faults. -/
theorem countP_isInstruction (lines : List Placed) (errors : List Diagnostic) :
    lines.countP Placed.isInstruction =
      Assembly.instructionCount ⟨finished (lines.map (dialect.resolveLine symbols)), errors⟩ +
        (failed (lines.map (dialect.resolveLine symbols))).length := by
  rw [Assembly.instructionCount]
  induction lines with
  | nil => rfl
  | cons placed lines ih =>
    rw [List.map_cons, List.countP_cons, ih]
    cases hresolve : dialect.resolveLine symbols placed with
    | ok line =>
      have hbecomes := becomes_of_resolveLine hresolve
      rw [finished_ok, failed_ok, List.countP_cons]
      cases placed <;> cases line <;> first | exact hbecomes.elim | simp [Placed.isInstruction]
      omega
    | error d =>
      have hfails := failsWith_of_resolveLine hresolve
      rw [finished_error, failed_error, List.length_cons]
      cases placed with
      | label name source => exact hfails.elim
      | instruction address source parts =>
        simp only [Placed.isInstruction, if_true]
        omega

/-- Every label is in the output. -/
theorem labels_finished (lines : List Placed) (errors : List Diagnostic) :
    Assembly.labels ⟨finished (lines.map (dialect.resolveLine symbols)), errors⟩ =
      lines.filterMap Placed.name? := by
  rw [Assembly.labels]
  induction lines with
  | nil => rfl
  | cons placed lines ih =>
    cases placed with
    | label name source => exact congrArg (name :: ·) ih
    | instruction address source parts =>
      rw [List.map_cons, List.filterMap_cons_none rfl, ← ih]
      cases hresolve : dialect.resolveLine symbols (.instruction address source parts) with
      | error d => rfl
      | ok line =>
        have hbecomes := becomes_of_resolveLine hresolve
        cases line with
        | label shown => exact hbecomes.elim
        | instruction place bits origin => rfl

/-- The faults name the lines of the source of those that are not finished. -/
theorem map_line_failed (lines : List Placed) :
    (failed (lines.map (dialect.resolveLine symbols))).map (·.line) =
      (lines.filter fun placed => !dialect.finishes symbols placed).map
        fun placed => (placed.line : Int) := by
  have hline : ∀ placed d, Placed.FailsWith dialect symbols placed d →
      (placed.line : Int) = d.line := by
    intro placed d h
    cases placed with
    | label name source => exact h.elim
    | instruction address source parts => exact h.1.symm
  have hlines : List.Forall₂ Eq
      ((lines.filter fun placed => !dialect.finishes symbols placed).map
        fun placed => (placed.line : Int))
      ((failed (lines.map (dialect.resolveLine symbols))).map (·.line)) := by
    rw [List.forall₂_map_left_iff, List.forall₂_map_right_iff]
    exact (forall₂_failsWith lines).imp hline
  rw [List.forall₂_eq_eq_eq] at hlines
  exact hlines.symm

variable {maxWords : Nat} {text : String}

/-- The program after the first pass. -/
theorem coherent_firstPass (hdialect : dialect.WellFormed maxWords) (text : String) :
    (dialect.firstPass text).1.Coherent := by
  rw [program_eq hdialect]
  exact (suited_passEdits _ 0 _).induction (fun p e hp he => hp.apply he)
    (Program.coherent_start dialect.encoding)

theorem sourceLines_firstPass (hdialect : dialect.WellFormed maxWords) (text : String) :
    ((dialect.firstPass text).1.lines.toList.map Placed.line).Sublist
      ((dialect.passEdits 0 (Text.lines text) (.start dialect.encoding)).filterMap
        Edit.line?) := by
  have h := Program.sourceLines_applyAll (dialect.edits text) (.start dialect.encoding)
  rwa [← program_eq hdialect] at h

/-- The lines of the source that the second pass reports are among those that the first pass
added. -/
theorem lines_secondPass (hdialect : dialect.WellFormed maxWords) (text : String) :
    ∃ numbers : List Nat,
      (failed (dialect.secondPass (dialect.firstPass text).1)).map (·.line) =
        numbers.map (fun n : Nat => (n : Int)) ∧
      numbers.Sublist ((dialect.passEdits 0 (Text.lines text) (.start dialect.encoding)).filterMap
        Edit.line?) := by
  have hfiltered := List.filter_sublist (l := (dialect.firstPass text).1.lines.toList)
    (p := fun placed => !dialect.finishes (dialect.symbols (dialect.firstPass text).1) placed)
  refine ⟨_, ?_, (hfiltered.map _).trans (sourceLines_firstPass hdialect text)⟩
  rw [secondPass, map_line_failed, List.map_map]
  rfl

/-! ## Accounting -/

/-- For every text: the errors are those of the first pass, whose lines increase, and then those of
the second one, whose lines do not decrease; no line has both, and all are lines of the text.  The
output is what becomes of the parsed lines, in order, without those instructions that are errors of
the second pass, and these are its errors, in order; so the instructions and the labels add up.  The
names of the labels differ, addresses are not negative, and references count from the address of
their instruction.  A run that is not ended by a number with too many digits has this result and no
other. -/
theorem passes_lose_nothing {a : Architecture} (ha : a ∈ Architecture.all) (text : String) :
    let p := (a.dialect.firstPass text).1
    let first := (a.dialect.firstPass text).2.toList
    let second := failed (a.dialect.secondPass p)
    let symbols := a.dialect.symbols p
    let result := a.dialect.assemble text
    result.errors = first ++ second ∧
    first.Pairwise (fun d d' => d.line < d'.line) ∧
    second.Pairwise (fun d d' => d.line ≤ d'.line) ∧
    (∀ d ∈ first, ∀ d' ∈ second, d.line ≠ d'.line) ∧
    (∀ d ∈ result.errors, 0 ≤ d.line ∧ d.line < (Text.lines text).length) ∧
    List.Forall₂ (Placed.Becomes symbols) (p.lines.toList.filter (a.dialect.finishes symbols))
      result.lines ∧
    List.Forall₂ (Placed.FailsWith a.dialect symbols)
      (p.lines.toList.filter fun placed => !a.dialect.finishes symbols placed) second ∧
    p.lines.toList.countP Placed.isInstruction = result.instructionCount + second.length ∧
    result.labels = p.lines.toList.filterMap Placed.name? ∧
    result.labels.Nodup ∧
    (∀ entry ∈ p.labels, 0 ≤ entry.2) ∧
    (∀ (address : Nat) source parts, .instruction address source parts ∈ p.lines.toList →
      ∀ r : Reference, .ref r ∈ parts → r.origin = address ∧ 0 ≤ r.origin) ∧
    ∀ found, a.dialect.tryAssemble text = .ok found → found = result := by
  intro p first second symbols result
  have hdialect := Architecture.wellFormed ha
  have hcoherent : p.Coherent := coherent_firstPass hdialect text
  have hfirst : first = a.dialect.passFaults 0 (Text.lines text) (.start a.dialect.encoding) := by
    simp only [first, firstPass_eq hdialect]
  obtain ⟨numbers, hnumbers, hsub⟩ := lines_secondPass hdialect text
  -- a fault of the second pass has the number of a line that the first pass added
  have hsecond : ∀ d ∈ second, ∃ n ∈ numbers, d.line = (n : Int) := by
    intro d hd
    have hmem : d.line ∈ second.map (·.line) := List.mem_map_of_mem hd
    rw [hnumbers] at hmem
    obtain ⟨n, hn, heq⟩ := List.mem_map.mp hmem
    exact ⟨n, hn, heq.symm⟩
  have hlabels : result.labels = p.lines.toList.filterMap Placed.name? := labels_finished _ _
  refine ⟨rfl, ?_, ?_, ?_, ?_, forall₂_becomes _, forall₂_failsWith _, countP_isInstruction _ _,
    hlabels, ?_, hcoherent.nonneg, ?_, fun found hfound => (tryAssemble_eq_ok.mp hfound).2.symm⟩
  · rw [hfirst]
    exact passFaults_pairwise _ _ _
  · have hpairwise := (sourceLines_passEdits_pairwise _ 0 _).sublist hsub
    have hmap : (second.map (·.line)).Pairwise (· ≤ ·) := by
      rw [hnumbers, List.pairwise_map]
      exact hpairwise.imp Int.ofNat_le.mpr
    exact List.pairwise_map.mp hmap
  · intro d hd d' hd'
    obtain ⟨n, hn, heq⟩ := hsecond d' hd'
    rw [hfirst] at hd
    rw [heq]
    exact line_ne_of_mem_passFaults _ _ _ d hd n (hsub.subset hn)
  · intro d hd
    rcases List.mem_append.mp hd with hd | hd
    · replace hd : d ∈ first := hd
      rw [hfirst] at hd
      have hlow := le_line_of_mem_passFaults _ 0 _ d hd
      have hhigh := lt_of_mem_passFaults _ 0 _ d hd
      rw [Nat.zero_add] at hhigh
      exact ⟨hlow, hhigh⟩
    · obtain ⟨n, hn, heq⟩ := hsecond d hd
      have hbounds := le_of_mem_sourceLines (hsub.subset hn)
      rw [heq]
      omega
  · rw [hlabels]
    exact hcoherent.names.nodup hcoherent.distinct
  · intro address source parts hmem r hr
    have horigin : r.origin = address := hcoherent.anchored _ hmem r hr
    exact ⟨horigin, horigin ▸ Int.natCast_nonneg address⟩

/-- A line that is no instruction, a label, and two jumps, one of them to nowhere: two errors, and
the label and one jump are left. -/
theorem jump_to_nowhere_is_reported :
    let dialect := Architecture.v8.dialect
    let text := "jmp nowhere\nmain:\nhello\njmp main"
    let p := (dialect.firstPass text).1
    let result := dialect.assemble text
    result.errors.map (·.line) = [2, 0] ∧ result.labels = ["main"] ∧ result.labels.Nodup ∧
      p.lines.toList.countP Placed.isInstruction = 2 ∧ result.instructionCount = 1 := by
  intro dialect text p result
  have hall : Architecture.v8 ∈ Architecture.all := by simp [Architecture.all]
  obtain ⟨-, -, -, -, -, -, -, hcount, -, hnodup, -⟩ := passes_lose_nothing hall text
  have hrun : result.errors.map (·.line) = [2, 0] ∧ result.labels = ["main"] ∧
      p.lines.toList.countP Placed.isInstruction = 2 ∧
      (failed (dialect.secondPass p)).length = 1 := by
    decide +kernel
  obtain ⟨herrors, hlabels, hplaced, hfailed⟩ := hrun
  have hinstructions : result.instructionCount = 1 := by
    change p.lines.toList.countP Placed.isInstruction =
      result.instructionCount + (failed (dialect.secondPass p)).length at hcount
    omega
  exact ⟨herrors, hlabels, hnodup, hplaced, hinstructions⟩

end Dialect

end PocketAsm

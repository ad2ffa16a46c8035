/-
  Proofs/Expansions.lean --- how far expansions go.

  A rule may expand a text into other ones, which are matched anew.
  `Dialect.Unfolds` counts these steps along a chain of texts.  Whatever the
  rules are, a text is placed by what they say within `maxExpansions` steps of
  it (`placeText_congr_rules`), and a chain that goes on beyond them fails
  (`fault_of_unfolds`, `placeText_of_follow`).

  For a table that is not recursive `Dialect.Bounded` measures a text: how deep
  its expansions go, and how many instructions come out of it in the end.  From
  this measure follow the length of every chain (`Bounded.le_of_unfolds`), the
  number of instructions that are placed (`Bounded.countP_isPlace_le`), and, if
  no rule reports the fault itself, that no expansion is too deep
  (`Bounded.isTooDeep_eq_false`).
-/
import PocketAsm.Proofs.Origin

set_option autoImplicit false

namespace PocketAsm

/-! ## The fault of an expansion -/

namespace Fault

/-- An expansion led to too many further ones. -/
def isTooDeep : Fault → Bool
  | .tooDeep _ _ => true
  | _ => false

theorem isTooDeep_of_isOperand {e : Fault} (h : e.isOperand = true) : e.isTooDeep = false := by
  cases e <;> first | rfl | simp [isOperand] at h

end Fault

/-- A register that is none is not reported as an expansion. -/
def Field.NeverTooDeep (field : Field) : Prop :=
  ∀ e, field = .register (.error e) → e.isTooDeep = false

/-- No fault that the rule of the action has found is that of an expansion. -/
def Action.NeverTooDeep : Action → Prop
  | .emit fields _ _ => ∀ field ∈ fields, field.NeverTooDeep
  | .reject e => e.isTooDeep = false
  | _ => True

/-- The rule expands no line. -/
def Rule.Final (rule : Rule) : Prop := ∀ caps lines, rule.action caps ≠ .expand lines

/-- The rule itself reports no expansion as too deep. -/
def Rule.NeverTooDeep (rule : Rule) : Prop := ∀ caps, (rule.action caps).NeverTooDeep

namespace Dialect

variable {dialect : Dialect}

/-! ## Chains of expansions -/

/-- A text leads to another one in so many expansions, each of which goes on with one of the lines
that the text before is expanded into. -/
inductive Unfolds (dialect : Dialect) : Nat → String → String → Prop where
  | refl (text : String) : Unfolds dialect 0 text text
  | step {n : Nat} {text line last : String} {lines : List String} (hne : text ≠ "")
      (hfind : Rule.find? dialect.rules text.toList = some (.expand lines)) (hline : line ∈ lines)
      (h : Unfolds dialect n line last) : Unfolds dialect (n + 1) text last

/-- The first of the lines that a text is expanded into. -/
def firstLine? (dialect : Dialect) (text : String) : Option String :=
  if text = "" then none
  else
    match Rule.find? dialect.rules text.toList with
    | some (.expand (line :: _)) => some line
    | _ => none

/-- Where a text leads in so many expansions, if each goes on with its first line. -/
def follow? (dialect : Dialect) : Nat → String → Option String
  | 0, text => some text
  | n + 1, text => (dialect.firstLine? text).bind (dialect.follow? n)

theorem firstLine?_eq_some {text line : String} (h : dialect.firstLine? text = some line) :
    text ≠ "" ∧ ∃ lines, Rule.find? dialect.rules text.toList = some (.expand (line :: lines)) := by
  unfold firstLine? at h
  split at h
  · simp at h
  · rename_i hne
    refine ⟨hne, ?_⟩
    split at h
    · rename_i first lines hfind
      obtain rfl := Option.some.inj h
      exact ⟨lines, hfind⟩
    · simp at h

/-! ## One step -/

/-- A text that is expanded is placed by its lines, one level further down. -/
theorem placeText_of_expand {text : String} {lines : List String} (hne : text ≠ "")
    (hfind : Rule.find? dialect.rules text.toList = some (.expand lines)) (levels : Nat)
    (source : Source) (p : Program) :
    dialect.placeText (levels + 1) source text p =
      placeAll (dialect.placeText levels source) lines p [] := by
  rw [placeText, if_neg hne, hfind]
  cases lines <;> rfl

/-- A text that is not expanded is placed by its action, however many levels there are. -/
theorem placeText_of_final {text : String}
    (hfinal : ∀ lines, Rule.find? dialect.rules text.toList ≠ some (.expand lines)) (levels : Nat)
    (source : Source) (p : Program) :
    dialect.placeText levels source text p =
      if text = "" then .nothing
      else
        match Rule.find? dialect.rules text.toList with
        | none => .refused (.unknownInstruction text)
        | some action => dialect.perform { source with matched := text } p action := by
  rw [placeText]
  split
  · rfl
  · cases hfind : Rule.find? dialect.rules text.toList with
    | none => rfl
    | some action =>
      cases action with
      | expand lines => exact absurd hfind (hfinal lines)
      | _ => rfl

/-- Without levels left an expansion is refused. -/
theorem placeText_zero_of_expand {text line : String} {lines : List String} (hne : text ≠ "")
    (hfind : Rule.find? dialect.rules text.toList = some (.expand (line :: lines)))
    (source : Source) (p : Program) :
    dialect.placeText 0 source text p = .refused (.tooDeep line maxExpansions) := by
  rw [placeText, if_neg hne, hfind]

/-! ## Rows of texts -/

/-- The first text that is refused ends a row, if nothing was placed before it. -/
theorem placeAll_refused {place : String → Program → Outcome} {text : String} {fault : Fault}
    {p : Program} (h : place text p = .refused fault) (texts : List String) :
    placeAll place (text :: texts) p [] = .refused fault := by
  rw [placeAll, h]
  rfl

/-- A row fails if one of its texts fails on every program. -/
theorem placeAll_fault {place : String → Program → Outcome} {text : String}
    (h : ∀ p, (place text p).fault ≠ none) :
    ∀ {texts : List String}, text ∈ texts → ∀ (p : Program) (done : List Edit),
      (placeAll place texts p done).fault ≠ none := by
  intro texts
  induction texts with
  | nil => simp
  | cons first texts ih =>
    intro hmem p done
    rw [placeAll]
    cases hfault : (place first p).fault with
    | some e => simp
    | none =>
      rcases List.mem_cons.mp hmem with rfl | hmem
      · exact absurd hfault (h p)
      · exact ih hmem _ _

/-- The fault of a row is that of one of its texts. -/
theorem exists_fault_of_placeAll {place : String → Program → Outcome} {e : Fault} :
    ∀ {texts : List String} {p : Program} {done : List Edit},
      (placeAll place texts p done).fault = some e →
      ∃ text ∈ texts, ∃ q, (place text q).fault = some e := by
  intro texts
  induction texts with
  | nil => intro p done h; simp [placeAll] at h
  | cons first texts ih =>
    intro p done h
    rw [placeAll] at h
    split at h
    · rename_i fault hfault
      exact ⟨first, List.mem_cons_self, p, hfault.trans h⟩
    · obtain ⟨text, hmem, q, hq⟩ := ih h
      exact ⟨text, List.mem_cons_of_mem _ hmem, q, hq⟩

/-- A row places no more instructions than its texts do. -/
theorem placeAll_countP {place : String → Program → Outcome} {texts : List String}
    {counts : List Nat}
    (h : List.Forall₂ (fun text n => ∀ p, (place text p).edits.countP Edit.isPlace ≤ n) texts
      counts) :
    ∀ (p : Program) (done : List Edit),
      (placeAll place texts p done).edits.countP Edit.isPlace ≤
        done.countP Edit.isPlace + counts.sum := by
  induction h with
  | nil =>
    intro p done
    simp [placeAll]
  | @cons text n texts counts hfirst _ ih =>
    intro p done
    have hnext := hfirst p
    rw [placeAll, List.sum_cons]
    split
    · simp only [List.countP_reverse, List.countP_append]
      omega
    · have hrest := ih (p.applyAll (place text p).edits) ((place text p).edits.reverse ++ done)
      simp only [List.countP_reverse, List.countP_append] at hrest
      omega

/-- Rows of texts that are placed in the same way are placed in the same way. -/
theorem placeAll_eq {place place' : String → Program → Outcome} :
    ∀ {texts : List String}, (∀ text ∈ texts, ∀ p, place text p = place' text p) →
      ∀ (p : Program) (done : List Edit), placeAll place texts p done = placeAll place' texts p done
    := by
  intro texts
  induction texts with
  | nil => intro _ p done; rfl
  | cons text texts ih =>
    intro h p done
    obtain ⟨hfirst, hrest⟩ := List.forall_mem_cons.mp h
    rw [placeAll, placeAll, hfirst]
    split
    · rfl
    · exact ih hrest _ _

/-! ## Any table of rules -/

/-- A chain that is longer than the levels that are left makes its text fail. -/
theorem fault_of_unfolds {levels : Nat} :
    ∀ {text last : String}, dialect.Unfolds (levels + 1) text last →
      ∀ (source : Source) (p : Program), (dialect.placeText levels source text p).fault ≠ none := by
  induction levels with
  | zero =>
    intro text last h source p
    cases h with
    | @step _ _ line _ lines hne hfind hline _ =>
      obtain ⟨first, others, rfl⟩ := List.exists_cons_of_ne_nil (List.ne_nil_of_mem hline)
      rw [placeText_zero_of_expand hne hfind]
      simp [Outcome.refused]
  | succ levels ih =>
    intro text last h source p
    cases h with
    | step hne hfind hline h =>
      rw [placeText_of_expand hne hfind]
      exact placeAll_fault (fun q => ih h source q) hline p []

/-- Where the chain goes through first lines only, the fault is that it is too deep, and nothing is
placed before it. -/
theorem placeText_of_follow {levels : Nat} :
    ∀ {text last : String}, dialect.follow? (levels + 1) text = some last →
      ∀ (source : Source) (p : Program),
        dialect.placeText levels source text p = .refused (.tooDeep last maxExpansions) := by
  induction levels with
  | zero =>
    intro text last h source p
    obtain ⟨line, hline, hlast⟩ := Option.bind_eq_some_iff.mp h
    obtain ⟨hne, lines, hfind⟩ := firstLine?_eq_some hline
    obtain rfl : line = last := Option.some.inj hlast
    exact placeText_zero_of_expand hne hfind source p
  | succ levels ih =>
    intro text last h source p
    obtain ⟨line, hline, hlast⟩ := Option.bind_eq_some_iff.mp h
    obtain ⟨hne, lines, hfind⟩ := firstLine?_eq_some hline
    rw [placeText_of_expand hne hfind]
    exact placeAll_refused (ih hlast source p) lines

section Tables

variable (rules : List Rule)

theorem fieldParts_rules (p : Program) (fields : List Field) :
    { dialect with rules := rules }.fieldParts p fields = dialect.fieldParts p fields := by
  induction fields with
  | nil => rfl
  | cons field fields ih =>
    rw [fieldParts, fieldParts, ih]
    rfl

/-- What an action comes to does not depend on the rules. -/
theorem perform_rules (source : Source) (p : Program) (action : Action) :
    { dialect with rules := rules }.perform source p action = dialect.perform source p action := by
  cases action with
  | emit fields words mark =>
    unfold perform
    dsimp only
    rw [fieldParts_rules]
  | _ => rfl

variable {rules}

theorem placeText_eq_of_final {text : String} {levels : Nat} {source : Source} {p : Program}
    (hrules : Rule.find? rules text.toList = Rule.find? dialect.rules text.toList)
    (hfinal : ∀ lines, Rule.find? dialect.rules text.toList ≠ some (.expand lines)) :
    { dialect with rules := rules }.placeText levels source text p =
      dialect.placeText levels source text p := by
  rw [placeText_of_final hfinal, placeText_of_final (by rwa [hrules]), hrules]
  simp only [perform_rules]

/-- No table is asked for a text that is further away than the levels that are left: other rules
which agree on the nearer ones place the text in the same way. -/
theorem placeText_congr_rules {levels : Nat} :
    ∀ {text : String},
      (∀ n line, n ≤ levels → dialect.Unfolds n text line →
        Rule.find? rules line.toList = Rule.find? dialect.rules line.toList) →
      ∀ (source : Source) (p : Program),
        { dialect with rules := rules }.placeText levels source text p =
          dialect.placeText levels source text p := by
  induction levels with
  | zero =>
    intro text h source p
    have hself := h 0 text le_rfl (.refl text)
    by_cases hexpand : ∃ lines, Rule.find? dialect.rules text.toList = some (.expand lines)
    · obtain ⟨lines, hfind⟩ := hexpand
      rw [placeText, placeText, hself, hfind]
      cases lines <;> rfl
    · exact placeText_eq_of_final hself fun lines hfind => hexpand ⟨lines, hfind⟩
  | succ levels ih =>
    intro text h source p
    have hself := h 0 text (Nat.zero_le _) (.refl text)
    by_cases hexpand : ∃ lines, Rule.find? dialect.rules text.toList = some (.expand lines)
    · obtain ⟨lines, hfind⟩ := hexpand
      by_cases hne : text = ""
      · rw [placeText, placeText, if_pos hne, if_pos hne]
      · rw [placeText_of_expand hne hfind, placeText_of_expand hne (hself.trans hfind)]
        refine placeAll_eq (fun line hline q => ih ?_ source q) p []
        intro n last hn hlast
        exact h (n + 1) last (by omega) (.step hne hfind hline hlast)
    · exact placeText_eq_of_final hself fun lines hfind => hexpand ⟨lines, hfind⟩

end Tables

/-! ## The faults of actions -/

section Faults

variable {p : Program} {e : Fault}

theorem isTooDeep_of_literal? {text : String} (h : dialect.literal? p text = .error e) :
    e.isTooDeep = false := by
  unfold literal? at h
  split at h
  · rename_i fault hread
    obtain rfl := Except.error.inj h
    exact Fault.isTooDeep_of_isOperand (NumberSyntax.isOperand_of_read hread)
  · simp at h
  · split at h
    · simp at h
    · -- the encoding lacks the character
      unfold CharLiteral.read CharEncoding.code at h
      split at h
      · simp at h
      · split at h
        · rename_i fault hcode
          split at hcode
          · simp at hcode
          · rw [← Except.error.inj h, ← Except.error.inj hcode]
            rfl
        · simp at h

theorem isTooDeep_of_literal {text : String} (h : dialect.literal p text = .error e) :
    e.isTooDeep = false := by
  unfold literal at h
  split at h
  · rename_i fault hliteral
    obtain rfl := Except.error.inj h
    exact isTooDeep_of_literal? hliteral
  · simp at h
  · rw [← Except.error.inj h]
    rfl

theorem isTooDeep_of_operand {text : String} {width : Nat} {signed relative : Bool}
    (h : dialect.operand p text width signed relative = .error e) : e.isTooDeep = false := by
  unfold operand at h
  split at h
  · rename_i fault hliteral
    obtain rfl := Except.error.inj h
    exact isTooDeep_of_literal? hliteral
  · split at h
    · rename_i fault hencode
      obtain rfl := Except.error.inj h
      exact Fault.isTooDeep_of_isOperand (Bits.isOperand_of_encodeField hencode)
    · simp at h
  · simp at h

theorem isTooDeep_of_fieldParts {fields : List Field}
    (hfields : ∀ field ∈ fields, field.NeverTooDeep)
    (h : dialect.fieldParts p fields = .error e) : e.isTooDeep = false := by
  induction fields with
  | nil => simp [fieldParts] at h
  | cons field fields ih =>
    obtain ⟨hfirst, hfields⟩ := List.forall_mem_cons.mp hfields
    rw [fieldParts] at h
    split at h
    · rename_i fault hfield
      obtain rfl := Except.error.inj h
      cases field with
      | bits bits => simp [fieldPart] at hfield
      | value text width signed relative => exact isTooDeep_of_operand hfield
      | register code =>
        cases code with
        | ok bits => simp [fieldPart] at hfield
        | error fault' =>
          rw [← Except.error.inj hfield]
          exact hfirst fault' rfl
    · split at h
      · rename_i fault hrest
        obtain rfl := Except.error.inj h
        exact ih hfields hrest
      · simp at h

theorem isTooDeep_of_placeItem {symbolWords : Nat} {source : Source} {item : String}
    (h : (dialect.placeItem symbolWords source item p).fault = some e) : e.isTooDeep = false := by
  unfold placeItem at h
  split at h
  · rename_i fault hliteral
    obtain rfl := Option.some.inj h
    exact isTooDeep_of_literal? hliteral
  · dsimp only at h
    split at h
    · rename_i fault hoperand
      obtain rfl := Option.some.inj h
      exact isTooDeep_of_operand hoperand
    · simp at h

theorem isTooDeep_of_characterBits {encoding : CharEncoding} :
    ∀ {characters : List String}, characterBits encoding characters = .error e →
      e.isTooDeep = false := by
  intro characters
  induction characters with
  | nil => simp [characterBits]
  | cons c characters ih =>
    intro h
    rw [characterBits] at h
    split at h
    · rename_i fault hcode
      unfold CharEncoding.code at hcode
      split at hcode
      · simp at hcode
      · rw [← Except.error.inj h, ← Except.error.inj hcode]
        rfl
    · split at h
      · rename_i fault hencode
        simp only [Bits.encode] at hencode
        split at hencode
        · simp at hencode
        · rw [← Except.error.inj h, ← Except.error.inj hencode]
          rfl
      · split at h
        · rename_i fault hrest
          obtain rfl := Except.error.inj h
          exact ih hrest
        · simp at h

theorem isTooDeep_of_placeWords {encoding : CharEncoding} {wordSize : Nat} {source : Source} :
    ∀ {words : List (List String)} {done : List Edit},
      (placeWords encoding wordSize source words done).fault = some e → e.isTooDeep = false := by
  intro words
  induction words with
  | nil => simp [placeWords]
  | cons characters words ih =>
    intro done h
    rw [placeWords] at h
    split at h
    · rename_i fault hcharacters
      obtain rfl := Option.some.inj h
      exact isTooDeep_of_characterBits hcharacters
    · exact ih h

/-- What needs the value of a literal fails for the literal, or for the value. -/
theorem isTooDeep_of_literalThen {text : String} {next : Int → Outcome}
    (hnext : ∀ n, (next n).fault = some e → e.isTooDeep = false)
    (h : (match dialect.literal p text with
      | .error fault => Outcome.refused fault
      | .ok n => next n).fault = some e) : e.isTooDeep = false := by
  split at h
  · rename_i fault hliteral
    obtain rfl := Option.some.inj h
    exact isTooDeep_of_literal hliteral
  · exact hnext _ h

/-- An action fails for an operand, or with a fault that its rule has found. -/
theorem isTooDeep_of_perform {source : Source} {action : Action}
    (haction : action.NeverTooDeep)
    (h : (dialect.perform source p action).fault = some e) : e.isTooDeep = false := by
  cases action with
  | emit fields words mark =>
    unfold perform at h
    dsimp only at h
    split at h
    · rename_i fault hfields
      obtain rfl := Option.some.inj h
      exact isTooDeep_of_fieldParts haction hfields
    · simp at h
  | expand lines => cases h
  | reject fault =>
    rw [← Option.some.inj h]
    exact haction
  | label name =>
    unfold perform Program.defineLabel at h
    dsimp only at h
    split at h
    · rw [← Option.some.inj h]
      rfl
    · simp [Outcome.ofEdit] at h
  | data items symbolWords =>
    obtain ⟨item, -, q, hitem⟩ := exists_fault_of_placeAll h
    exact isTooDeep_of_placeItem hitem
  | «repeat» item count symbolWords =>
    refine isTooDeep_of_literalThen (fun n hn => ?_) h
    split at hn
    · obtain ⟨item', -, q, hitem⟩ := exists_fault_of_placeAll hn
      exact isTooDeep_of_placeItem hitem
    · rw [← Option.some.inj hn]
      rfl
  | constant name value =>
    refine isTooDeep_of_literalThen (fun n hn => ?_) h
    rw [Program.defineConstant] at hn
    split at hn
    · rw [← Option.some.inj hn]
      rfl
    · simp [Outcome.ofEdit] at hn
  | address value =>
    refine isTooDeep_of_literalThen (fun n hn => ?_) h
    rw [Program.setAddress] at hn
    split at hn
    · rw [← Option.some.inj hn]
      rfl
    · simp [Outcome.ofEdit] at hn
  | align boundary =>
    refine isTooDeep_of_literalThen (fun n hn => ?_) h
    rw [Program.align_eq] at hn
    split at hn
    · rw [← Option.some.inj hn]
      rfl
    · simp [Outcome.ofEdits] at hn
  | resume => cases h
  | stop => cases h
  | string literal =>
    unfold perform placeString at h
    dsimp only at h
    split at h
    · simp [Outcome.nothing] at h
    · exact isTooDeep_of_placeWords h
  | encoding name =>
    unfold perform at h
    dsimp only at h
    split at h
    · simp at h
    · rw [← Option.some.inj h]
      rfl

theorem isTooDeep_of_final {levels : Nat} {source : Source} {text : String}
    (hrules : ∀ rule ∈ dialect.rules, rule.NeverTooDeep)
    (hfinal : ∀ lines, Rule.find? dialect.rules text.toList ≠ some (.expand lines))
    (h : (dialect.placeText levels source text p).fault = some e) : e.isTooDeep = false := by
  rw [placeText_of_final hfinal] at h
  split at h
  · simp [Outcome.nothing] at h
  · split at h
    · rw [← Option.some.inj h]
      rfl
    · rename_i action hfind
      obtain ⟨rule, hmem, caps, -, rfl⟩ := Rule.exists_of_find? hfind
      exact isTooDeep_of_perform (hrules rule hmem caps) h

end Faults

/-- An action that is no directive places one instruction at most. -/
theorem countP_isPlace_perform {source : Source} {p : Program} {action : Action}
    (h : action.isDirective = false) :
    (dialect.perform source p action).edits.countP Edit.isPlace ≤ 1 := by
  cases action with
  | emit fields words mark =>
    unfold perform
    dsimp only
    split <;> simp [Outcome.refused, Edit.isPlace]
  | expand lines => exact Nat.zero_le 1
  | reject fault => exact Nat.zero_le 1
  | label name =>
    unfold perform Program.defineLabel
    dsimp only
    split <;> simp [Outcome.ofEdit, Outcome.refused, Edit.isPlace]
  | _ => simp [Action.isDirective] at h

/-! ## Tables without recursion -/

/-- The expansions of a text go so deep at most, and at most so many instructions come out of them.
-/
def Bounded (dialect : Dialect) : Nat → Nat → String → Prop
  | 0, count, text =>
    1 ≤ count ∧ ∀ lines, Rule.find? dialect.rules text.toList ≠ some (.expand lines)
  | depth + 1, count, text =>
    1 ≤ count ∧ ∀ lines, Rule.find? dialect.rules text.toList = some (.expand lines) →
      ∃ counts, List.Forall₂ (fun line n => dialect.Bounded depth n line) lines counts ∧
        counts.sum ≤ count

namespace Bounded

variable {depth count : Nat} {text : String}

theorem one_le (h : dialect.Bounded depth count text) : 1 ≤ count := by
  cases depth <;> exact h.1

theorem mono {depth' count' : Nat} (h : dialect.Bounded depth count text) (hdepth : depth ≤ depth')
    (hcount : count ≤ count') : dialect.Bounded depth' count' text := by
  induction depth' generalizing depth count text count' with
  | zero =>
    obtain rfl := Nat.le_zero.mp hdepth
    exact ⟨h.1.trans hcount, h.2⟩
  | succ depth' ih =>
    cases depth with
    | zero => exact ⟨h.1.trans hcount, fun lines hfind => absurd hfind (h.2 lines)⟩
    | succ depth =>
      refine ⟨h.1.trans hcount, fun lines hfind => ?_⟩
      obtain ⟨counts, hcounts, hsum⟩ := h.2 lines hfind
      have hlines := hcounts.imp fun line n hline =>
        ih hline (Nat.le_of_succ_le_succ hdepth) le_rfl
      exact ⟨counts, hlines, hsum.trans hcount⟩

/-- A table that expands no line bounds every text. -/
theorem of_final (h : ∀ rule ∈ dialect.rules, rule.Final) (text : String) :
    dialect.Bounded 0 1 text := by
  refine ⟨le_rfl, fun lines hfind => ?_⟩
  obtain ⟨rule, hmem, caps, -, hexpand⟩ := Rule.exists_of_find? hfind
  exact h rule hmem caps lines hexpand

/-- A text is bounded if it is expanded into few lines, each of which places one instruction. -/
theorem of_lines (hcount : 1 ≤ count)
    (h : ∀ lines, Rule.find? dialect.rules text.toList = some (.expand lines) →
      lines.length ≤ count ∧ ∀ line ∈ lines, dialect.Bounded depth 1 line) :
    dialect.Bounded (depth + 1) count text := by
  refine ⟨hcount, fun lines hfind => ?_⟩
  obtain ⟨hlength, hlines⟩ := h lines hfind
  refine ⟨List.replicate lines.length 1, ?_, by simpa using hlength⟩
  exact List.forall₂_of_length_eq_of_get (by simp) fun i hi _ => by
    simpa using hlines _ (List.get_mem lines ⟨i, hi⟩)

/-- The lines of an expansion are bounded one level further down. -/
theorem of_expand (h : dialect.Bounded (depth + 1) count text) {line : String}
    {lines : List String} (hfind : Rule.find? dialect.rules text.toList = some (.expand lines))
    (hline : line ∈ lines) : ∃ n, dialect.Bounded depth n line := by
  obtain ⟨counts, hcounts, -⟩ := h.2 lines hfind
  obtain ⟨i, hi, rfl⟩ := List.mem_iff_getElem.mp hline
  exact ⟨_, hcounts.get hi (hcounts.length_eq ▸ hi)⟩

/-- A chain of expansions ends at the depth of its text. -/
theorem le_of_unfolds (h : dialect.Bounded depth count text) {n : Nat} {last : String}
    (hchain : dialect.Unfolds n text last) : n ≤ depth := by
  induction hchain generalizing depth count with
  | refl text => exact Nat.zero_le _
  | step hne hfind hline _ ih =>
    cases depth with
    | zero => exact absurd hfind (h.2 _)
    | succ depth =>
      obtain ⟨n, hbounded⟩ := h.of_expand hfind hline
      exact Nat.succ_le_succ (ih hbounded)

/-- Where the levels are as many as the expansions, none of them is too deep. -/
theorem isTooDeep_eq_false
    (hrules : ∀ rule ∈ dialect.rules, rule.NeverTooDeep)
    {levels : Nat} (h : dialect.Bounded depth count text) (hlevels : depth ≤ levels)
    {source : Source} {p : Program} {e : Fault}
    (hfault : (dialect.placeText levels source text p).fault = some e) : e.isTooDeep = false := by
  induction levels generalizing depth count text p with
  | zero =>
    obtain rfl := Nat.le_zero.mp hlevels
    exact isTooDeep_of_final hrules h.2 hfault
  | succ levels ih =>
    by_cases hexpand : ∃ lines, Rule.find? dialect.rules text.toList = some (.expand lines)
    · obtain ⟨lines, hfind⟩ := hexpand
      cases depth with
      | zero => exact absurd hfind (h.2 lines)
      | succ depth =>
        by_cases hne : text = ""
        · rw [placeText, if_pos hne] at hfault
          simp [Outcome.nothing] at hfault
        · rw [placeText_of_expand hne hfind] at hfault
          obtain ⟨line, hline, q, hfault⟩ := exists_fault_of_placeAll hfault
          obtain ⟨n, hbounded⟩ := h.of_expand hfind hline
          exact ih hbounded (Nat.le_of_succ_le_succ hlevels) hfault
    · exact isTooDeep_of_final hrules (fun lines hfind => hexpand ⟨lines, hfind⟩) hfault

/-- A text that is no directive, and leads to none, places as many instructions as its bound says.
-/
theorem countP_isPlace_le {maxWords : Nat} (hdialect : dialect.WellFormed maxWords)
    (h : dialect.Bounded depth count text)
    (htext : ∀ action, Rule.find? dialect.rules text.toList = some action →
      action.isDirective = false)
    (levels : Nat) (source : Source) (p : Program) :
    (dialect.placeText levels source text p).edits.countP Edit.isPlace ≤ count := by
  induction levels generalizing depth count text p with
  | zero =>
    obtain hnil | ⟨_, _, _, hlevels, _⟩ | ⟨action, hfind, _, heq⟩ :=
      placeText_cases dialect 0 source text p
    · simp [hnil]
    · simp at hlevels
    · rw [heq]
      exact (countP_isPlace_perform (htext action hfind)).trans h.one_le
  | succ levels ih =>
    obtain hnil | ⟨lines, further, hfind, hlevels, heq⟩ | ⟨action, hfind, _, heq⟩ :=
      placeText_cases dialect (levels + 1) source text p
    · simp [hnil]
    · obtain rfl : levels = further := by simpa using hlevels
      cases depth with
      | zero => exact absurd hfind (h.2 lines)
      | succ depth =>
        obtain ⟨counts, hcounts, hsum⟩ := h.2 lines hfind
        have hplain : ∀ line ∈ lines, Unpointed line := hdialect.action hfind
        rw [heq]
        have hplaces := ((List.forall₂_and_left lines counts).mpr ⟨hplain, hcounts⟩).imp
          fun line n hline => ih hline.2 fun action => hdialect.isDirective_eq_false hline.1
        exact (placeAll_countP hplaces p []).trans (by simpa using hsum)
    · rw [heq]
      exact (countP_isPlace_perform (htext action hfind)).trans h.one_le

end Bounded

end Dialect

end PocketAsm

/-
  Proofs/Switches.lean --- `.start` and `.end` choose what is kept, and nothing else.

  A line switches the output on or off exactly if it reads `.start` or `.end`,
  in either case of its letters (`HasSwitches`, a fact of the rule tables).
  Blank these lines: the first pass over the blanked text goes in step with the
  one over the text itself (`InStep`).  Both hold the same symbols, stand at the
  same address and report the same faults; and the lines of the one are those of
  the other without what the switches leave out.
-/
import PocketAsm.Proofs.Agreement
import PocketAsm.Proofs.Fields
import PocketAsm.Proofs.Origin

set_option autoImplicit false

namespace PocketAsm

/-! ## Texts that begin with a point -/

/-- Whatever the pattern matches begins with a sign other than the given one. -/
def Pattern.startsWithout (c : Char) : Pattern → Bool
  | .one p => !p c
  | .seq first _ => first.startsWithout c
  | .alt first second => first.startsWithout c && second.startsWithout c
  | .slot _ body => body.startsWithout c
  | _ => false

theorem Pattern.beginsWith_of_startsWithout {c : Char} {pattern : Pattern}
    (h : pattern.startsWithout c = true) : pattern.BeginsWith (· != c) := by
  induction pattern with
  | one p =>
    intro cs caps way hway
    obtain ⟨d, rest, rfl, hd⟩ := beginsWith_one p cs caps way hway
    refine ⟨d, rest, rfl, bne_iff_ne.mpr ?_⟩
    rintro rfl
    simp [startsWithout, hd] at h
  | seq first second ih _ => exact (ih h).seq second
  | alt first second ih₁ ih₂ =>
    obtain ⟨hfirst, hsecond⟩ := Bool.and_eq_true_iff.mp h
    intro cs caps way hway
    rcases List.mem_append.mp hway with hway | hway
    · exact ih₁ hfirst cs caps way hway
    · exact ih₂ hsecond cs caps way hway
  | slot name body ih =>
    intro cs caps way hway
    obtain ⟨inner, hinner, -⟩ := List.mem_map.mp hway
    exact ih h cs caps inner hinner
  | empty => simp [startsWithout] at h
  | many p => simp [startsWithout] at h
  | few p => simp [startsWithout] at h

/-- A text that begins with the sign does not match. -/
theorem Pattern.match?_eq_none_of_startsWithout {c : Char} {pattern : Pattern}
    (h : pattern.startsWithout c = true) {cs : List Char} (hcs : cs.head? = some c) :
    pattern.match? cs = none := by
  rw [Option.eq_none_iff_forall_not_mem]
  intro caps hmatch
  obtain ⟨d, rest, rfl, hd⟩ := (beginsWith_of_startsWithout h).head_of_match? hmatch
  have hdc : d = c := by simpa using hcs
  simp [hdc] at hd

/-- A text does not match a pattern that begins with literal text unless it begins so itself. -/
theorem Pattern.match?_eq_none_of_lit {s : String} {cs : List Char}
    (h : ¬s.toList.map Text.foldLetter <+: cs.map Text.foldLetter) (patterns : List Pattern) :
    (Pattern.all (.lit s :: patterns)).match? cs = none := by
  rw [Option.eq_none_iff_forall_not_mem]
  intro caps hmatch
  obtain ⟨ops, haccepts, -⟩ := accepts_of_match? hmatch
  obtain ⟨x, y, u, v, rfl, -, hx, -⟩ := accepts_all_cons.mp haccepts
  apply h
  rw [List.map_append, (accepts_lit.mp hx).1]
  exact List.prefix_append _ _

/-- Without a colon at its end a text is no label. -/
theorem Directive.match?_labelRule_eq_none {name : Pattern} {cs : List Char}
    (h : (cs.map Text.foldLetter).getLast? ≠ some ':') :
    (labelRule name).pattern.match? cs = none := by
  rw [Option.eq_none_iff_forall_not_mem]
  intro caps hmatch
  obtain ⟨ops, haccepts, -⟩ := Pattern.accepts_of_match? hmatch
  obtain ⟨x, y, u, v, rfl, -, -, hy⟩ := Pattern.accepts_all_cons.mp haccepts
  have hcolon : y.map Text.foldLetter = [':'] := (Pattern.accepts_lit.mp hy).1
  apply h
  rw [List.map_append, hcolon, List.getLast?_concat]

/-! ## Switches in the rule tables -/

/-- The word that stands for an action that switches the output on or off. -/
def Action.switchWord? : Action → Option String
  | .resume => some ".start"
  | .stop => some ".end"
  | _ => none

theorem Action.isDirective_of_switchWord? {action : Action} {word : String}
    (h : action.switchWord? = some word) : action.isDirective = true := by
  cases action <;> simp_all [switchWord?, isDirective]

namespace Directive

variable {operand cut : Pattern} {symbolWords : Nat} {text word : String}

/-- Literal text in small letters matches what folds onto it. -/
theorem folded_of_match? {caps : Captures} (hword : word.toList.map Text.foldLetter = word.toList)
    (hmatch : (Pattern.lit word).match? text.toList = some caps) : Text.folded text = word := by
  obtain ⟨ops, haccepts, -⟩ := Pattern.accepts_of_match? hmatch
  rw [Text.folded, (Pattern.accepts_lit.mp haccepts).1, hword, String.ofList_toList]

/-- Of the common rules only the last two are switches, and they match only their words. -/
theorem folded_of_switchWord? {rule : Rule} {caps : Captures}
    (hmem : rule ∈ common operand cut symbolWords)
    (hmatch : rule.pattern.match? text.toList = some caps)
    (hswitch : (rule.action caps).switchWord? = some word) : Text.folded text = word := by
  simp only [common, List.mem_cons, List.not_mem_nil, or_false] at hmem
  rcases hmem with rfl | rfl | rfl | rfl | rfl | rfl | rfl | rfl
  case inr.inr.inr.inr.inr.inr.inl =>
    rw [← Option.some.inj hswitch]
    exact folded_of_match? (by decide) hmatch
  case inr.inr.inr.inr.inr.inr.inr =>
    rw [← Option.some.inj hswitch]
    exact folded_of_match? (by decide) hmatch
  all_goals simp [labelRule, dataRule, addressRule, Action.switchWord?] at hswitch

/-- The other common rules match nothing that begins with none of their words and does not end with
a colon. -/
theorem find?_common {cs : List Char} (hlabel : (cs.map Text.foldLetter).getLast? ≠ some ':')
    (hother : ∀ s ∈ [".data", ".repeat", ".eq", ".address", ".align"],
      ¬s.toList.map Text.foldLetter <+: cs.map Text.foldLetter) :
    Rule.find? (common operand cut symbolWords) cs =
      Rule.find? [⟨.lit ".start", fun _ => .resume⟩, ⟨.lit ".end", fun _ => .stop⟩] cs := by
  simp only [List.forall_mem_cons] at hother
  obtain ⟨hdata, hrepeat, heq, haddress, halign, -⟩ := hother
  simp only [common, Rule.find?, List.findSome?_cons, match?_labelRule_eq_none hlabel, dataRule,
    addressRule, Pattern.match?_eq_none_of_lit hdata, Pattern.match?_eq_none_of_lit hrepeat,
    Pattern.match?_eq_none_of_lit heq, Pattern.match?_eq_none_of_lit haddress,
    Pattern.match?_eq_none_of_lit halign, Option.map_none]

/-- The words of the switches reach their rules. -/
theorem exists_switch_of_folded (operand cut : Pattern) (symbolWords : Nat)
    (hword : word = ".start" ∨ word = ".end") (h : Text.folded text = word) :
    ∃ action, Rule.find? (common operand cut symbolWords) text.toList = some action ∧
      action.switchWord? = some word := by
  have hcs : text.toList.map Text.foldLetter = word.toList := by rw [← Text.toList_folded, h]
  have hself : word.toList.map Text.foldLetter = word.toList := by
    rcases hword with rfl | rfl <;> decide
  have haccepts : (Pattern.lit word).Accepts text.toList [] :=
    Pattern.accepts_lit.mpr ⟨hcs.trans hself.symm, rfl⟩
  obtain ⟨caps, hmatch⟩ := Option.isSome_iff_exists.mp (Pattern.match?_isSome haccepts)
  rcases hword with rfl | rfl
  · refine ⟨.resume, ?_, rfl⟩
    rw [find?_common (by rw [hcs]; decide) (by rw [hcs]; decide)]
    simp [Rule.find?, hmatch]
  · have hstart : ¬".start".toList.map Text.foldLetter <+: text.toList.map Text.foldLetter := by
      rw [hcs]
      decide
    have hnone : (Pattern.lit ".start").match? text.toList = none :=
      Pattern.match?_eq_none_of_lit hstart []
    refine ⟨.stop, ?_, rfl⟩
    rw [find?_common (by rw [hcs]; decide) (by rw [hcs]; decide)]
    simp [Rule.find?, hmatch, hnone]

end Directive

/-- The rules of instructions match nothing that begins with a point. -/
theorem Rule.find?_eq_none_of_point {rules : List Rule} {cs : List Char}
    (hrules : (rules.all (·.pattern.startsWithout '.')) = true) (hcs : cs.head? = some '.') :
    Rule.find? rules cs = none := by
  rw [Rule.find?, List.findSome?_eq_none_iff]
  intro rule hmem
  have hrule := List.all_eq_true.mp hrules rule hmem
  rw [Pattern.match?_eq_none_of_startsWithout hrule hcs, Option.map_none]

namespace Dialect

variable {dialect : Dialect} {maxWords : Nat}

/-- A text switches the output on or off exactly if it reads `.start` or `.end`, in either case of
its letters. -/
def HasSwitches (dialect : Dialect) : Prop :=
  ∀ text word : String,
    (∃ action, Rule.find? dialect.rules text.toList = some action ∧
      action.switchWord? = some word) ↔
    (word = ".start" ∨ word = ".end") ∧ Text.folded text = word

/-- A directive begins with a point. -/
theorem WellFormed.head_of_isDirective (hdialect : dialect.WellFormed maxWords) {text : String}
    {action : Action} (hfind : Rule.find? dialect.rules text.toList = some action)
    (haction : action.isDirective = true) : text.toList.head? = some '.' := by
  obtain ⟨rule, hmem, caps, hmatch, rfl⟩ := Rule.exists_of_find? hfind
  obtain ⟨c, rest, hcs, hc⟩ :=
    ((hdialect.rules rule hmem).directive caps haction).head_of_match? hmatch
  have hfold : Text.foldLetter '.' = Text.foldLetter c := by simpa [Text.sameLetter] using hc
  rw [hcs, List.head?_cons, Text.eq_of_foldLetter_eq (by decide) hfold.symm]
  rfl

/-- A table with the common directives behind instructions that do not begin with a point. -/
theorem HasSwitches.of_rules (hdialect : dialect.WellFormed maxWords) {symbolWords : Nat}
    {instructions others : List Rule} {operand cut : Pattern}
    (hrules : dialect.rules = instructions ++ Directive.common operand cut symbolWords ++ others)
    (hinstructions : (instructions.all (·.pattern.startsWithout '.')) = true)
    (hothers : ∀ rule ∈ others, ∀ caps, (rule.action caps).switchWord? = none) :
    dialect.HasSwitches := by
  -- behind the point only the directives are left
  have hfind {text : String} (hpoint : text.toList.head? = some '.') :
      Rule.find? dialect.rules text.toList =
        Rule.find? (Directive.common operand cut symbolWords ++ others) text.toList := by
    have hnone := Rule.find?_eq_none_of_point hinstructions hpoint
    rw [hrules, List.append_assoc, Rule.find?, List.findSome?_append]
    rw [Rule.find?] at hnone
    rw [hnone]
    rfl
  intro text word
  constructor
  · rintro ⟨action, haction, hswitch⟩
    have hword : word = ".start" ∨ word = ".end" := by
      cases action <;> simp_all [Action.switchWord?]
    have hpoint := hdialect.head_of_isDirective haction (Action.isDirective_of_switchWord? hswitch)
    rw [hfind hpoint] at haction
    obtain ⟨rule, hmem, caps, hmatch, rfl⟩ := Rule.exists_of_find? haction
    rcases List.mem_append.mp hmem with hmem | hmem
    · exact ⟨hword, Directive.folded_of_switchWord? hmem hmatch hswitch⟩
    · simp [hothers rule hmem caps] at hswitch
  · rintro ⟨hword, hfolded⟩
    obtain ⟨action, haction, hswitch⟩ :=
      Directive.exists_switch_of_folded operand cut symbolWords hword hfolded
    have hpoint : (text.toList.map Text.foldLetter).head? = some '.' := by
      rw [← Text.toList_folded, hfolded]
      rcases hword with rfl | rfl <;> rfl
    have hpoint : text.toList.head? = some '.' := by
      rw [List.head?_map] at hpoint
      obtain ⟨c, hc, hfold⟩ := Option.map_eq_some_iff.mp hpoint
      rw [hc, Text.eq_of_foldLetter_eq (by decide) hfold]
    refine ⟨action, ?_, hswitch⟩
    rw [hfind hpoint, Rule.find?, List.findSome?_append]
    rw [Rule.find?] at haction
    rw [haction]
    rfl

end Dialect

namespace Architecture

/-- The architectures whose dialects have switches. -/
def switched : List Architecture := [bitzzy, v8, parva]

theorem mem_all_of_switched {a : Architecture} (ha : a ∈ switched) : a ∈ all := by
  simp only [switched, all, List.mem_cons, List.not_mem_nil, or_false] at ha ⊢
  tauto

theorem hasSwitches {a : Architecture} (ha : a ∈ switched) : a.dialect.HasSwitches := by
  have hdialect := wellFormed (mem_all_of_switched ha)
  simp only [switched, List.mem_cons, List.not_mem_nil, or_false] at ha
  rcases ha with rfl | rfl | rfl
  · exact .of_rules hdialect (List.append_nil _).symm (by decide +kernel) (by simp)
  · exact .of_rules hdialect (List.append_nil _).symm (by decide +kernel) (by simp)
  · refine .of_rules hdialect rfl (by decide +kernel) ?_
    simp [Parva.textDirectives, Action.switchWord?]

end Architecture

namespace Dialect

variable {dialect : Dialect} {maxWords : Nat}

/-! ## Switch lines -/

/-- The line is a `.start`. -/
def isStart (dialect : Dialect) (raw : String) : Bool :=
  Text.folded (dialect.instructionOf raw) == ".start"

/-- The line is an `.end`. -/
def isEnd (dialect : Dialect) (raw : String) : Bool :=
  Text.folded (dialect.instructionOf raw) == ".end"

/-- An empty line in place of a `.start` or an `.end`, and every other line as it is. -/
def blankSwitch (dialect : Dialect) (raw : String) : String :=
  if dialect.isStart raw || dialect.isEnd raw then "" else raw

/-- The text with its `.start` and `.end` lines blanked. -/
def blankSwitches (dialect : Dialect) (text : String) : String :=
  "\n".intercalate ((Text.lines text).map dialect.blankSwitch)

/-- The line with the given number is a `.start`. -/
def startsAt (dialect : Dialect) (text : String) (number : Nat) : Bool :=
  (Text.lines text)[number]?.any dialect.isStart

/-- The line with the given number is an `.end`. -/
def endsAt (dialect : Dialect) (text : String) (number : Nat) : Bool :=
  (Text.lines text)[number]?.any dialect.isEnd

theorem lines_blankSwitches (dialect : Dialect) (text : String) :
    Text.lines (dialect.blankSwitches text) = (Text.lines text).map dialect.blankSwitch := by
  apply Text.lines_intercalate
  · simpa using Text.lines_ne_nil text
  · intro line hline
    obtain ⟨raw, hraw, rfl⟩ := List.mem_map.mp hline
    rw [blankSwitch]
    split
    · decide
    · exact Text.newline_not_mem_of_mem_lines hraw

/-- A word that switches the output does that alone. -/
theorem HasSwitches.placeLine_eq (hswitches : dialect.HasSwitches) {raw word : String}
    (hword : word = ".start" ∨ word = ".end")
    (h : Text.folded (dialect.instructionOf raw) = word) (number : Nat) (p : Program) :
    dialect.placeLine number raw p = ⟨[if word = ".start" then .resume else .stop], none⟩ := by
  obtain ⟨action, hfind, hswitch⟩ := (hswitches _ word).mpr ⟨hword, h⟩
  have hne : dialect.instructionOf raw ≠ "" := by
    intro hempty
    rw [hempty] at h
    rcases hword with rfl | rfl <;> simp [Text.folded] at h
  rw [placeLine, placeText, if_neg hne, hfind]
  cases action with
  | resume =>
    obtain rfl : word = ".start" := (Option.some.inj hswitch).symm
    rfl
  | stop =>
    obtain rfl : word = ".end" := (Option.some.inj hswitch).symm
    rfl
  | _ => simp [Action.switchWord?] at hswitch

/-- No other line switches the output. -/
theorem HasSwitches.not_switch_of_mem (hswitches : dialect.HasSwitches)
    (hdialect : dialect.WellFormed maxWords) {raw : String} (hstart : dialect.isStart raw = false)
    (hend : dialect.isEnd raw = false) {number : Nat} {p : Program} {e : Edit}
    (he : e ∈ (dialect.placeLine number raw p).edits) : e ≠ .resume ∧ e ≠ .stop := by
  have hno {action : Action} {word : String}
      (hfind : Rule.find? dialect.rules (dialect.instructionOf raw).toList = some action)
      (hswitch : action.switchWord? = some word) : False := by
    obtain ⟨rfl | rfl, hfolded⟩ := (hswitches _ word).mp ⟨action, hfind, hswitch⟩
    · simp [isStart, hfolded] at hstart
    · simp [isEnd, hfolded] at hend
  constructor
  · rintro rfl
    obtain ⟨action, hfind, hmakes, -⟩ := makes_of_not_isLine hdialect he rfl
    cases action with
    | resume => exact hno hfind rfl
    | _ => exact hmakes.elim
  · rintro rfl
    obtain ⟨action, hfind, hmakes, -⟩ := makes_of_not_isLine hdialect he rfl
    cases action with
    | stop => exact hno hfind rfl
    | _ => exact hmakes.elim

/-! ## What the switches leave out -/

/-- One of the first lines, as many as given, is the first `.start`, no `.end` stands before it, and
the line with the given number does. -/
def DropsAt (dialect : Dialect) (text : String) (limit number : Nat) : Prop :=
  ∃ first < limit, number < first ∧ dialect.startsAt text first = true ∧
    ∀ m < first, dialect.startsAt text m = false ∧ dialect.endsAt text m = false

/-- An `.end` stands before the line with the given number, and no `.start` between them. -/
def StoppedAt (dialect : Dialect) (text : String) (number : Nat) : Prop :=
  ∃ last < number, dialect.endsAt text last = true ∧
    ∀ m < number, last < m → dialect.startsAt text m = false

instance (dialect : Dialect) (text : String) (limit number : Nat) :
    Decidable (dialect.DropsAt text limit number) := inferInstanceAs (Decidable (∃ _, _))

instance (dialect : Dialect) (text : String) (number : Nat) :
    Decidable (dialect.StoppedAt text number) := inferInstanceAs (Decidable (∃ _, _))

/-- Among the first lines, as many as given, is nothing that leaves the placed line out: everything
before a `.start` that no other switch precedes is left out, and so are instructions, but no labels,
behind an `.end`. -/
def keepsPlaced (dialect : Dialect) (text : String) (limit : Nat) : Placed → Bool
  | .label _ source => !decide (dialect.DropsAt text limit source.line)
  | .instruction _ source _ =>
    !decide (dialect.DropsAt text limit source.line) &&
      !decide (dialect.StoppedAt text source.line)

section Counting

variable {text : String} {number : Nat}

theorem endsAt_eq_false (h : dialect.startsAt text number = true) :
    dialect.endsAt text number = false := by
  rw [startsAt, Option.any_eq_true] at h
  obtain ⟨raw, hraw, hstart⟩ := h
  rw [endsAt, hraw, Option.any_some, isEnd, beq_iff_eq.mp hstart]
  rfl

/-- Whether the output is off behind a line, by the line and the ones before it. -/
theorem stoppedAt_succ :
    dialect.StoppedAt text (number + 1) ↔
      dialect.endsAt text number = true ∨
        dialect.StoppedAt text number ∧ dialect.startsAt text number = false := by
  constructor
  · rintro ⟨last, hlast, hend, hnone⟩
    rcases Nat.lt_succ_iff_lt_or_eq.mp hlast with hlast | rfl
    · refine Or.inr ⟨⟨last, hlast, hend, ?_⟩, hnone number (by omega) hlast⟩
      exact fun m hm => hnone m (by omega)
    · exact Or.inl hend
  · rintro (hend | ⟨⟨last, hlast, hend, hnone⟩, hstart⟩)
    · exact ⟨number, by omega, hend, fun m hm hlt => absurd hlt (by omega)⟩
    · refine ⟨last, by omega, hend, fun m hm hlt => ?_⟩
      rcases Nat.lt_succ_iff_lt_or_eq.mp hm with hm | rfl
      · exact hnone m hm hlt
      · exact hstart

/-- A line drops nothing unless it is a `.start` that no other switch precedes. -/
theorem keepsPlaced_succ
    (h : dialect.startsAt text number = true →
      ∃ m < number, dialect.startsAt text m = true ∨ dialect.endsAt text m = true) :
    dialect.keepsPlaced text (number + 1) = dialect.keepsPlaced text number := by
  have hdrops (n : Nat) :
      dialect.DropsAt text (number + 1) n ↔ dialect.DropsAt text number n := by
    constructor
    · rintro ⟨first, hfirst, hn, hstart, hnone⟩
      rcases Nat.lt_succ_iff_lt_or_eq.mp hfirst with hfirst | rfl
      · exact ⟨first, hfirst, hn, hstart, hnone⟩
      · obtain ⟨m, hm, hswitch⟩ := h hstart
        simp [hnone m hm] at hswitch
    · rintro ⟨first, hfirst, hrest⟩
      exact ⟨first, by omega, hrest⟩
  funext placed
  cases placed <;> simp only [keepsPlaced, hdrops]

end Counting

/-! ## The two passes in step -/

/-- The program of a text and that of the blanked text, before the line with the given number. -/
structure InStep (dialect : Dialect) (text : String) (number : Nat) (p q : Program) : Prop where
  agree : p.Agree q
  undecided : p.emitting = none ↔
    ∀ m < number, dialect.startsAt text m = false ∧ dialect.endsAt text m = false
  keeps : p.keeps = true ↔ ¬dialect.StoppedAt text number
  always : q.emitting = none
  lines : p.lines.toList = q.lines.toList.filter (dialect.keepsPlaced text number)
  earlier : ∀ placed ∈ q.lines.toList, placed.line < number

variable {text : String} {number : Nat} {p q : Program}

theorem inStep_start (dialect : Dialect) (text : String) :
    dialect.InStep text 0 (.start dialect.encoding) (.start dialect.encoding) where
  agree := .refl _
  undecided := by simp [Program.start]
  keeps := by simp [Program.start, Program.keeps, StoppedAt]
  always := rfl
  lines := rfl
  earlier := by simp [Program.start]

namespace InStep

/-- A `.start`, where the other text has an empty line. -/
theorem resume (h : dialect.InStep text number p q)
    (hstart : dialect.startsAt text number = true) :
    dialect.InStep text (number + 1) (p.apply .resume) q where
  agree := ⟨h.agree.address, h.agree.labels, h.agree.constants, h.agree.encoding⟩
  undecided := by
    rw [Nat.forall_lt_succ_right]
    simp [Program.apply, hstart]
  keeps := by
    simp [Program.apply, Program.keeps, stoppedAt_succ, hstart, endsAt_eq_false hstart]
  always := h.always
  lines := by
    by_cases hfirst : p.emitting = none
    · have hdropped (placed : Placed) (hmem : placed ∈ q.lines.toList) :
          ¬dialect.keepsPlaced text (number + 1) placed = true := by
        have hdrops : dialect.DropsAt text (number + 1) placed.line :=
          ⟨number, by omega, h.earlier placed hmem, hstart, h.undecided.mp hfirst⟩
        cases placed <;> simp_all [keepsPlaced, Placed.line]
      simp [Program.apply, hfirst, List.filter_eq_nil_iff.mpr hdropped]
    · have hearlier : ∃ m < number,
          dialect.startsAt text m = true ∨ dialect.endsAt text m = true := by
        by_contra hnone
        push Not at hnone
        exact hfirst (h.undecided.mpr (by simpa using hnone))
      rw [keepsPlaced_succ fun _ => hearlier]
      simp [Program.apply, hfirst, h.lines]
  earlier := fun placed hmem => (h.earlier placed hmem).trans (by omega)

/-- An `.end`, where the other text has an empty line. -/
theorem stop (h : dialect.InStep text number p q) (hend : dialect.endsAt text number = true)
    (hstart : dialect.startsAt text number = false) :
    dialect.InStep text (number + 1) (p.apply .stop) q where
  agree := ⟨h.agree.address, h.agree.labels, h.agree.constants, h.agree.encoding⟩
  undecided := by
    rw [Nat.forall_lt_succ_right]
    simp [Program.apply, hend]
  keeps := by simp [Program.apply, Program.keeps, stoppedAt_succ, hend]
  always := h.always
  lines := by
    rw [keepsPlaced_succ (by simp [hstart])]
    exact h.lines
  earlier := fun placed hmem => (h.earlier placed hmem).trans (by omega)

/-- Any other line, before it does anything. -/
theorem pass (h : dialect.InStep text number p q) (hstart : dialect.startsAt text number = false)
    (hend : dialect.endsAt text number = false) : dialect.InStep text (number + 1) p q where
  agree := h.agree
  undecided := by
    rw [h.undecided, Nat.forall_lt_succ_right]
    simp [hstart, hend]
  keeps := by simp [h.keeps, stoppedAt_succ, hstart, hend]
  always := h.always
  lines := by
    rw [keepsPlaced_succ (by simp [hstart])]
    exact h.lines
  earlier := fun placed hmem => (h.earlier placed hmem).trans (by omega)

/-- An instruction that both passes place is kept by the first of them unless the output is off. -/
theorem place (h : dialect.InStep text (number + 1) p q) {source : Source}
    (hline : source.line = number) (hstart : dialect.startsAt text number = false)
    (hend : dialect.endsAt text number = false) (parts : List Part) (words : Nat) :
    dialect.InStep text (number + 1) (p.apply (.place parts words source))
      (q.apply (.place parts words source)) where
  agree := h.agree.apply _
  undecided := h.undecided
  keeps := h.keeps
  always := h.always
  lines := by
    have hdrops : ¬dialect.DropsAt text (number + 1) source.line := by
      rintro ⟨first, hfirst, hlt, -⟩
      omega
    have hstopped : p.keeps = true ↔ ¬dialect.StoppedAt text source.line := by
      rw [h.keeps, stoppedAt_succ, hline]
      simp [hstart, hend]
    have hq : q.keeps = true := by simp [Program.keeps, h.always]
    by_cases hp : p.keeps = true
    · simp [Program.apply, hp, hq, h.lines, h.agree.address, keepsPlaced, hdrops, hstopped.mp hp]
    · have hoff : dialect.StoppedAt text source.line := by
        by_contra hon
        exact hp (hstopped.mpr hon)
      simp [Program.apply, hp, hq, h.lines, keepsPlaced, hoff]
  earlier := by
    intro placed hmem
    have hq : q.keeps = true := by simp [Program.keeps, h.always]
    simp only [Program.apply, hq, if_true, Array.toList_push, List.mem_append,
      List.mem_singleton] at hmem
    rcases hmem with hmem | rfl
    · exact h.earlier placed hmem
    · exact Nat.lt_succ_of_le hline.le

/-- A label that both passes define is kept by both. -/
theorem label (h : dialect.InStep text (number + 1) p q) {source : Source}
    (hline : source.line = number) (name : String) :
    dialect.InStep text (number + 1) (p.apply (.label name source))
      (q.apply (.label name source)) where
  agree := h.agree.apply _
  undecided := h.undecided
  keeps := h.keeps
  always := h.always
  lines := by
    have hdrops : ¬dialect.DropsAt text (number + 1) source.line := by
      rintro ⟨first, hfirst, hlt, -⟩
      omega
    simp [Program.apply, h.lines, keepsPlaced, hdrops]
  earlier := by
    intro placed hmem
    simp only [Program.apply, Array.toList_push, List.mem_append, List.mem_singleton] at hmem
    rcases hmem with hmem | rfl
    · exact h.earlier placed hmem
    · exact Nat.lt_succ_of_le hline.le

/-- The edits of a line that is no switch, made by both passes. -/
theorem applyAll {edits : List Edit} (hstart : dialect.startsAt text number = false)
    (hend : dialect.endsAt text number = false)
    (hedits : ∀ e ∈ edits, e.ComesFrom number ∧ e ≠ .resume ∧ e ≠ .stop)
    (h : dialect.InStep text (number + 1) p q) :
    dialect.InStep text (number + 1) (p.applyAll edits) (q.applyAll edits) := by
  induction edits generalizing p q with
  | nil => exact h
  | cons e edits ih =>
    obtain ⟨⟨hfrom, hresume, hstop⟩, hrest⟩ := List.forall_mem_cons.mp hedits
    apply ih hrest
    cases e with
    | place parts words source => exact h.place hfrom hstart hend parts words
    | label name source => exact h.label hfrom name
    | resume => exact absurd rfl hresume
    | stop => exact absurd rfl hstop
    | constant name value =>
      exact ⟨h.agree.apply _, h.undecided, h.keeps, h.always, h.lines, h.earlier⟩
    | moveTo address =>
      exact ⟨h.agree.apply _, h.undecided, h.keeps, h.always, h.lines, h.earlier⟩
    | encodeBy encoding =>
      exact ⟨h.agree.apply _, h.undecided, h.keeps, h.always, h.lines, h.earlier⟩

/-- A line of the text and the same line blanked fail alike, and leave the passes in step. -/
theorem line (hswitches : dialect.HasSwitches) (hdialect : dialect.WellFormed maxWords)
    (h : dialect.InStep text number p q) {raw : String}
    (hraw : (Text.lines text)[number]? = some raw) :
    (dialect.placeLine number raw p).fault =
        (dialect.placeLine number (dialect.blankSwitch raw) q).fault ∧
      dialect.InStep text (number + 1) (p.applyAll (dialect.placeLine number raw p).kept)
        (q.applyAll (dialect.placeLine number (dialect.blankSwitch raw) q).kept) := by
  have hstartsAt : dialect.startsAt text number = dialect.isStart raw := by
    rw [startsAt, hraw, Option.any_some]
  have hendsAt : dialect.endsAt text number = dialect.isEnd raw := by
    rw [endsAt, hraw, Option.any_some]
  cases hstart : dialect.isStart raw with
  | true =>
    have hblank : dialect.blankSwitch raw = "" := by simp [blankSwitch, hstart]
    have hplace := hswitches.placeLine_eq (Or.inl rfl) (beq_iff_eq.mp hstart) number p
    rw [hblank, hplace, placeLine_empty]
    exact ⟨rfl, h.resume (hstartsAt.trans hstart)⟩
  | false =>
    cases hend : dialect.isEnd raw with
    | true =>
      have hblank : dialect.blankSwitch raw = "" := by simp [blankSwitch, hend]
      have hplace := hswitches.placeLine_eq (Or.inr rfl) (beq_iff_eq.mp hend) number p
      rw [hblank, hplace, placeLine_empty]
      exact ⟨rfl, h.stop (hendsAt.trans hend) (hstartsAt.trans hstart)⟩
    | false =>
      have hblank : dialect.blankSwitch raw = raw := by simp [blankSwitch, hstart, hend]
      rw [hblank, placeLine_congr h.agree]
      refine ⟨rfl, applyAll (hstartsAt.trans hstart) (hendsAt.trans hend) ?_
        (h.pass (hstartsAt.trans hstart) (hendsAt.trans hend))⟩
      intro e he
      have he : e ∈ (dialect.placeLine number raw q).edits := by
        rw [Outcome.kept] at he
        split at he
        · exact he
        · simp at he
      exact ⟨comesFrom_of_mem_placeLine he, hswitches.not_switch_of_mem hdialect hstart hend he⟩

end InStep

/-- A pass over the last lines of a text and one over these lines blanked stay in step, and report
the same faults. -/
theorem inStep_pass (hswitches : dialect.HasSwitches) (hdialect : dialect.WellFormed maxWords) :
    ∀ (rest : List String) (number : Nat) (p q : Program),
      (Text.lines text).drop number = rest → dialect.InStep text number p q →
      let blanked := rest.map dialect.blankSwitch
      dialect.InStep text (number + rest.length) (p.applyAll (dialect.passEdits number rest p))
          (q.applyAll (dialect.passEdits number blanked q)) ∧
        dialect.passFaults number rest p = dialect.passFaults number blanked q := by
  intro rest
  induction rest with
  | nil =>
    intro number p q _ h
    exact ⟨h, rfl⟩
  | cons raw rest ih =>
    intro number p q hdrop h
    have hraw : (Text.lines text)[number]? = some raw := by
      rw [← List.head?_drop, hdrop, List.head?_cons]
    have hrest : (Text.lines text).drop (number + 1) = rest := by
      rw [← List.tail_drop, hdrop, List.tail_cons]
    obtain ⟨hfault, hstep⟩ := h.line hswitches hdialect hraw
    obtain ⟨hsteps, hfaults⟩ := ih (number + 1) _ _ hrest hstep
    have hlength : number + (raw :: rest).length = number + 1 + rest.length := by
      rw [List.length_cons]
      omega
    dsimp only
    rw [List.map_cons, passEdits_cons, passEdits_cons, passFaults_cons, passFaults_cons, hlength,
      Program.applyAll_append, Program.applyAll_append, hfaults, hfault]
    exact ⟨hsteps, rfl⟩

/-- The passes over a text and over the blanked text end in step, with the same faults. -/
theorem inStep_firstPass (hswitches : dialect.HasSwitches) (hdialect : dialect.WellFormed maxWords)
    (text : String) :
    dialect.InStep text (Text.lines text).length (dialect.firstPass text).1
        (dialect.firstPass (dialect.blankSwitches text)).1 ∧
      (dialect.firstPass text).2 = (dialect.firstPass (dialect.blankSwitches text)).2 := by
  obtain ⟨hstep, hfaults⟩ := inStep_pass hswitches hdialect (Text.lines text) 0 _ _ List.drop_zero
    (inStep_start dialect text)
  rw [Nat.zero_add] at hstep
  rw [firstPass_eq hdialect, firstPass_eq hdialect, edits, edits, lines_blankSwitches]
  exact ⟨hstep, congrArg List.toArray hfaults⟩

/-- `.start` and `.end` only choose among the placed lines.  The text without them has the same
symbols, address, encoding and faults; the lines of the text are those of the text without them, but
for what the switches leave out; and they come to the same in both. -/
theorem switches_only_filter {a : Architecture} (ha : a ∈ Architecture.switched) (text : String) :
    let chosen := a.dialect.firstPass text
    let whole := a.dialect.firstPass (a.dialect.blankSwitches text)
    chosen.1.labels = whole.1.labels ∧
    chosen.1.constants = whole.1.constants ∧
    chosen.1.address = whole.1.address ∧
    chosen.1.encoding = whole.1.encoding ∧
    chosen.2 = whole.2 ∧
    chosen.1.lines.toList =
      whole.1.lines.toList.filter (a.dialect.keepsPlaced text (Text.lines text).length) ∧
    ∀ placed ∈ chosen.1.lines.toList,
      a.dialect.resolveLine (a.dialect.symbols chosen.1) placed =
        a.dialect.resolveLine (a.dialect.symbols whole.1) placed := by
  dsimp only
  have hdialect := Architecture.wellFormed (Architecture.mem_all_of_switched ha)
  obtain ⟨hstep, hfaults⟩ := inStep_firstPass (Architecture.hasSwitches ha) hdialect text
  obtain ⟨haddress, hlabels, hconstants, hencoding⟩ := hstep.agree
  refine ⟨hlabels, hconstants, haddress, hencoding, hfaults, hstep.lines, ?_⟩
  intro placed _
  rw [symbols, symbols, hlabels, hconstants]

/-- The data before the first `.start` and that behind the `.end` are left out, and so is the label
before the `.start`, but not the one behind the `.end`; both labels keep their addresses. -/
theorem start_drops_and_end_skips :
    let dialect := Architecture.v8.dialect
    let text := "x:\n.data 1\n.start\n.data x\n.end\n.data 3\ny:\n.Start\n.data y"
    let chosen := dialect.firstPass text
    let whole := dialect.firstPass (dialect.blankSwitches text)
    Architecture.v8 ∈ Architecture.switched ∧
    whole.1.lines.toList.map Placed.line = [0, 1, 3, 5, 6, 8] ∧
    chosen.1.lines.toList.map Placed.line = [3, 6, 8] ∧
    chosen.1.labels = [("x", 0), ("y", 3)] ∧
    chosen.1.labels = whole.1.labels ∧
    chosen.1.lines.toList =
      whole.1.lines.toList.filter (dialect.keepsPlaced text (Text.lines text).length) := by
  dsimp only
  have hv8 : Architecture.v8 ∈ Architecture.switched := by simp [Architecture.switched]
  obtain ⟨hlabels, -, -, -, -, hlines, -⟩ := switches_only_filter hv8
    "x:\n.data 1\n.start\n.data x\n.end\n.data 3\ny:\n.Start\n.data y"
  refine ⟨hv8, ?_⟩
  -- the three facts that are evaluated go together, since both passes stand in each of them
  simp only [← and_assoc]
  exact ⟨⟨by decide +kernel, hlabels⟩, hlines⟩

end Dialect

end PocketAsm

/-
  Proofs/Lines.lean --- the edits that a line can make.

  `Dialect.Makes` is the table of what each action does to a program; every edit
  of a line, however deep in its expansions, is in it and names the line it comes
  from (`mem_perform`).
  `placeText_forall` is the induction over expansions: a property of edits that
  holds for each action holds for whole lines.  From the two together follows
  what only a directive can do: drop lines and move the address.
-/
import PocketAsm.Assembly
import PocketAsm.Proofs.Edits
import PocketAsm.Proofs.RuleTables

set_option autoImplicit false

namespace PocketAsm

/-- The edit adds a line to the program, unless lines are not kept. -/
def Edit.isLine : Edit → Bool
  | .place .. | .label .. => true
  | _ => false

/-- An instruction or label that the edit adds names the line with the given number. -/
def Edit.ComesFrom (number : Nat) : Edit → Prop
  | .place _ _ source => source.line = number
  | .label _ source => source.line = number
  | _ => True

namespace Dialect

variable {dialect : Dialect}

/-! ## How a text is handled -/

/-- A text does nothing, or it is expanded, or its action is carried out. -/
theorem placeText_cases (dialect : Dialect) (levels : Nat) (source : Source) (text : String)
    (p : Program) :
    (dialect.placeText levels source text p).edits = [] ∨
    (∃ lines further, Rule.find? dialect.rules text.toList = some (.expand lines) ∧
      levels = further + 1 ∧
      dialect.placeText levels source text p =
        placeAll (dialect.placeText further source) lines p []) ∨
    (∃ action, Rule.find? dialect.rules text.toList = some action ∧
      (∀ lines, action ≠ .expand lines) ∧
      dialect.placeText levels source text p =
        dialect.perform { source with matched := text } p action) := by
  unfold placeText
  split
  · exact Or.inl rfl
  · split
    · exact Or.inl rfl
    · rename_i lines hfind
      split
      · exact Or.inl rfl
      · exact Or.inl rfl
      · exact Or.inr (Or.inl ⟨lines, _, hfind, rfl, rfl⟩)
    · rename_i action hexpand hfind
      exact Or.inr (Or.inr ⟨action, hfind, fun lines h => hexpand lines (by rw [h]), rfl⟩)

/-! ## Induction over the edits of a line -/

section Induction

variable {P : Program → Prop} {Q : Edit → Prop}

/-- What holds for the edits of each text holds for those of all of them. -/
theorem placeAll_forall (step : ∀ p e, P p → Q e → P (p.apply e))
    {place : String → Program → Outcome} :
    ∀ (texts : List String) (p : Program) (done : List Edit),
      (∀ text ∈ texts, ∀ p, P p → ∀ e ∈ (place text p).edits, Q e) → P p →
      (∀ e ∈ done, Q e) → ∀ e ∈ (placeAll place texts p done).edits, Q e := by
  intro texts
  induction texts with
  | nil =>
    intro p done _ _ hdone e he
    exact hdone e (List.mem_reverse.mp he)
  | cons text texts ih =>
    intro p done hplace hp hdone
    have hnext : ∀ e ∈ (place text p).edits, Q e := hplace text List.mem_cons_self p hp
    have hboth : ∀ e ∈ (place text p).edits.reverse ++ done, Q e := by
      intro e he
      rcases List.mem_append.mp he with he | he
      · exact hnext e (List.mem_reverse.mp he)
      · exact hdone e he
    rw [placeAll]
    split
    · exact fun e he => hboth e (List.mem_reverse.mp he)
    · refine ih _ _ (fun t ht => hplace t (List.mem_cons_of_mem text ht)) ?_ hboth
      exact Program.applyAll_induction step _ hp hnext

/-- What holds for the edits of each action holds for those of a text.  The property `R` restricts
the texts; the lines of an expansion must have it. -/
theorem placeText_forall {R : String → Prop} (step : ∀ p e, P p → Q e → P (p.apply e))
    (hexpand : ∀ (text : String) lines,
      Rule.find? dialect.rules text.toList = some (.expand lines) → ∀ line ∈ lines, R line)
    (haction : ∀ (text : String) action, R text →
      Rule.find? dialect.rules text.toList = some action →
      ∀ source p, P p → ∀ e ∈ (dialect.perform source p action).edits, Q e) :
    ∀ (levels : Nat) (source : Source) (text : String) (p : Program), R text → P p →
      ∀ e ∈ (dialect.placeText levels source text p).edits, Q e := by
  intro levels
  induction levels with
  | zero =>
    intro source text p hR hp e he
    obtain hnil | ⟨_, _, _, hlevels, _⟩ | ⟨action, hfind, _, heq⟩ :=
      placeText_cases dialect 0 source text p
    · simp [hnil] at he
    · simp at hlevels
    · exact haction text action hR hfind _ p hp e (heq ▸ he)
  | succ levels ih =>
    intro source text p hR hp e he
    obtain hnil | ⟨lines, further, hfind, hlevels, heq⟩ | ⟨action, hfind, _, heq⟩ :=
      placeText_cases dialect (levels + 1) source text p
    · simp [hnil] at he
    · obtain rfl : levels = further := by simpa using hlevels
      rw [heq] at he
      refine placeAll_forall step lines p [] ?_ hp (by simp) e he
      intro line hline q hq
      exact ih source line q (hexpand text lines hfind line hline) hq
    · exact haction text action hR hfind _ p hp e (heq ▸ he)

end Induction

/-! ## The edits of an action -/

/-- An edit that an action may make on a program, with all that is known of it. -/
def Makes (dialect : Dialect) (p : Program) : Action → Edit → Prop
  | .emit fields words _, .place parts n _ => dialect.fieldParts p fields = .ok parts ∧ n = words
  | .data _ symbolWords, .place parts n _ =>
    ∃ part : Part, parts = [part] ∧ part.width = n * dialect.wordSize ∧ (n = 1 ∨ n = symbolWords)
  | .repeat _ _ symbolWords, .place parts n _ =>
    ∃ part : Part, parts = [part] ∧ part.width = n * dialect.wordSize ∧ (n = 1 ∨ n = symbolWords)
  | .align _, .place parts n _ => parts = [.bits (List.replicate dialect.wordSize false)] ∧ n = 1
  | .string _, .place parts n _ =>
    ∃ (encoding : CharEncoding) (characters : List String) (bits : List Bits),
      p.encoding = some encoding ∧ characters.length ≤ encoding.perWord dialect.wordSize ∧
      characterBits encoding characters = .ok bits ∧
      parts = [.bits (characterWord dialect.wordSize bits)] ∧ n = 1
  | .label name, .label defined _ => defined = name
  | .constant name _, .constant defined _ => defined = name
  | .address _, .moveTo _ => True
  | .resume, .resume => True
  | .stop, .stop => True
  | .encoding name, .encodeBy encoding => CharEncoding.find? (Text.lower name) = some encoding
  | _, _ => False

/-- The part that an operand makes has the width of its field. -/
theorem width_of_operand {p : Program} {text : String} {width : Nat} {signed relative : Bool}
    {part : Part} (h : dialect.operand p text width signed relative = .ok part) :
    part.width = width := by
  unfold operand at h
  split at h
  · simp at h
  · split at h
    · simp at h
    · rename_i bits hbits
      rw [← Except.ok.inj h]
      exact Bits.length_of_encodeField hbits
  · rw [← Except.ok.inj h]
    rfl

/-- An item of data is one part, which fills one word or as many as a symbol takes. -/
theorem mem_placeItem {symbolWords : Nat} {source : Source} {item : String} {p : Program} {e : Edit}
    (h : e ∈ (dialect.placeItem symbolWords source item p).edits) :
    ∃ (part : Part) (n : Nat), e = .place [part] n source ∧
      part.width = n * dialect.wordSize ∧ (n = 1 ∨ n = symbolWords) := by
  unfold placeItem at h
  split at h
  · simp [Outcome.refused] at h
  · rename_i found _
    simp only at h
    split at h
    · simp [Outcome.refused] at h
    · rename_i part hpart
      refine ⟨part, _, List.mem_singleton.mp h, width_of_operand hpart, ?_⟩
      by_cases hfound : found.isSome <;> simp [hfound]

theorem mem_placeItems {symbolWords : Nat} {source : Source} {items : List String} {p : Program}
    {e : Edit} (h : e ∈ (placeAll (dialect.placeItem symbolWords source) items p []).edits) :
    ∃ (part : Part) (n : Nat), e = .place [part] n source ∧
      part.width = n * dialect.wordSize ∧ (n = 1 ∨ n = symbolWords) :=
  placeAll_forall (P := fun _ => True) (fun _ _ _ _ => trivial) items p []
    (fun _ _ _ _ _ he => mem_placeItem he) trivial (by simp) e h

/-- The words of a string come from its pieces. -/
theorem mem_placeWords {encoding : CharEncoding} {wordSize : Nat} {source : Source} {e : Edit} :
    ∀ (pieces : List (List String)) (done : List Edit),
      e ∈ (placeWords encoding wordSize source pieces done).edits →
      e ∈ done ∨ ∃ characters ∈ pieces, ∃ bits, characterBits encoding characters = .ok bits ∧
        e = .place [.bits (characterWord wordSize bits)] 1 source := by
  intro pieces
  induction pieces with
  | nil =>
    intro done h
    exact Or.inl (List.mem_reverse.mp h)
  | cons characters rest ih =>
    intro done h
    rw [placeWords] at h
    split at h
    · exact Or.inl (List.mem_reverse.mp h)
    · rename_i bits hbits
      rcases ih _ h with hdone | ⟨characters', hmem, hword⟩
      · rcases List.mem_cons.mp hdone with rfl | hdone
        · exact Or.inr ⟨characters, List.mem_cons_self, bits, hbits, rfl⟩
        · exact Or.inl hdone
      · exact Or.inr ⟨characters', List.mem_cons_of_mem _ hmem, hword⟩

/-- Everything that carrying out an action can do, and the line that what it adds comes from. -/
theorem mem_perform {source : Source} {p : Program} {action : Action} {e : Edit}
    (h : e ∈ (dialect.perform source p action).edits) :
    dialect.Makes p action e ∧ e.ComesFrom source.line := by
  cases action with
  | emit fields words mark =>
    unfold perform at h
    dsimp only at h
    split at h
    · simp [Outcome.refused] at h
    · rename_i parts hparts
      rw [List.mem_singleton.mp h]
      exact ⟨⟨hparts, rfl⟩, rfl⟩
  | expand lines =>
    unfold perform at h
    simp [Outcome.nothing] at h
  | reject fault =>
    unfold perform at h
    simp [Outcome.refused] at h
  | label name =>
    unfold perform Program.defineLabel at h
    dsimp only at h
    split at h
    · simp [Outcome.ofEdit, Outcome.refused] at h
    · rw [List.mem_singleton.mp h]
      exact ⟨rfl, rfl⟩
  | data items symbolWords =>
    obtain ⟨part, n, rfl, hwidth, hn⟩ := mem_placeItems h
    exact ⟨⟨part, rfl, hwidth, hn⟩, rfl⟩
  | «repeat» item count symbolWords =>
    unfold perform at h
    dsimp only at h
    split at h
    · simp [Outcome.refused] at h
    · split at h
      · obtain ⟨part, n, rfl, hwidth, hn⟩ := mem_placeItems h
        exact ⟨⟨part, rfl, hwidth, hn⟩, rfl⟩
      · simp [Outcome.refused] at h
  | constant name value =>
    unfold perform Program.defineConstant at h
    dsimp only at h
    split at h
    · simp [Outcome.refused] at h
    · split at h
      · simp [Outcome.ofEdit, Outcome.refused] at h
      · rw [List.mem_singleton.mp h]
        exact ⟨rfl, trivial⟩
  | address value =>
    unfold perform Program.setAddress at h
    dsimp only at h
    split at h
    · simp [Outcome.refused] at h
    · split at h
      · simp [Outcome.ofEdit, Outcome.refused] at h
      · rw [List.mem_singleton.mp h]
        exact ⟨trivial, trivial⟩
  | align boundary =>
    unfold perform at h
    simp only [Program.align_eq] at h
    split at h
    · simp [Outcome.refused] at h
    · split at h
      · simp [Outcome.ofEdits, Outcome.refused] at h
      · rw [List.eq_of_mem_replicate h]
        exact ⟨⟨rfl, rfl⟩, rfl⟩
  | resume =>
    rw [List.mem_singleton.mp h]
    exact ⟨trivial, trivial⟩
  | stop =>
    rw [List.mem_singleton.mp h]
    exact ⟨trivial, trivial⟩
  | string literal =>
    unfold perform placeString at h
    dsimp only at h
    split at h
    · simp [Outcome.nothing] at h
    · rename_i encoding hencoding
      obtain hnil | ⟨characters, hmem, bits, hbits, rfl⟩ := mem_placeWords _ _ h
      · simp at hnil
      · exact ⟨⟨encoding, characters, bits, hencoding, Bits.length_le_of_mem_pieces hmem, hbits, rfl,
          rfl⟩, rfl⟩
  | encoding name =>
    unfold perform at h
    dsimp only at h
    split at h
    · rename_i encoding hfind
      rw [List.mem_singleton.mp h]
      exact ⟨hfind, trivial⟩
    · simp [Outcome.refused] at h

theorem makes_of_mem_perform {source : Source} {p : Program} {action : Action} {e : Edit}
    (h : e ∈ (dialect.perform source p action).edits) : dialect.Makes p action e :=
  (mem_perform h).1

/-! ## What only directives do -/

/-- An action that is no directive only adds lines. -/
theorem Makes.isLine {p : Program} {action : Action} {e : Edit} (h : dialect.Makes p action e)
    (haction : action.isDirective = false) : e.isLine = true := by
  cases e with
  | place parts words source => rfl
  | label name source => rfl
  | _ => cases action <;> simp_all [Makes, Action.isDirective]

/-- A text that does not begin with a point only adds lines. -/
theorem isLine_of_unpointed {maxWords : Nat} (hdialect : dialect.WellFormed maxWords)
    (levels : Nat) (source : Source) {text : String} (p : Program) (htext : Unpointed text) :
    ∀ e ∈ (dialect.placeText levels source text p).edits, e.isLine = true := by
  refine placeText_forall (P := fun _ => True) (R := Unpointed) (fun _ _ _ _ => trivial) ?_ ?_
    levels source text p htext trivial
  · intro text lines hfind
    exact hdialect.action hfind
  · intro text action htext hfind source p _ e he
    exact (makes_of_mem_perform he).isLine (hdialect.isDirective_eq_false htext hfind)

/-- An edit of a line that does more than add a line is made by the directive on the line, never by
an expansion. -/
theorem makes_of_not_isLine {maxWords : Nat} (hdialect : dialect.WellFormed maxWords)
    {levels : Nat} {source : Source} {text : String} {p : Program} {e : Edit}
    (he : e ∈ (dialect.placeText levels source text p).edits) (hline : e.isLine = false) :
    ∃ action, Rule.find? dialect.rules text.toList = some action ∧ dialect.Makes p action e ∧
      dialect.placeText levels source text p =
        dialect.perform { source with matched := text } p action := by
  obtain hnil | ⟨lines, further, hfind, _, heq⟩ | ⟨action, hfind, _, heq⟩ :=
    placeText_cases dialect levels source text p
  · simp [hnil] at he
  · rw [heq] at he
    have hadds : e.isLine = true := by
      refine placeAll_forall (P := fun _ => True) (Q := fun e => e.isLine = true)
        (fun _ _ _ _ => trivial) lines p [] ?_ trivial (by simp) e he
      intro line hmem q _
      exact isLine_of_unpointed hdialect further source q (hdialect.action hfind line hmem)
    simp [hadds] at hline
  · exact ⟨action, hfind, makes_of_mem_perform (heq ▸ he), heq⟩

/-- A line that drops lines does nothing else, so it does not fail. -/
theorem fault_of_mem_resume {maxWords : Nat} (hdialect : dialect.WellFormed maxWords)
    {levels : Nat} {source : Source} {text : String} {p : Program}
    (he : Edit.resume ∈ (dialect.placeText levels source text p).edits) :
    (dialect.placeText levels source text p).fault = none := by
  obtain ⟨action, _, hmakes, heq⟩ := makes_of_not_isLine hdialect he rfl
  cases action with
  | resume => rw [heq]; rfl
  | _ => exact hmakes.elim

/-- Only an `.address` line moves the address. -/
theorem address_of_mem_moveTo {maxWords : Nat} (hdialect : dialect.WellFormed maxWords)
    {levels : Nat} {source : Source} {text : String} {p : Program} {address : Nat}
    (he : Edit.moveTo address ∈ (dialect.placeText levels source text p).edits) :
    ∃ value, Rule.find? dialect.rules text.toList = some (.address value) := by
  obtain ⟨action, hfind, hmakes, _⟩ := makes_of_not_isLine hdialect he rfl
  cases action with
  | address value => exact ⟨value, hfind⟩
  | _ => exact hmakes.elim

end Dialect

end PocketAsm

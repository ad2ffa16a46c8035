/-
  Proofs/Edits.lean --- what edits do to a program, and what a checkpoint undoes.

  Every edit but `Edit.resume` only adds to the lines, the labels and the
  constants of a program (`Extends`), and a program that only grew since a
  checkpoint is recovered from the counts of that checkpoint alone.  The rest
  of the file follows an instruction from the edit that places it to the line
  that holds it: its address is the current one at that moment, and the current
  address then moves on by the words of the edit.
-/
import Mathlib.Tactic
import PocketAsm.Program

set_option autoImplicit false

namespace PocketAsm.Program

/-! ## Runs of edits -/

@[simp] theorem applyAll_nil (p : Program) : p.applyAll [] = p := rfl

@[simp] theorem applyAll_cons (p : Program) (e : Edit) (edits : List Edit) :
    p.applyAll (e :: edits) = (p.apply e).applyAll edits := rfl

@[simp] theorem applyAll_append (p : Program) (first second : List Edit) :
    p.applyAll (first ++ second) = (p.applyAll first).applyAll second := by
  simp [applyAll]

/-- What each edit of a run keeps, the whole run keeps. -/
theorem applyAll_induction {P : Program → Prop} {Q : Edit → Prop}
    (step : ∀ p e, P p → Q e → P (p.apply e)) (edits : List Edit) {p : Program}
    (hp : P p) (hgood : ∀ e ∈ edits, Q e) : P (p.applyAll edits) := by
  induction edits generalizing p with
  | nil => exact hp
  | cons e edits ih =>
    have he : Q e := hgood e List.mem_cons_self
    exact ih (step p e hp he) fun e' he' => hgood e' (List.mem_cons_of_mem e he')

/-! ## Growth -/

/-- The second program has whatever the first one has, and perhaps more behind it. -/
structure Extends (p q : Program) : Prop where
  lines : p.lines.toList <+: q.lines.toList
  labels : p.labels <+: q.labels
  constants : p.constants <+: q.constants

theorem Extends.refl (p : Program) : p.Extends p :=
  ⟨List.prefix_rfl, List.prefix_rfl, List.prefix_rfl⟩

theorem Extends.trans {p q r : Program} (h₁ : p.Extends q) (h₂ : q.Extends r) : p.Extends r :=
  ⟨h₁.lines.trans h₂.lines, h₁.labels.trans h₂.labels, h₁.constants.trans h₂.constants⟩

/-- Every edit but the one that may drop lines only adds. -/
theorem extends_apply (p : Program) {e : Edit} (he : e ≠ .resume) : p.Extends (p.apply e) := by
  cases e with
  | place parts words source =>
    refine ⟨?_, List.prefix_rfl, List.prefix_rfl⟩
    by_cases h : p.keeps <;> simp [apply, h]
  | label name source => exact ⟨by simp [apply], List.prefix_append _ _, List.prefix_rfl⟩
  | constant name value => exact ⟨List.prefix_rfl, List.prefix_rfl, List.prefix_append _ _⟩
  | moveTo address => exact ⟨List.prefix_rfl, List.prefix_rfl, List.prefix_rfl⟩
  | resume => exact absurd rfl he
  | stop => exact ⟨List.prefix_rfl, List.prefix_rfl, List.prefix_rfl⟩
  | encodeBy encoding => exact ⟨List.prefix_rfl, List.prefix_rfl, List.prefix_rfl⟩

theorem extends_applyAll (p : Program) {edits : List Edit} (h : ∀ e ∈ edits, e ≠ .resume) :
    p.Extends (p.applyAll edits) :=
  applyAll_induction (P := p.Extends) (fun q _ hq he => hq.trans (q.extends_apply he)) edits
    (Extends.refl p) h

/-! ## Checkpoints -/

/-- Whatever was added since a checkpoint is cut off by its counts. -/
theorem rollback_of_extends {p q : Program} (h : p.Extends q) : q.rollback p.checkpoint = p := by
  have hlines : q.lines.take p.lines.size = p.lines := by
    apply Array.toList_inj.mp
    obtain ⟨more, hmore⟩ := h.lines
    simp [← hmore]
  have hlabels : q.labels.take p.labels.length = p.labels := by
    obtain ⟨more, hmore⟩ := h.labels
    simp [← hmore]
  have hconstants : q.constants.take p.constants.length = p.constants := by
    obtain ⟨more, hmore⟩ := h.constants
    simp [← hmore]
  simp [rollback, checkpoint, hlines, hlabels, hconstants]

/-- Going back to a checkpoint undoes all edits made since, unless one of them dropped lines. -/
theorem rollback_applyAll (p : Program) {edits : List Edit} (h : ∀ e ∈ edits, e ≠ .resume) :
    (p.applyAll edits).rollback p.checkpoint = p :=
  rollback_of_extends (p.extends_applyAll h)

/-! ## Where an instruction comes from -/

section Instructions

variable {p : Program} {address : Nat} {source : Source} {parts : List Part}

/-- An edit adds an instruction only by placing it, at the current address. -/
theorem mem_lines_apply {e : Edit} (h : .instruction address source parts ∈ (p.apply e).lines) :
    .instruction address source parts ∈ p.lines ∨
      ∃ words, e = .place parts words source ∧ address = p.address := by
  cases e with
  | place placed words origin =>
    simp only [apply] at h
    split at h
    · rcases Array.mem_push.mp h with h | h
      · exact Or.inl h
      · obtain ⟨rfl, rfl, rfl⟩ := Placed.instruction.inj h
        exact Or.inr ⟨words, rfl, rfl⟩
    · exact Or.inl h
  | label name origin =>
    rcases Array.mem_push.mp h with h | h
    · exact Or.inl h
    · simp at h
  | resume =>
    simp only [apply] at h
    split at h
    · simp at h
    · exact Or.inl h
  | constant name value => exact Or.inl h
  | moveTo target => exact Or.inl h
  | stop => exact Or.inl h
  | encodeBy encoding => exact Or.inl h

/-- An instruction that a run of edits added was placed by one of them, at the address that was the
current one then. -/
theorem exists_place_of_mem_lines {edits : List Edit}
    (h : .instruction address source parts ∈ (p.applyAll edits).lines) :
    .instruction address source parts ∈ p.lines ∨
      ∃ before words after, edits = before ++ Edit.place parts words source :: after ∧
        address = (p.applyAll before).address := by
  induction edits generalizing p with
  | nil => exact Or.inl h
  | cons e edits ih =>
    rcases ih h with hmem | ⟨before, words, after, rfl, haddress⟩
    · rcases mem_lines_apply hmem with hmem | ⟨words, rfl, haddress⟩
      · exact Or.inl hmem
      · exact Or.inr ⟨[], words, edits, rfl, haddress⟩
    · exact Or.inr ⟨e :: before, words, after, rfl, haddress⟩

end Instructions

end PocketAsm.Program

/-
  Proofs/Precedence.lean --- rules in their order.

  The first rule that matches a line decides, so a rule has to do the right
  thing only with lines that no rule before it matches (`Rule.SoundAfter`).  A
  table whose rules all do so, each in its place (`Rule.SoundEach`), does the
  right thing with every line (`Rule.SoundEach.of_find?`).
-/
import PocketAsm.Proofs.Fields

set_option autoImplicit false

namespace PocketAsm.Rule

variable {P : List Char → Action → Prop} {earlier earlier' rules : List Rule}

/-- What the rule does with a line that it matches, and that no earlier rule does, is right. -/
def SoundAfter (P : List Char → Action → Prop) (earlier : List Rule) (rule : Rule) : Prop :=
  ∀ cs caps, rule.pattern.match? cs = some caps →
    (∀ other ∈ earlier, other.pattern.match? cs = none) → P cs (rule.action caps)

/-- Every rule of a table is sound in its place, behind the earlier ones. -/
def SoundEach (P : List Char → Action → Prop) : List Rule → List Rule → Prop
  | _, [] => True
  | earlier, rule :: rules => SoundAfter P earlier rule ∧ SoundEach P (earlier ++ [rule]) rules

theorem SoundAfter.mono {rule : Rule} (h : SoundAfter P earlier rule) (hsub : earlier ⊆ earlier') :
    SoundAfter P earlier' rule :=
  fun cs caps hmatch hearlier => h cs caps hmatch fun other hother => hearlier other (hsub hother)

theorem soundEach_append {first second : List Rule} :
    SoundEach P earlier (first ++ second) ↔
      SoundEach P earlier first ∧ SoundEach P (earlier ++ first) second := by
  induction first generalizing earlier with
  | nil => simp [SoundEach]
  | cons rule first ih =>
    rw [List.cons_append, SoundEach, SoundEach, ih, List.append_assoc, List.singleton_append,
      and_assoc]

/-- Rules that are sound whatever comes between them are sound in a row. -/
theorem SoundEach.of_forall (h : ∀ rule ∈ rules, SoundAfter P earlier rule) :
    SoundEach P earlier rules := by
  induction rules generalizing earlier with
  | nil => trivial
  | cons rule rules ih =>
    obtain ⟨hrule, hrules⟩ := List.forall_mem_cons.mp h
    exact ⟨hrule, ih fun other hother => (hrules other hother).mono (by simp)⟩

/-- The rule that decides does the right thing. -/
theorem SoundEach.of_find? (h : SoundEach P earlier rules) {cs : List Char}
    (hearlier : ∀ other ∈ earlier, other.pattern.match? cs = none) {action : Action}
    (hfind : find? rules cs = some action) : P cs action := by
  induction rules generalizing earlier with
  | nil => simp [find?] at hfind
  | cons rule rules ih =>
    obtain ⟨hrule, hrules⟩ := h
    cases hmatch : rule.pattern.match? cs with
    | some caps =>
      rw [find?_of_match hmatch] at hfind
      exact Option.some.inj hfind ▸ hrule cs caps hmatch hearlier
    | none =>
      rw [find?_of_no_match hmatch] at hfind
      refine ih hrules ?_ hfind
      intro other hother
      rcases List.mem_append.mp hother with hother | hother
      · exact hearlier other hother
      · rw [List.mem_singleton.mp hother, hmatch]

end PocketAsm.Rule

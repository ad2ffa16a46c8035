/-
  Proofs/Matching.lean --- what a match says about the text.

  A pattern accepts a text by one of its ways (`mem_ways_of_match?`), and the
  first rule of a table that accepts a text is a rule of the table
  (`Rule.exists_of_find?`).  A pattern that begins with a given sign accepts
  only texts that begin with it; this is what keeps directives, which begin
  with a point, apart from everything an expansion can write.
-/
import Mathlib.Tactic
import PocketAsm.Dialect

set_option autoImplicit false

namespace PocketAsm

namespace Pattern

/-! ## Ways of a match -/

/-- The captures of a match are those of a way that leaves nothing over. -/
theorem mem_ways_of_match? {pattern : Pattern} {cs : List Char} {caps : Captures}
    (h : pattern.match? cs = some caps) : ([], caps) ∈ pattern.ways cs [] := by
  rw [match?, run_eq_findSome?] at h
  obtain ⟨⟨rest, found⟩, hmem, hway⟩ := List.exists_of_findSome?_eq_some h
  cases rest with
  | nil =>
    have hcaps : found = caps := by simpa using hway
    exact hcaps ▸ hmem
  | cons c rest => simp at hway

/-! ## The first sign of a text -/

/-- Every text at whose front the pattern matches begins with a sign of the class. -/
def BeginsWith (p : Char → Bool) (pattern : Pattern) : Prop :=
  ∀ cs caps, ∀ way ∈ pattern.ways cs caps, ∃ c rest, cs = c :: rest ∧ p c

theorem beginsWith_one (p : Char → Bool) : (Pattern.one p).BeginsWith p := by
  intro cs caps way hway
  cases cs with
  | nil => simp [ways] at hway
  | cons c rest =>
    by_cases hc : p c
    · exact ⟨c, rest, rfl, hc⟩
    · simp [ways, hc] at hway

theorem BeginsWith.seq {p : Char → Bool} {first : Pattern} (h : first.BeginsWith p)
    (second : Pattern) : (Pattern.seq first second).BeginsWith p := by
  intro cs caps way hway
  obtain ⟨firstWay, hfirst, _⟩ := List.mem_flatMap.mp hway
  exact h cs caps firstWay hfirst

/-- A sequence of patterns begins as its first one does. -/
theorem BeginsWith.all {p : Char → Bool} {first : Pattern} (h : first.BeginsWith p)
    (rest : List Pattern) : (Pattern.all (first :: rest)).BeginsWith p := by
  cases rest with
  | nil => exact h
  | cons second rest => exact h.seq (Pattern.all (second :: rest))

/-- Literal text begins with its first letter, in either case. -/
theorem beginsWith_lit {s : String} {c : Char} (h : s.toList.head? = some c) :
    (Pattern.lit s).BeginsWith (Text.sameLetter c) := by
  obtain ⟨cs, hs⟩ := List.head?_eq_some_iff.mp h
  rw [Pattern.lit, hs, List.map_cons]
  exact (beginsWith_one _).all (cs.map letter)

theorem BeginsWith.head_of_match? {p : Char → Bool} {pattern : Pattern} (h : pattern.BeginsWith p)
    {cs : List Char} {caps : Captures} (hmatch : pattern.match? cs = some caps) :
    ∃ c rest, cs = c :: rest ∧ p c :=
  h cs [] _ (mem_ways_of_match? hmatch)

end Pattern

/-! ## The rule that decides -/

/-- The action for a text comes from a rule of the table whose pattern matches the text. -/
theorem Rule.exists_of_find? {rules : List Rule} {cs : List Char} {action : Action}
    (h : Rule.find? rules cs = some action) :
    ∃ rule ∈ rules, ∃ caps, rule.pattern.match? cs = some caps ∧ rule.action caps = action := by
  obtain ⟨rule, hmem, hrule⟩ := List.exists_of_findSome?_eq_some h
  obtain ⟨caps, hmatch, haction⟩ := Option.map_eq_some_iff.mp hrule
  exact ⟨rule, hmem, caps, hmatch, haction⟩

end PocketAsm

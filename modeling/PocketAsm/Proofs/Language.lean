/-
  Proofs/Language.lean --- the texts that a pattern accepts.

  `Pattern.run` tries the ways of a match in an order.  For what a line means
  the order does not matter where the text can be taken apart in one way only,
  so this file says what a pattern accepts without it: `Pattern.Accepts`
  relates a text to the operands that are captured from it.  Matching is sound
  and complete for this relation (`accepts_of_match?`, `match?_isSome`).

  The rest of the file opens the relation for the building blocks of patterns.
-/
import PocketAsm.Proofs.Matching

set_option autoImplicit false

namespace PocketAsm

/-- The operand in a slot, by the texts of the captures; an empty slot holds the empty text. -/
def captured (operands : List (Slot × String)) (slot : Slot) : String :=
  (List.lookup slot operands).getD ""

/-- The texts of the captures. -/
def Captures.texts (caps : Captures) : List (Slot × String) :=
  caps.map fun c => (c.1, c.2.text)

theorem Captures.get_eq_captured (caps : Captures) (slot : Slot) :
    caps.get slot = captured caps.texts slot := by
  induction caps with
  | nil => rfl
  | cons c caps ih =>
    obtain ⟨name, span⟩ := c
    cases h : slot == name with
    | true => simp [Captures.get, captured, Captures.texts, List.lookup_cons, h]
    | false =>
      have hget : Captures.get ((name, span) :: caps) slot = Captures.get caps slot := by
        simp [Captures.get, List.lookup_cons, h]
      rw [hget, ih]
      simp [captured, Captures.texts, List.lookup_cons, h]

namespace Pattern

/-! ## The relation -/

/-- The pattern accepts the whole text and captures the operands from it, the latest one first. -/
def Accepts : Pattern → List Char → List (Slot × String) → Prop
  | .empty, cs, ops => cs = [] ∧ ops = []
  | .one p, cs, ops => (∃ c, cs = [c] ∧ p c = true) ∧ ops = []
  | .many p, cs, ops => (∀ c ∈ cs, p c = true) ∧ ops = []
  | .few p, cs, ops => (∀ c ∈ cs, p c = true) ∧ ops = []
  | .seq first second, cs, ops =>
    ∃ x y u v, cs = x ++ y ∧ ops = v ++ u ∧ first.Accepts x u ∧ second.Accepts y v
  | .alt first second, cs, ops => first.Accepts cs ops ∨ second.Accepts cs ops
  | .slot name body, cs, ops =>
    ∃ u, body.Accepts cs u ∧ ops = (name, String.ofList cs) :: u

theorem manyRests_iff {p : Char → Bool} {cs rest : List Char} :
    rest ∈ manyRests p cs ↔ ∃ x, cs = x ++ rest ∧ ∀ c ∈ x, p c = true := by
  induction cs generalizing rest with
  | nil =>
    constructor
    · intro h
      exact ⟨[], by simpa [manyRests, eq_comm] using h, by simp⟩
    · rintro ⟨x, hx, -⟩
      simp_all [manyRests]
  | cons c cs ih =>
    constructor
    · intro h
      by_cases hc : p c
      · rw [manyRests, if_pos hc] at h
        rcases List.mem_append.mp h with h | h
        · obtain ⟨x, rfl, hx⟩ := ih.mp h
          exact ⟨c :: x, rfl, List.forall_mem_cons.mpr ⟨hc, hx⟩⟩
        · exact ⟨[], by simpa [eq_comm] using h, by simp⟩
      · rw [manyRests, if_neg hc] at h
        exact ⟨[], by simpa [eq_comm] using h, by simp⟩
    · rintro ⟨x, hx, hp⟩
      cases x with
      | nil => by_cases hc : p c <;> simp_all [manyRests]
      | cons d x =>
        obtain ⟨rfl, rfl⟩ := List.cons.inj hx
        obtain ⟨hc, hp⟩ := List.forall_mem_cons.mp hp
        rw [manyRests, if_pos hc]
        exact List.mem_append_left _ (ih.mpr ⟨x, rfl, hp⟩)

theorem fewRests_iff {p : Char → Bool} {cs rest : List Char} :
    rest ∈ fewRests p cs ↔ ∃ x, cs = x ++ rest ∧ ∀ c ∈ x, p c = true := by
  induction cs generalizing rest with
  | nil =>
    constructor
    · intro h
      exact ⟨[], by simpa [fewRests, eq_comm] using h, by simp⟩
    · rintro ⟨x, hx, -⟩
      simp_all [fewRests]
  | cons c cs ih =>
    constructor
    · intro h
      rw [fewRests] at h
      rcases List.mem_cons.mp h with rfl | h
      · exact ⟨[], rfl, by simp⟩
      · by_cases hc : p c
        · rw [if_pos hc] at h
          obtain ⟨x, rfl, hx⟩ := ih.mp h
          exact ⟨c :: x, rfl, List.forall_mem_cons.mpr ⟨hc, hx⟩⟩
        · simp [hc] at h
    · rintro ⟨x, hx, hp⟩
      rw [fewRests]
      cases x with
      | nil => simp_all
      | cons d x =>
        obtain ⟨rfl, rfl⟩ := List.cons.inj hx
        obtain ⟨hc, hp⟩ := List.forall_mem_cons.mp hp
        rw [if_pos hc]
        exact List.mem_cons_of_mem _ (ih.mpr ⟨x, rfl, hp⟩)

/-- The captured text is what stands before the rest. -/
theorem text_span (x rest : List Char) : Span.text ⟨x ++ rest, rest⟩ = String.ofList x := by
  simp [Span.text]

/-- A way of matching takes an accepted text off the front and adds its operands. -/
theorem accepts_of_mem_ways {pattern : Pattern} {cs : List Char} {caps : Captures}
    {way : List Char × Captures} (h : way ∈ pattern.ways cs caps) :
    ∃ x ops, cs = x ++ way.1 ∧ pattern.Accepts x ops ∧ way.2.texts = ops ++ caps.texts := by
  induction pattern generalizing cs caps way with
  | empty =>
    rw [ways, List.mem_singleton] at h
    subst h
    exact ⟨[], [], rfl, ⟨rfl, rfl⟩, rfl⟩
  | one p =>
    cases cs with
    | nil => simp [ways] at h
    | cons c rest =>
      by_cases hc : p c
      · rw [ways, if_pos hc, List.mem_singleton] at h
        subst h
        exact ⟨[c], [], rfl, ⟨⟨c, rfl, hc⟩, rfl⟩, rfl⟩
      · simp [ways, hc] at h
  | many p =>
    obtain ⟨rest, hrest, rfl⟩ := List.mem_map.mp h
    obtain ⟨x, hx, hp⟩ := manyRests_iff.mp hrest
    exact ⟨x, [], hx, ⟨hp, rfl⟩, rfl⟩
  | few p =>
    obtain ⟨rest, hrest, rfl⟩ := List.mem_map.mp h
    obtain ⟨x, hx, hp⟩ := fewRests_iff.mp hrest
    exact ⟨x, [], hx, ⟨hp, rfl⟩, rfl⟩
  | seq first second ih₁ ih₂ =>
    obtain ⟨between, hfirst, hsecond⟩ := List.mem_flatMap.mp h
    obtain ⟨x, u, hx, haccepts₁, htexts₁⟩ := ih₁ hfirst
    obtain ⟨y, v, hy, haccepts₂, htexts₂⟩ := ih₂ hsecond
    refine ⟨x ++ y, v ++ u, ?_, ⟨x, y, u, v, rfl, rfl, haccepts₁, haccepts₂⟩, ?_⟩
    · rw [hx, hy, List.append_assoc]
    · rw [htexts₂, htexts₁, List.append_assoc]
  | alt first second ih₁ ih₂ =>
    rcases List.mem_append.mp h with h | h
    · obtain ⟨x, ops, hx, haccepts, htexts⟩ := ih₁ h
      exact ⟨x, ops, hx, Or.inl haccepts, htexts⟩
    · obtain ⟨x, ops, hx, haccepts, htexts⟩ := ih₂ h
      exact ⟨x, ops, hx, Or.inr haccepts, htexts⟩
  | slot name body ih =>
    obtain ⟨inner, hinner, rfl⟩ := List.mem_map.mp h
    obtain ⟨x, ops, rfl, haccepts, htexts⟩ := ih hinner
    refine ⟨x, (name, String.ofList x) :: ops, rfl, ⟨ops, haccepts, rfl⟩, ?_⟩
    simp only [Captures.texts, List.map_cons, List.cons_append, text_span]
    exact congrArg _ htexts

/-- Every accepted text is taken off the front by a way of matching. -/
theorem exists_way_of_accepts {pattern : Pattern} {x : List Char} {ops : List (Slot × String)}
    (h : pattern.Accepts x ops) (rest : List Char) (caps : Captures) :
    ∃ found, (rest, found) ∈ pattern.ways (x ++ rest) caps := by
  induction pattern generalizing x ops rest caps with
  | empty =>
    obtain ⟨rfl, -⟩ := h
    exact ⟨caps, by simp [ways]⟩
  | one p =>
    obtain ⟨⟨c, rfl, hc⟩, -⟩ := h
    exact ⟨caps, by simp [ways, hc]⟩
  | many p =>
    exact ⟨caps, List.mem_map.mpr ⟨rest, manyRests_iff.mpr ⟨x, rfl, h.1⟩, rfl⟩⟩
  | few p =>
    exact ⟨caps, List.mem_map.mpr ⟨rest, fewRests_iff.mpr ⟨x, rfl, h.1⟩, rfl⟩⟩
  | seq first second ih₁ ih₂ =>
    obtain ⟨x, y, u, v, rfl, rfl, hfirst, hsecond⟩ := h
    obtain ⟨between, hbetween⟩ := ih₁ hfirst (y ++ rest) caps
    obtain ⟨found, hfound⟩ := ih₂ hsecond rest between
    refine ⟨found, List.mem_flatMap.mpr ⟨(y ++ rest, between), ?_, hfound⟩⟩
    rw [List.append_assoc]
    exact hbetween
  | alt first second ih₁ ih₂ =>
    rcases h with h | h
    · obtain ⟨found, hfound⟩ := ih₁ h rest caps
      exact ⟨found, List.mem_append_left _ hfound⟩
    · obtain ⟨found, hfound⟩ := ih₂ h rest caps
      exact ⟨found, List.mem_append_right _ hfound⟩
  | slot name body ih =>
    obtain ⟨u, hbody, -⟩ := h
    obtain ⟨found, hfound⟩ := ih hbody rest caps
    exact ⟨(name, ⟨x ++ rest, rest⟩) :: found, List.mem_map.mpr ⟨(rest, found), hfound, rfl⟩⟩

/-- A text that matches is accepted, with the operands that the match captured. -/
theorem accepts_of_match? {pattern : Pattern} {cs : List Char} {caps : Captures}
    (h : pattern.match? cs = some caps) :
    ∃ ops, pattern.Accepts cs ops ∧ ∀ slot, caps.get slot = captured ops slot := by
  obtain ⟨x, ops, hx, haccepts, htexts⟩ := accepts_of_mem_ways (mem_ways_of_match? h)
  have hcs : cs = x := by simpa using hx
  refine ⟨ops, hcs ▸ haccepts, fun slot => ?_⟩
  rw [Captures.get_eq_captured, htexts]
  simp [Captures.texts]

/-- A text that is accepted matches. -/
theorem match?_isSome {pattern : Pattern} {cs : List Char} {ops : List (Slot × String)}
    (h : pattern.Accepts cs ops) : (pattern.match? cs).isSome = true := by
  obtain ⟨found, hfound⟩ := exists_way_of_accepts h [] []
  rw [List.append_nil] at hfound
  rw [match?, run_eq_findSome?, List.findSome?_isSome_iff]
  exact ⟨_, hfound, rfl⟩

/-! ## Building blocks -/

theorem accepts_all_cons {p : Pattern} {ps : List Pattern} {cs : List Char}
    {ops : List (Slot × String)} :
    (all (p :: ps)).Accepts cs ops ↔
      ∃ x y u v, cs = x ++ y ∧ ops = v ++ u ∧ p.Accepts x u ∧ (all ps).Accepts y v := by
  cases ps with
  | cons q ps => exact Iff.rfl
  | nil =>
    constructor
    · intro h
      exact ⟨cs, [], ops, [], by simp, by simp, h, rfl, rfl⟩
    · rintro ⟨x, y, u, v, rfl, rfl, h, rfl, rfl⟩
      rw [List.append_nil, List.nil_append]
      exact h

theorem accepts_all_nil {cs : List Char} {ops : List (Slot × String)} :
    (all []).Accepts cs ops ↔ cs = [] ∧ ops = [] := Iff.rfl

theorem accepts_letter {c : Char} {cs : List Char} {ops : List (Slot × String)} :
    (letter c).Accepts cs ops ↔ (∃ d, cs = [d] ∧ Text.sameLetter c d = true) ∧ ops = [] := Iff.rfl

/-- Literal text is accepted in either case of its letters. -/
theorem accepts_lit {s : String} {cs : List Char} {ops : List (Slot × String)} :
    (lit s).Accepts cs ops ↔
      cs.map Text.foldLetter = s.toList.map Text.foldLetter ∧ ops = [] := by
  rw [lit]
  induction s.toList generalizing cs ops with
  | nil => simp [accepts_all_nil]
  | cons c rest ih =>
    rw [List.map_cons, accepts_all_cons]
    constructor
    · rintro ⟨x, y, u, v, rfl, rfl, ⟨⟨d, rfl, hd⟩, rfl⟩, hrest⟩
      obtain ⟨hy, rfl⟩ := ih.mp hrest
      have hcd : Text.foldLetter c = Text.foldLetter d := by simpa [Text.sameLetter] using hd
      simp [hy, hcd]
    · rintro ⟨hcs, rfl⟩
      cases cs with
      | nil => simp at hcs
      | cons d y =>
        obtain ⟨hd, hy⟩ := List.cons.inj hcs
        refine ⟨[d], y, [], [], rfl, rfl, ⟨⟨d, rfl, ?_⟩, rfl⟩, ih.mpr ⟨hy, rfl⟩⟩
        simp [Text.sameLetter, hd]

theorem accepts_oneOrMore {p : Char → Bool} {cs : List Char} {ops : List (Slot × String)} :
    (oneOrMore p).Accepts cs ops ↔ cs ≠ [] ∧ (∀ c ∈ cs, p c = true) ∧ ops = [] := by
  constructor
  · rintro ⟨x, y, u, v, rfl, rfl, ⟨⟨c, rfl, hc⟩, rfl⟩, hy, rfl⟩
    exact ⟨by simp, List.forall_mem_cons.mpr ⟨hc, hy⟩, rfl⟩
  · rintro ⟨hne, hcs, rfl⟩
    obtain ⟨c, y, rfl⟩ := List.exists_cons_of_ne_nil hne
    obtain ⟨hc, hy⟩ := List.forall_mem_cons.mp hcs
    exact ⟨[c], y, [], [], rfl, rfl, ⟨⟨c, rfl, hc⟩, rfl⟩, hy, rfl⟩

/-! ## Patterns without slots -/

/-- The pattern has no slots. -/
def slotFree : Pattern → Bool
  | .seq first second => first.slotFree && second.slotFree
  | .alt first second => first.slotFree && second.slotFree
  | .slot _ _ => false
  | _ => true

/-- Without slots nothing is captured. -/
theorem eq_nil_of_slotFree {pattern : Pattern} (hfree : pattern.slotFree = true) {cs : List Char}
    {ops : List (Slot × String)} (h : pattern.Accepts cs ops) : ops = [] := by
  induction pattern generalizing cs ops with
  | empty => exact h.2
  | one p => exact h.2
  | many p => exact h.2
  | few p => exact h.2
  | seq first second ih₁ ih₂ =>
    obtain ⟨hfree₁, hfree₂⟩ := Bool.and_eq_true_iff.mp hfree
    obtain ⟨x, y, u, v, -, rfl, hfirst, hsecond⟩ := h
    rw [ih₁ hfree₁ hfirst, ih₂ hfree₂ hsecond, List.append_nil]
  | alt first second ih₁ ih₂ =>
    obtain ⟨hfree₁, hfree₂⟩ := Bool.and_eq_true_iff.mp hfree
    rcases h with h | h
    · exact ih₁ hfree₁ h
    · exact ih₂ hfree₂ h
  | slot name body => simp [slotFree] at hfree

end Pattern

end PocketAsm

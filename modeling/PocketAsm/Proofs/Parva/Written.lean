/-
  Proofs/Parva/Written.lean --- lines with a list of operands are matched as they are written.

  A line is a mnemonic and operands with separators between them (`Written`).
  Separators may stand inside an operand in parentheses, so in general such a
  line can be taken apart in more than one way; if the operands before the last
  one are names of registers there is one way only (`Listed.unique`), and a
  match captures what was written (`find?_of_written`).
-/
import PocketAsm.Proofs.Parva.Expansions

set_option autoImplicit false

namespace PocketAsm.Parva

open Operand Pattern Text

variable {cs : List Char} {os : List (List Char)}

/-! ## One way to take a list apart -/

/-- A text without separators before a gap is as long as the gap lets it be. -/
theorem append_gap_inj {x y gap gap' rest rest' : List Char} (hx : Plain x) (hy : Plain y)
    (hgap : Gap gap) (hgap' : Gap gap') (hrest : Solid rest) (hrest' : Solid rest')
    (h : x ++ (gap ++ rest) = y ++ (gap' ++ rest')) : x = y ∧ rest = rest' := by
  have htail {gap rest : List Char} (hgap : Gap gap) (hrest : Solid rest) :
      (gap ++ rest).dropWhile isSeparator = rest := by
    rw [List.dropWhile_append_of_pos hgap.2]
    obtain ⟨c, others, rfl, hc⟩ := hrest
    simp [hc]
  obtain ⟨htake, hdrop⟩ := takeWhile_plain_append hx hgap rest
  obtain ⟨htake', hdrop'⟩ := takeWhile_plain_append hy hgap' rest'
  rw [h, htake'] at htake
  rw [h, hdrop'] at hdrop
  have hgaps := congrArg (List.dropWhile isSeparator) hdrop
  rw [htail hgap hrest, htail hgap' hrest'] at hgaps
  exact ⟨htake.symm, hgaps.symm⟩

/-- Operands that are names of registers, the last one apart, can be read in one way only. -/
theorem Listed.unique :
    ∀ {os : List (List Char)} {cs : List Char} {found : List (List Char)}, Listed os cs →
      Listed found cs → found.length = os.length →
      (∀ o ∈ os.dropLast, isRegister (String.ofList o) = true) → found = os := by
  intro os
  induction os with
  | nil => exact fun _ _ hlength _ => List.length_eq_zero_iff.mp hlength
  | cons o os ih =>
    intro cs found h hfound hlength hregisters
    obtain ⟨o', found, rfl⟩ := List.exists_cons_of_length_eq_add_one hlength
    have htail : found.length = os.length := by simpa using hlength
    cases os with
    | nil =>
      obtain rfl := List.length_eq_zero_iff.mp htail
      obtain ⟨rfl, -⟩ := h
      obtain ⟨rfl, -⟩ := hfound
      rfl
    | cons next os =>
      obtain ⟨next', found, rfl⟩ := List.exists_cons_of_length_eq_add_one htail
      obtain ⟨gap, rest, rfl, -, hgap, hrest⟩ := h
      obtain ⟨gap', rest', htext, hoperand, hgap', hrest'⟩ := hfound
      rw [List.dropLast_cons_cons, List.forall_mem_cons] at hregisters
      obtain ⟨hregister, hregisters⟩ := hregisters
      have hplain : Plain o := plain_of_isRegister hregister
      -- the operand that was found begins with the register, so it has no separators either
      have hplain' : Plain o' := by
        refine plain_of_front_isRegister hoperand (gap' ++ rest') ?_
        rw [← htext, firstField, (takeWhile_plain_append hplain hgap rest).1]
        exact hregister
      obtain ⟨rfl, rfl⟩ := append_gap_inj hplain hplain' hgap hgap' hrest.solid hrest'.solid htext
      rw [ih hrest hrest' htail hregisters]

/-! ## Lines as they are written -/

/-- The text is the operands with separators between them. -/
def Written : List (List Char) → List Char → Prop
  | [], cs => cs = []
  | [o], cs => cs = o ∧ Parva.operand.Accepts o []
  | o :: os, cs =>
    ∃ gap rest, cs = o ++ (gap ++ rest) ∧ Parva.operand.Accepts o [] ∧
      separator.Accepts gap [] ∧ Written os rest

theorem Written.cons {o next rest : List Char} (ho : Parva.operand.Accepts o [])
    (h : Written (next :: os) rest) :
    Written (o :: next :: os) (o ++ (", ".toList ++ rest)) :=
  ⟨_, rest, rfl, ho, accepts_comma, h⟩

theorem Written.listed :
    ∀ {os : List (List Char)} {cs : List Char}, Written os cs → Listed os cs := by
  intro os
  induction os with
  | nil => exact fun h => h
  | cons o os ih =>
    intro cs h
    cases os with
    | nil => exact h
    | cons next os =>
      obtain ⟨gap, rest, rfl, ho, hgap, hrest⟩ := h
      exact ⟨gap, rest, rfl, ho, (accepts_separator hgap).1, ih hrest⟩

/-- The pattern of a list of operands accepts them as they are written. -/
theorem Written.accepts : ∀ (slots : List Slot) {os : List (List Char)} {cs : List Char},
    Written os cs → os.length = slots.length →
    ∃ ops, (all (operandList slots)).Accepts cs ops := by
  intro slots
  induction slots with
  | nil =>
    intro os cs h hlength
    obtain rfl := List.length_eq_zero_iff.mp hlength
    exact ⟨[], h, rfl⟩
  | cons slot slots ih =>
    intro os cs h hlength
    obtain ⟨o, os, rfl⟩ := List.exists_cons_of_length_eq_add_one hlength
    have hlength : os.length = slots.length := by simpa using hlength
    cases slots with
    | nil =>
      obtain rfl := List.length_eq_zero_iff.mp hlength
      obtain ⟨rfl, ho⟩ := h
      exact ⟨_, [], ho, rfl⟩
    | cons next slots =>
      obtain ⟨o', os, rfl⟩ := List.exists_cons_of_length_eq_add_one hlength
      obtain ⟨gap, rest, rfl, ho, hgap, hrest⟩ := h
      obtain ⟨ops, hops⟩ := ih hrest hlength
      exact ⟨_, accepts_all_cons.mpr ⟨o, _, _, _, rfl, rfl, ⟨[], ho, rfl⟩,
        accepts_all_cons.mpr ⟨gap, rest, [], ops, rfl, rfl, hgap, hops⟩⟩⟩

/-- A line is matched by the rule with its mnemonic, which captures the operands as they are
written. -/
theorem find?_of_written (slots : List Slot) {word : String} {action : Captures → Action}
    (hword : IsWord word)
    (hrules : rulesFor word = [⟨.all (.lit word :: .space :: operandList slots), action⟩])
    {w gap rest : List Char} (hw : folded (String.ofList w) = word) (hgap : space.Accepts gap [])
    (hrest : Written os rest) (hlength : os.length = slots.length)
    (hregisters : ∀ o ∈ os.dropLast, isRegister (String.ofList o) = true) :
    ∃ caps, Rule.find? dialect.rules (w ++ (gap ++ rest)) = some (action caps) ∧
      ∀ slot, caps.get slot = captured (slots.zip (os.map String.ofList)).reverse slot := by
  have hfold : w.map foldLetter = word.toList.map foldLetter := by
    rw [hword.1, ← hw, toList_folded, String.toList_ofList]
  have hplain : Plain w := plain_of_folded hfold hword.plain
  obtain ⟨ops, hops⟩ := hrest.accepts slots hlength
  have haccepts := accepts_all_cons.mpr
    ⟨w, _, [], _, rfl, rfl, accepts_lit.mpr ⟨hfold, rfl⟩,
      accepts_all_cons.mpr ⟨gap, rest, [], ops, rfl, rfl, hgap, hops⟩⟩
  obtain ⟨caps, hmatch⟩ := Option.isSome_iff_exists.mp (match?_isSome haccepts)
  refine ⟨caps, ?_, ?_⟩
  · have hfirst : folded (firstField (w ++ (gap ++ rest))) = word := by
      rw [firstField, (takeWhile_plain_append hplain (accepts_space hgap).1 rest).1, hw]
    refine find?_of_rulesFor hfirst ?_
    rw [hrules, Rule.find?_of_match hmatch]
  · obtain ⟨found, hspelled, hfound, hcaps⟩ := spelled_of_match? slots hword hmatch
    obtain ⟨w', gap', rest', htext, -, hplain', hgap', hlisted⟩ := hspelled
    have hsame : found.length = os.length := hfound.trans hlength.symm
    obtain rfl : found = os := by
      cases os with
      | nil => exact List.length_eq_zero_iff.mp hsame
      | cons o os =>
        obtain ⟨o', found, rfl⟩ := List.exists_cons_of_length_eq_add_one hsame
        obtain ⟨-, rfl⟩ := append_gap_inj hplain hplain' (accepts_space hgap).1 hgap'
          hrest.listed.solid hlisted.solid htext
        exact hrest.listed.unique hlisted hsame hregisters
    exact hcaps

/-- The same for a line as expansions write it. -/
theorem find?_of_line (slots : List Slot) {word line : String} {action : Captures → Action}
    (hword : IsWord word)
    (hrules : rulesFor word = [⟨.all (.lit word :: .space :: operandList slots), action⟩])
    (names : List String) {rest : List Char}
    (hline : line.toList = word.toList ++ (" ".toList ++ rest))
    (hrest : Written (names.map String.toList) rest) (hlength : names.length = slots.length)
    (hregisters : ∀ name ∈ names.dropLast, isRegister name = true) :
    line ≠ "" ∧ ∃ caps, Rule.find? dialect.rules line.toList = some (action caps) ∧
      ∀ slot, caps.get slot = captured (slots.zip names).reverse slot := by
  have hnames : (names.map String.toList).map String.ofList = names := by
    simp [Function.comp_def]
  have hall : ∀ o ∈ (names.map String.toList).dropLast, isRegister (String.ofList o) = true := by
    rw [← List.map_dropLast, List.forall_mem_map]
    simpa using hregisters
  have hfind := find?_of_written slots hword hrules
    (by rw [String.ofList_toList, hword.folded]) accepts_blank hrest (by simpa using hlength) hall
  rw [← hline, hnames] at hfind
  refine ⟨?_, hfind⟩
  rintro rfl
  simp at hline

end PocketAsm.Parva

/-
  Proofs/Tokens.lean --- the tokens of a line.

  Blanks may stand inside an operand in parentheses, so where operands follow
  an operand a line is not cut at every separator: `Text.tokens` cuts it at
  those outside parentheses.  A text that is cut nowhere is `Text.Whole`, and
  whole texts with gaps between them are the tokens of a line
  (`tokens_append`).

  The operands of the dialects with marked numbers are whole, and no operand
  has the mark of immediate data (`accepts_value`).
-/
import PocketAsm.Isa.Operand
import PocketAsm.Proofs.Fields

set_option autoImplicit false

namespace PocketAsm

namespace Text

/-! ## Tokens -/

/-- Characters before a list of texts, the first of which they belong to. -/
def attach (x : List Char) : List (List Char) → List (List Char)
  | [] => [x]
  | word :: others => (x ++ word) :: others

/-- A text cut at every separator outside parentheses; it begins inside of some or not. -/
def pieces (inside : Bool) : List Char → List (List Char)
  | [] => [[]]
  | c :: cs =>
    if isSeparator c && !inside then [] :: pieces false cs
    else attach [c] (pieces (c == '(' || inside && c != ')') cs)

/-- The tokens of a line: it is cut at separators, those in parentheses apart. -/
def tokens (cs : List Char) : List String :=
  ((pieces false cs).filter fun piece => !piece.isEmpty).map String.ofList

/-- The text is cut nowhere, and parentheses are closed where it ends. -/
def Whole (x : List Char) : Prop :=
  ∀ rest, pieces false (x ++ rest) = attach x (pieces false rest)

theorem pieces_ne_nil (inside : Bool) (cs : List Char) : pieces inside cs ≠ [] := by
  cases cs with
  | nil => simp [pieces]
  | cons c cs =>
    rw [pieces]
    split
    · simp
    · cases pieces (c == '(' || inside && c != ')') cs <;> simp [attach]

@[simp] theorem attach_attach (x y : List Char) (ws : List (List Char)) :
    attach x (attach y ws) = attach (x ++ y) ws := by
  cases ws <;> simp [attach]

@[simp] theorem attach_nil {ws : List (List Char)} (h : ws ≠ []) : attach [] ws = ws := by
  cases ws with
  | nil => exact absurd rfl h
  | cons w ws => rfl

theorem Whole.append {x y : List Char} (hx : Whole x) (hy : Whole y) : Whole (x ++ y) := by
  intro rest
  rw [List.append_assoc, hx, hy, attach_attach]

/-- A text without separators and opening parentheses is whole. -/
theorem whole_of_plain {x : List Char} (hx : Plain x) (hopen : '(' ∉ x) : Whole x := by
  intro rest
  induction x with
  | nil => rw [List.nil_append, attach_nil (pieces_ne_nil _ _)]
  | cons c x ih =>
    obtain ⟨hc, hx⟩ := List.forall_mem_cons.mp hx
    obtain ⟨hne, hopen⟩ := not_or.mp (List.mem_cons.not.mp hopen)
    have hparen : (c == '(') = false := beq_eq_false_iff_ne.mpr (Ne.symm hne)
    rw [List.cons_append, pieces, hc, hparen]
    simp [ih hx hopen]

/-- Inside parentheses nothing is cut. -/
theorem pieces_inside {inner : List Char} (hclose : ')' ∉ inner) (rest : List Char) :
    pieces true (inner ++ rest) = attach inner (pieces true rest) := by
  induction inner with
  | nil => rw [List.nil_append, attach_nil (pieces_ne_nil _ _)]
  | cons c inner ih =>
    obtain ⟨hne, hclose⟩ := not_or.mp (List.mem_cons.not.mp hclose)
    have hparen : (c != ')') = true := by simpa using Ne.symm hne
    rw [List.cons_append, pieces, hparen]
    simp [ih hclose]

/-- A text in parentheses is whole. -/
theorem whole_parenthesized {inner : List Char} (hclose : ')' ∉ inner) :
    Whole ('(' :: (inner ++ [')'])) := by
  intro rest
  have hopen : isSeparator '(' = false := by decide
  have hend : isSeparator ')' = false := by decide
  rw [List.cons_append, pieces, hopen]
  simp [pieces_inside hclose, pieces, hend]

/-- Gaps are no tokens. -/
theorem tokens_gap {gap : List Char} (hgap : ∀ c ∈ gap, isSeparator c = true) (rest : List Char) :
    tokens (gap ++ rest) = tokens rest := by
  induction gap with
  | nil => rfl
  | cons c gap ih =>
    obtain ⟨hc, hgap⟩ := List.forall_mem_cons.mp hgap
    rw [← ih hgap, List.cons_append, tokens, pieces, hc]
    simp [tokens]

/-- A whole text before a gap is a token. -/
theorem tokens_append {x gap : List Char} (hx : Whole x) (hne : x ≠ []) (hgap : Gap gap)
    (rest : List Char) : tokens (x ++ (gap ++ rest)) = String.ofList x :: tokens rest := by
  obtain ⟨c, gap, rfl⟩ := List.exists_cons_of_ne_nil hgap.1
  obtain ⟨hc, hgap⟩ := List.forall_mem_cons.mp hgap.2
  rw [tokens, hx, List.cons_append, pieces, hc, ← tokens_gap hgap]
  simp [attach, tokens, hne]

/-- Without opening parentheses a text is cut at every separator behind it. -/
theorem pieces_append {x : List Char} (hopen : '(' ∉ x) {c : Char} (hc : isSeparator c = true)
    (rest : List Char) : pieces false (x ++ c :: rest) = pieces false x ++ pieces false rest := by
  induction x with
  | nil => simp [pieces, hc]
  | cons d x ih =>
    obtain ⟨hne, hopen⟩ := not_or.mp (List.mem_cons.not.mp hopen)
    have hparen : (d == '(') = false := beq_eq_false_iff_ne.mpr (Ne.symm hne)
    rw [List.cons_append, pieces, pieces, hparen]
    obtain ⟨word, others, hword⟩ := List.exists_cons_of_ne_nil (pieces_ne_nil false x)
    split <;> simp [ih hopen, hword, attach]

/-- The tokens on both sides of a gap are the tokens of a line. -/
theorem tokens_append_gap {x gap : List Char} (hopen : '(' ∉ x) (hgap : Gap gap)
    (rest : List Char) : tokens (x ++ (gap ++ rest)) = tokens x ++ tokens rest := by
  obtain ⟨c, gap, rfl⟩ := List.exists_cons_of_ne_nil hgap.1
  obtain ⟨hc, hgap⟩ := List.forall_mem_cons.mp hgap.2
  rw [← tokens_gap hgap rest, tokens, List.cons_append, pieces_append hopen hc, List.filter_append,
    List.map_append]
  rfl

/-- A whole text at the end is the last token. -/
theorem tokens_last {x : List Char} (hx : Whole x) (hne : x ≠ []) :
    tokens x = [String.ofList x] := by
  have hpieces := hx []
  rw [List.append_nil] at hpieces
  rw [tokens, hpieces]
  simp [pieces, attach, hne]

end Text

namespace Pattern

/-! ## The characters that a pattern accepts -/

/-- The pattern accepts characters of the class only. -/
def Within (q : Char → Bool) : Pattern → Prop
  | .empty => True
  | .one p | .many p | .few p => ∀ c, p c = true → q c = true
  | .seq first second | .alt first second => first.Within q ∧ second.Within q
  | .slot _ body => body.Within q

/-- The pattern does not accept the empty text. -/
def consumes : Pattern → Bool
  | .one _ => true
  | .seq first second => first.consumes || second.consumes
  | .alt first second => first.consumes && second.consumes
  | .slot _ body => body.consumes
  | _ => false

theorem Within.of_accepts {q : Char → Bool} {pattern : Pattern} (hq : pattern.Within q)
    {cs : List Char} {ops : List (Slot × String)} (h : pattern.Accepts cs ops) :
    ∀ c ∈ cs, q c = true := by
  induction pattern generalizing cs ops with
  | empty =>
    obtain ⟨rfl, -⟩ := h
    simp
  | one p =>
    obtain ⟨⟨c, rfl, hc⟩, -⟩ := h
    simpa using hq c hc
  | many p => exact fun c hc => hq c (h.1 c hc)
  | few p => exact fun c hc => hq c (h.1 c hc)
  | seq first second ih₁ ih₂ =>
    obtain ⟨x, y, u, v, rfl, -, hfirst, hsecond⟩ := h
    exact List.forall_mem_append.mpr ⟨ih₁ hq.1 hfirst, ih₂ hq.2 hsecond⟩
  | alt first second ih₁ ih₂ =>
    rcases h with h | h
    · exact ih₁ hq.1 h
    · exact ih₂ hq.2 h
  | slot name body ih =>
    obtain ⟨u, hbody, -⟩ := h
    exact ih hq hbody

/-- The pattern accepts no text with the character in it. -/
def avoids (c : Char) : Pattern → Bool
  | .empty => true
  | .one p | .many p | .few p => !p c
  | .seq first second | .alt first second => first.avoids c && second.avoids c
  | .slot _ body => body.avoids c

theorem within_of_avoids {c : Char} {pattern : Pattern} (h : pattern.avoids c = true) :
    pattern.Within (· != c) := by
  have hclass {p : Char → Bool} (hp : (!p c) = true) : ∀ d, p d = true → (d != c) = true := by
    intro d hd
    rw [bne_iff_ne]
    rintro rfl
    simp [hd] at hp
  induction pattern with
  | empty => trivial
  | one p => exact hclass h
  | many p => exact hclass h
  | few p => exact hclass h
  | seq first second ih₁ ih₂ =>
    obtain ⟨h₁, h₂⟩ := Bool.and_eq_true_iff.mp h
    exact ⟨ih₁ h₁, ih₂ h₂⟩
  | alt first second ih₁ ih₂ =>
    obtain ⟨h₁, h₂⟩ := Bool.and_eq_true_iff.mp h
    exact ⟨ih₁ h₁, ih₂ h₂⟩
  | slot name body ih => exact ih h

theorem not_mem_of_accepts {c : Char} {pattern : Pattern} (h : pattern.avoids c = true)
    {cs : List Char} {ops : List (Slot × String)} (haccepts : pattern.Accepts cs ops) : c ∉ cs :=
  fun hc => by simpa using (within_of_avoids h).of_accepts haccepts c hc

theorem match?_eq_none_of_avoids {c : Char} {pattern : Pattern} (h : pattern.avoids c = true)
    {cs : List Char} (hc : c ∈ cs) : pattern.match? cs = none := by
  rw [Option.eq_none_iff_forall_ne_some]
  intro caps hcaps
  obtain ⟨ops, haccepts, -⟩ := accepts_of_match? hcaps
  exact not_mem_of_accepts h haccepts hc

theorem within_all {q : Char → Bool} {ps : List Pattern} (h : ∀ p ∈ ps, p.Within q) :
    (all ps).Within q := by
  induction ps with
  | nil => trivial
  | cons p ps ih =>
    obtain ⟨hp, hps⟩ := List.forall_mem_cons.mp h
    cases ps with
    | nil => exact hp
    | cons next ps => exact ⟨hp, ih hps⟩

theorem ne_nil_of_consumes {pattern : Pattern} (hpattern : pattern.consumes = true)
    {cs : List Char} {ops : List (Slot × String)} (h : pattern.Accepts cs ops) : cs ≠ [] := by
  induction pattern generalizing cs ops with
  | empty => simp [consumes] at hpattern
  | one p =>
    obtain ⟨⟨c, rfl, -⟩, -⟩ := h
    simp
  | many p => simp [consumes] at hpattern
  | few p => simp [consumes] at hpattern
  | seq first second ih₁ ih₂ =>
    obtain ⟨x, y, u, v, rfl, -, hfirst, hsecond⟩ := h
    rw [Ne, List.append_eq_nil_iff, not_and_or]
    rcases Bool.or_eq_true_iff.mp hpattern with hconsumes | hconsumes
    · exact Or.inl (ih₁ hconsumes hfirst)
    · exact Or.inr (ih₂ hconsumes hsecond)
  | alt first second ih₁ ih₂ =>
    obtain ⟨hconsumes₁, hconsumes₂⟩ := Bool.and_eq_true_iff.mp hpattern
    rcases h with h | h
    · exact ih₁ hconsumes₁ h
    · exact ih₂ hconsumes₂ h
  | slot name body ih =>
    obtain ⟨u, hbody, -⟩ := h
    exact ih hpattern hbody

/-- What a slot accepts is captured. -/
theorem accepts_slot {name : Slot} {body : Pattern} (hfree : body.slotFree = true) {cs : List Char}
    {ops : List (Slot × String)} (h : (slot name body).Accepts cs ops) :
    body.Accepts cs [] ∧ ops = [(name, String.ofList cs)] := by
  obtain ⟨u, hbody, rfl⟩ := h
  obtain rfl := eq_nil_of_slotFree hfree hbody
  exact ⟨hbody, rfl⟩

end Pattern

namespace Operand

open Pattern Text

/-! ## Operands with marked numbers -/

/-- A character of a number or a name: no separator, no parenthesis and not the mark of immediate
data. -/
def isAtomChar (c : Char) : Bool := !isSeparator c && c != '(' && c != ')' && c != '#'

theorem isSeparator_of_isAtomChar {c : Char} (h : isAtomChar c = true) : isSeparator c = false := by
  simp only [isAtomChar, Bool.and_eq_true, Bool.not_eq_true'] at h
  exact h.1.1.1

/-- Folding keeps the characters of numbers and names apart from the others. -/
theorem isAtomChar_foldLetter (c : Char) : isAtomChar (foldLetter c) = isAtomChar c := by
  have hsign {d : Char} (hd : d.toNat < 97 ∨ 122 < d.toNat) (hfold : foldLetter d = d) :
      (foldLetter c != d) = (c != d) := by
    rw [Bool.eq_iff_iff, bne_iff_ne, bne_iff_ne, not_iff_not]
    exact ⟨eq_of_foldLetter_eq hd, fun h => by rw [h, hfold]⟩
  rw [isAtomChar, isAtomChar, isSeparator_foldLetter, hsign (by decide) (by decide),
    hsign (by decide) (by decide), hsign (by decide) (by decide)]

theorem isAtomChar_of_toNat {c : Char} (hlow : 45 ≤ c.toNat) (hhigh : c.toNat < 128) :
    isAtomChar c = true := by
  have hne {d : Char} (hd : d.toNat < 45) : (c != d) = true := by
    rw [bne_iff_ne]
    rintro rfl
    omega
  rw [isAtomChar, isSeparator_of_toNat hlow hhigh, hne (by decide), hne (by decide),
    hne (by decide)]
  rfl

/-- A letter of a mark is a character of a number. -/
theorem within_letter {c : Char} (hc : isAtomChar c = true) : (letter c).Within isAtomChar := by
  intro d hd
  have hsame : foldLetter c = foldLetter d := by simpa [sameLetter] using hd
  rw [← isAtomChar_foldLetter, ← hsame, isAtomChar_foldLetter]
  exact hc

theorem isAtomChar_of_isNameChar {c : Char} (h : isNameChar c = true) : isAtomChar c = true := by
  simp only [isNameChar, Bool.or_eq_true, beq_iff_eq] at h
  rcases h with ((h | h) | rfl) | rfl
  · obtain ⟨hlow, hhigh⟩ := Bool.and_eq_true_iff.mp h
    have hlow : 97 ≤ (foldLetter c).toNat := of_decide_eq_true hlow
    have hhigh : (foldLetter c).toNat ≤ 122 := of_decide_eq_true hhigh
    rw [← isAtomChar_foldLetter]
    exact isAtomChar_of_toNat (by omega) (by omega)
  · obtain ⟨hlow, hhigh⟩ := Bool.and_eq_true_iff.mp h
    have hlow : 48 ≤ c.toNat := of_decide_eq_true hlow
    have hhigh : c.toNat ≤ 57 := of_decide_eq_true hhigh
    exact isAtomChar_of_toNat (by omega) (by omega)
  · decide
  · decide

theorem isNameChar_of_isLetter {c : Char} (h : isLetter c = true) : isNameChar c = true := by
  simp [isNameChar, h]

theorem isAtomChar_of_isDigit {radix : Nat} {c : Char} (h : RadixMark.isDigit radix c = true) :
    isAtomChar c = true := by
  have hrange {lo hi : Char} (hlo : 45 ≤ lo.toNat) (hhi : hi.toNat < 128) (h : lo ≤ c ∧ c ≤ hi) :
      isAtomChar c = true := by
    have hlow : lo.toNat ≤ c.toNat := h.1
    have hhigh : c.toNat ≤ hi.toNat := h.2
    exact isAtomChar_of_toNat (by omega) (by omega)
  unfold RadixMark.isDigit digitIn? at h
  dsimp only at h
  split at h
  · rename_i hdigit
    exact hrange (by decide) (by decide) hdigit
  · split at h
    · rename_i hsmall
      exact hrange (by decide) (by decide) hsmall
    · split at h
      · rename_i hcapital
        exact hrange (by decide) (by decide) hcapital
      · simp at h

theorem within_minus : minus.Within isAtomChar := ⟨within_letter (by decide), trivial⟩

/-- What a number is made of: its mark, minus signs, digits and underscores. -/
theorem within_number_of {q : Char → Bool} {m : RadixMark}
    (hmark : ∀ c ∈ m.mark, (letter c).Within q) (hminus : minus.Within q)
    (hdigit : ∀ c, RadixMark.isDigit m.radix c = true → q c = true) (hscore : q '_' = true) :
    (number m).Within q := by
  refine within_all ?_
  simp only [List.forall_mem_cons, List.not_mem_nil, false_imp_iff, implies_true, and_true]
  refine ⟨hminus, within_all ?_, ?_, hdigit, ?_⟩
  · intro p hp
    obtain ⟨c, hc, rfl⟩ := List.mem_map.mp hp
    exact hmark c hc
  · split
    · exact hminus
    · trivial
  · intro c hc
    rcases Bool.or_eq_true_iff.mp hc with hc | hc
    · exact hdigit c hc
    · rwa [beq_iff_eq.mp hc]

/-- A number has characters of numbers only, if its mark has. -/
theorem within_number {m : RadixMark} (hmark : ∀ c ∈ m.mark, isAtomChar c = true) :
    (number m).Within isAtomChar :=
  within_number_of (fun c hc => within_letter (hmark c hc)) within_minus
    (fun _ hc => isAtomChar_of_isDigit hc) (by decide)

theorem within_orElse {q : Char → Bool} {ps : List Pattern} {last : Pattern}
    (hps : ∀ p ∈ ps, p.Within q) (hlast : last.Within q) : (orElse ps last).Within q := by
  induction ps with
  | nil => exact hlast
  | cons p ps ih =>
    obtain ⟨hp, hps⟩ := List.forall_mem_cons.mp hps
    exact ⟨hp, ih hps⟩

/-- One of several patterns accepts what it does. -/
theorem accepts_orElse {ps : List Pattern} {last : Pattern} {cs : List Char}
    {ops : List (Slot × String)} :
    (orElse ps last).Accepts cs ops ↔ ∃ p ∈ ps ++ [last], p.Accepts cs ops := by
  induction ps with
  | nil => simp [orElse]
  | cons p ps ih =>
    rw [orElse, List.cons_append, List.exists_mem_cons_iff, ← ih]
    rfl

variable {numbers : NumberSyntax}

theorem accepts_atom_number {m : RadixMark} (hm : m ∈ numbers.marks) {cs : List Char}
    {ops : List (Slot × String)} (h : (number m).Accepts cs ops) :
    (atom numbers).Accepts cs ops :=
  accepts_orElse.mpr ⟨number m, List.mem_append_left _ (List.mem_map_of_mem hm), h⟩

/-- A name is an operand, whatever the marks of numbers are. -/
theorem accepts_atom_name {cs : List Char} (hne : cs ≠ [])
    (hcs : ∀ c ∈ cs, isNameChar c = true) : (atom numbers).Accepts cs [] :=
  accepts_orElse.mpr ⟨.oneOrMore isNameChar, List.mem_append_right _ (List.mem_singleton_self _),
    accepts_oneOrMore.mpr ⟨hne, hcs, rfl⟩⟩

theorem within_atom
    (hmarks : numbers.marks.all (fun m => m.mark.all isAtomChar) = true) :
    (atom numbers).Within isAtomChar := by
  refine within_orElse (fun p hp => ?_) ?_
  · obtain ⟨m, hm, rfl⟩ := List.mem_map.mp hp
    exact within_number (List.all_eq_true.mp (List.all_eq_true.mp hmarks m hm))
  · have hname : ∀ c, isNameChar c = true → isAtomChar c = true :=
      fun _ => isAtomChar_of_isNameChar
    exact ⟨hname, hname⟩

theorem consumes_atom (numbers : NumberSyntax) : (atom numbers).consumes = true := by
  have horElse (ms : List RadixMark) :
      (orElse (ms.map number) (.oneOrMore isNameChar)).consumes = true := by
    induction ms with
    | nil => rfl
    | cons m ms ih => simp [orElse, consumes, number, all, ih]
  exact horElse _

/-- A sign between two operands does not close parentheses. -/
theorem within_sign : sign.Within (· != ')') := by
  refine ⟨?_, ?_, ?_⟩
  all_goals
    intro c hc
    rw [bne_iff_ne]
    rintro rfl
    revert hc
    decide

/-- A pair stands in parentheses, which its two operands do not close. -/
theorem accepts_pair {atom : Pattern}
    (hatom : ∀ x u, atom.Accepts x u → ')' ∉ x) {cs : List Char} {ops : List (Slot × String)}
    (h : (pair atom).Accepts cs ops) : ∃ inner, cs = '(' :: (inner ++ [')']) ∧ ')' ∉ inner := by
  obtain ⟨x₁, y₁, u₁, v₁, rfl, -, hopen, h₁⟩ := accepts_all_cons.mp h
  obtain ⟨x₂, y₂, u₂, v₂, rfl, -, hfirst, h₂⟩ := accepts_all_cons.mp h₁
  obtain ⟨x₃, y₃, u₃, v₃, rfl, -, hsign, h₃⟩ := accepts_all_cons.mp h₂
  obtain ⟨x₄, y₄, u₄, v₄, rfl, -, hsecond, hclose⟩ := accepts_all_cons.mp h₃
  have hsign' : ')' ∉ x₃ := fun hmem => absurd (within_sign.of_accepts hsign _ hmem) (by decide)
  rw [accepts_sign (by decide) (by decide) hopen, accepts_sign (by decide) (by decide) hclose]
  refine ⟨x₂ ++ (x₃ ++ x₄), by simp, ?_⟩
  simp [hatom _ _ hfirst, hsign', hatom _ _ hsecond]

/-- An operand is a number or a name, or it stands in parentheses. -/
theorem accepts_value_cases (hmarks : numbers.marks.all (fun m => m.mark.all isAtomChar) = true)
    {cs : List Char} {ops : List (Slot × String)} (h : (value numbers).Accepts cs ops) :
    (cs ≠ [] ∧ ∀ c ∈ cs, isAtomChar c = true) ∨
      ∃ inner, cs = '(' :: (inner ++ [')']) ∧ ')' ∉ inner := by
  rcases h with h | h
  · exact Or.inl ⟨ne_nil_of_consumes (consumes_atom _) h, (within_atom hmarks).of_accepts h⟩
  · refine Or.inr (accepts_pair (fun x u hx hmem => ?_) h)
    exact absurd ((within_atom hmarks).of_accepts hx _ hmem) (by decide)

theorem whole_of_atom {cs : List Char} (h : ∀ c ∈ cs, isAtomChar c = true) : Whole cs :=
  whole_of_plain (fun c hc => isSeparator_of_isAtomChar (h c hc))
    fun hmem => absurd (h _ hmem) (by decide)

/-- An operand is whole, not empty and without the mark of immediate data. -/
theorem accepts_value (hmarks : numbers.marks.all (fun m => m.mark.all isAtomChar) = true)
    {cs : List Char} {ops : List (Slot × String)} (h : (value numbers).Accepts cs ops) :
    Whole cs ∧ ∃ c rest, cs = c :: rest ∧ c ≠ '#' := by
  rcases accepts_value_cases hmarks h with ⟨hne, hatom⟩ | ⟨inner, rfl, hclose⟩
  · obtain ⟨c, rest, rfl⟩ := List.exists_cons_of_ne_nil hne
    refine ⟨whole_of_atom hatom, c, rest, rfl, ?_⟩
    rintro rfl
    exact absurd (hatom '#' List.mem_cons_self) (by decide)
  · exact ⟨whole_parenthesized hclose, '(', inner ++ [')'], rfl, by decide⟩

/-- An operand neither begins nor ends with a separator. -/
theorem ends_of_value (hmarks : numbers.marks.all (fun m => m.mark.all isAtomChar) = true)
    {cs : List Char} {ops : List (Slot × String)} (h : (value numbers).Accepts cs ops) :
    Solid cs ∧ ∀ c ∈ cs.getLast?, isSeparator c = false := by
  rcases accepts_value_cases hmarks h with ⟨hne, hatom⟩ | ⟨inner, rfl, -⟩
  · have hplain : Plain cs := fun c hc => isSeparator_of_isAtomChar (hatom c hc)
    exact ⟨hplain.solid hne, fun c hc => hplain c (List.mem_of_getLast? hc)⟩
  · refine ⟨⟨'(', inner ++ [')'], rfl, by decide⟩, fun c hc => ?_⟩
    rw [← List.cons_append, List.getLast?_concat] at hc
    obtain rfl := Option.some.inj hc
    decide

/-- An operand in further parentheses is whole. -/
theorem whole_parenthesized_value
    (hmarks : numbers.marks.all (fun m => m.mark.all isAtomChar) = true) {cs : List Char}
    {ops : List (Slot × String)} (h : (value numbers).Accepts cs ops) :
    Whole ('(' :: (cs ++ [')'])) := by
  rcases accepts_value_cases hmarks h with ⟨-, hatom⟩ | ⟨inner, rfl, hclose⟩
  · exact whole_parenthesized fun hmem => absurd (hatom _ hmem) (by decide)
  · -- the first closing parenthesis closes both, and the second one is as good as a letter
    have hinner : ')' ∉ '(' :: inner := by simpa using hclose
    have hend : Whole [')'] := whole_of_plain (by simp [Plain, isSeparator, isBlank]) (by decide)
    simpa using (whole_parenthesized hinner).append hend

/-! ## Mnemonics and marks -/

/-- What follows the mark of immediate data. -/
def marked? (token : String) : Option String :=
  match token.toList with
  | '#' :: rest => some (String.ofList rest)
  | _ => none

/-- What a mnemonic looks like: it has small letters and no signs that cut it. -/
def IsMnemonic (mnemonic : String) : Prop :=
  mnemonic.toList ≠ [] ∧ mnemonic.toList.map foldLetter = mnemonic.toList ∧
    mnemonic.toList.all isAtomChar = true

instance (mnemonic : String) : Decidable (IsMnemonic mnemonic) :=
  inferInstanceAs (Decidable (_ ∧ _ ∧ _))

/-- A mnemonic in either case is a token. -/
theorem IsMnemonic.accepts {mnemonic : String} {w : List Char} {ops : List (Slot × String)}
    (hmnemonic : IsMnemonic mnemonic) (h : (lit mnemonic).Accepts w ops) :
    folded (String.ofList w) = mnemonic ∧ (∀ c ∈ w, isAtomChar c = true) ∧ w ≠ [] := by
  obtain ⟨hne, hfold, hall⟩ := hmnemonic
  obtain ⟨hw, -⟩ := accepts_lit.mp h
  rw [hfold] at hw
  refine ⟨?_, fun c hc => ?_, ?_⟩
  · rw [folded, String.toList_ofList, hw, String.ofList_toList]
  · rw [← isAtomChar_foldLetter]
    exact List.all_eq_true.mp hall _ (hw ▸ List.mem_map_of_mem hc)
  · rintro rfl
    exact hne hw.symm

end Operand

end PocketAsm

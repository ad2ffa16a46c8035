/-
  Proofs/Spelling.lean --- how number literals are spelled.

  A literal is a minus sign or none, the mark of its radix in either case, a
  second minus sign where the mark lets one follow, and digits with
  underscores among them; a `RadixMark.Spelling` has these parts.  Reading is
  sound and complete for spellings (`RadixMark.read?_eq_some`), and what is
  spelled with one mark of a dialect is not spelled with another
  (`NumberSyntax.mark_unique`), so it does not matter in which order the marks
  are tried (`NumberSyntax.parse?_eq_some`).
-/
import PocketAsm.Proofs.Literals

set_option autoImplicit false

namespace PocketAsm

/-! ## Digits -/

namespace Text

/-- The digits of all radices, in the order of their values. -/
def digitChars : List Char :=
  ['0', '1', '2', '3', '4', '5', '6', '7', '8', '9', 'a', 'b', 'c', 'd', 'e', 'f']

/-- The place of a character among the digits, in either case; what is no digit comes behind them
all. -/
def rank (c : Char) : Nat := digitChars.idxOf c.toLower

section AboveAscii

variable {c : Char} (h : 128 ≤ c.toNat)

include h

theorem toLower_of_le : c.toLower = c := by
  unfold Char.toLower
  rw [dif_neg]
  rintro ⟨-, hle⟩
  have hle : c.toNat ≤ 90 := hle
  omega

theorem digitIn?_of_le (radix : Nat) : digitIn? radix c = none := by
  have hnot {lo hi : Char} (hhi : hi.toNat < 128) : ¬(lo ≤ c ∧ c ≤ hi) := by
    rintro ⟨-, hle⟩
    have hle : c.toNat ≤ hi.toNat := hle
    omega
  rw [digitIn?, if_neg (hnot (by decide)), if_neg (hnot (by decide)), if_neg (hnot (by decide))]
  exact if_neg (Nat.lt_irrefl radix)

theorem rank_of_le : rank c = 16 := by
  have hsmall : digitChars.all (fun d => d.toNat < 128) = true := rfl
  rw [rank, toLower_of_le h]
  refine List.idxOf_eq_length fun hc => absurd (List.all_eq_true.mp hsmall c hc) ?_
  simpa using h

end AboveAscii

theorem rank_eq_min (c : Char) : rank c = min 16 ((digitIn? 36 c).getD 36) := by
  by_cases hc : c.toNat < 128
  · exact ascii_forall (P := fun d => rank d = min 16 ((digitIn? 36 d).getD 36))
      (by decide +kernel) hc
  · rw [rank_of_le (Nat.not_lt.mp hc), digitIn?_of_le (Nat.not_lt.mp hc)]
    rfl

/-- The number that a character stands for is the same in every radix that has it as a digit. -/
theorem digitIn?_cases (c : Char) :
    (∃ d < 36, ∀ radix, digitIn? radix c = if d < radix then some d else none) ∨
      ∀ radix, digitIn? radix c = none := by
  by_cases hdecimal : '0' ≤ c ∧ c ≤ '9'
  · have hle : c.toNat ≤ 57 := hdecimal.2
    exact .inl ⟨c.toNat - 48, by omega, fun radix => by rw [digitIn?, if_pos hdecimal]⟩
  by_cases hsmall : 'a' ≤ c ∧ c ≤ 'z'
  · have hle : c.toNat ≤ 122 := hsmall.2
    exact .inl ⟨c.toNat - 87, by omega, fun radix => by
      rw [digitIn?, if_neg hdecimal, if_pos hsmall]⟩
  by_cases hlarge : 'A' ≤ c ∧ c ≤ 'Z'
  · have hle : c.toNat ≤ 90 := hlarge.2
    exact .inl ⟨c.toNat - 55, by omega, fun radix => by
      rw [digitIn?, if_neg hdecimal, if_neg hsmall, if_pos hlarge]⟩
  · refine .inr fun radix => ?_
    rw [digitIn?, if_neg hdecimal, if_neg hsmall, if_neg hlarge]
    exact if_neg (Nat.lt_irrefl radix)

/-- The digits of a radix are the first ones. -/
theorem digitIn?_eq {radix : Nat} (hradix : radix ≤ 16) (c : Char) :
    digitIn? radix c = if rank c < radix then some (rank c) else none := by
  have hrank := rank_eq_min c
  obtain ⟨d, hd, hdigit⟩ | hnone := digitIn?_cases c
  · rw [hdigit, if_pos hd, Option.getD_some] at hrank
    rw [hdigit]
    by_cases hlt : d < radix
    · rw [hrank, min_eq_right (by omega)]
    · rw [if_neg hlt, if_neg (by omega)]
  · rw [hnone, Option.getD_none] at hrank
    rw [hnone, if_neg (by omega)]

/-- A letter or sign that no character outside ASCII folds onto is matched by itself in either
case. -/
theorem sameLetter_iff {c : Char} (hfold : foldLetter c = c) (hown : c ∉ ['s', 'k', 'i'])
    (d : Char) : sameLetter c d = true ↔ d.toLower = c := by
  have hother {n : Nat} {e : Char} (hn : 128 ≤ n) (he : e ∈ ['s', 'k', 'i']) (hd : d.toNat = n)
      (hdfold : foldLetter d = e) : foldLetter c = foldLetter d ↔ d.toLower = c := by
    rw [hfold, hdfold, toLower_of_le (hd ▸ hn)]
    constructor
    · rintro rfl
      exact absurd he hown
    · rintro rfl
      rw [← hfold, hdfold] at hown
      exact absurd he hown
  rw [sameLetter, beq_iff_eq]
  by_cases hs : d.toNat = 0x17F
  · exact hother (e := 's') (by decide) (by decide) hs (by rw [foldLetter, if_pos hs])
  by_cases hk : d.toNat = 0x212A
  · exact hother (e := 'k') (by decide) (by decide) hk (by rw [foldLetter, if_neg hs, if_pos hk])
  by_cases hi : d.toNat = 0x130
  · exact hother (e := 'i') (by decide) (by decide) hi
      (by rw [foldLetter, if_neg hs, if_neg hk, if_pos hi])
  by_cases hj : d.toNat = 0x131
  · exact hother (e := 'i') (by decide) (by decide) hj
      (by rw [foldLetter, if_neg hs, if_neg hk, if_neg hi, if_pos hj])
  have hlower : foldLetter d = d.toLower := by
    rw [foldLetter, if_neg hs, if_neg hk, if_neg hi, if_neg hj]
  rw [hfold, hlower, eq_comm]

end Text

/-! ## Spellings -/

namespace RadixMark

open Text

/-- A minus sign or none. -/
def minus (negative : Bool) : List Char := if negative then ['-'] else []

/-- How a number with the mark is spelled. -/
structure Spelling (m : RadixMark) where
  /-- whether a minus sign stands before the mark -/
  outer : Bool
  mark : List Char
  /-- whether a minus sign stands behind the mark -/
  inner : Bool
  first : Char
  /-- the digits behind the first one, and underscores -/
  more : List Char
  mark_eq : mark.map Char.toLower = m.mark
  inner_allowed : inner = true → m.innerSign = true
  first_digit : rank first < m.radix
  more_digits : ∀ c ∈ more, rank c < m.radix ∨ c = '_'

namespace Spelling

variable {m : RadixMark} (s : m.Spelling)

/-- What follows the first sign. -/
def body : List Char := s.mark ++ (minus s.inner ++ s.first :: s.more)

/-- The text of the literal. -/
def text : List Char := minus s.outer ++ s.body

/-- The digits without the underscores. -/
def digits : List Char := (s.first :: s.more).filter (· != '_')

/-- The value of the digits by their places. -/
def magnitude : Nat := Nat.ofDigits m.radix (s.digits.reverse.map rank)

/-- The value of the literal, which is negative if one of the two signs is there. -/
def value : Int := if s.outer = s.inner then s.magnitude else -s.magnitude

end Spelling

/-- A small letter or another sign, no hyphen, that no character outside ASCII folds onto. -/
def isMarkChar (c : Char) : Bool := foldLetter c == c && decide (c ∉ ['s', 'k', 'i', '-'])

/-- A mark that is told apart from digits and signs, as those of the dialects are. -/
structure Regular (m : RadixMark) : Prop where
  letters : m.mark.all isMarkChar = true
  radix_le : m.radix ≤ 16
  inner_marked : m.innerSign = true → m.mark ≠ []

instance (m : RadixMark) : Decidable m.Regular :=
  decidable_of_iff (m.mark.all isMarkChar = true ∧ m.radix ≤ 16 ∧
    (m.innerSign = true → m.mark ≠ []))
    ⟨fun ⟨h₁, h₂, h₃⟩ => ⟨h₁, h₂, h₃⟩, fun ⟨h₁, h₂, h₃⟩ => ⟨h₁, h₂, h₃⟩⟩

variable {m : RadixMark} {cs rest : List Char} {n : Int}

/-! ## Reading a spelling -/

theorem takeMinus_minus (negative : Bool) {c : Char} (hc : c ≠ '-') (cs : List Char) :
    takeMinus (minus negative ++ c :: cs) = (negative, c :: cs) := by
  cases negative with
  | true => rfl
  | false => exact takeMinus_of_ne hc cs

theorem eq_minus_append (cs : List Char) : cs = minus (takeMinus cs).1 ++ (takeMinus cs).2 := by
  unfold takeMinus
  split <;> rfl

theorem isMarkChar_iff {c : Char} :
    isMarkChar c = true ↔ foldLetter c = c ∧ c ∉ ['s', 'k', 'i'] ∧ c ≠ '-' := by
  simp [isMarkChar, and_assoc]

/-- A mark is dropped in either case. -/
theorem dropMark_eq_some {ms : List Char} (hms : ms.all isMarkChar = true) :
    dropMark ms cs = some rest ↔ ∃ x, cs = x ++ rest ∧ x.map Char.toLower = ms := by
  induction ms generalizing cs with
  | nil => simp [dropMark_nil]
  | cons c ms ih =>
    rw [List.all_cons, Bool.and_eq_true] at hms
    obtain ⟨hc, hms⟩ := hms
    obtain ⟨hfold, hown, -⟩ := isMarkChar_iff.mp hc
    have hsame := sameLetter_iff hfold hown
    cases cs with
    | nil => simp [dropMark]
    | cons d cs =>
      rw [dropMark]
      constructor
      · intro h
        split at h
        · rename_i hd
          obtain ⟨x, rfl, hx⟩ := (ih hms).mp h
          exact ⟨d :: x, rfl, by rw [List.map_cons, (hsame d).mp hd, hx]⟩
        · cases h
      · rintro ⟨x, hcs, hx⟩
        cases x with
        | nil => cases hx
        | cons e x =>
          obtain ⟨rfl, rfl⟩ := List.cons.inj hcs
          obtain ⟨hd, hx⟩ := List.cons.inj hx
          rw [if_pos ((hsame d).mpr hd)]
          exact (ih hms).mpr ⟨x, rfl, hx⟩

theorem isDigit_eq (hradix : m.radix ≤ 16) (c : Char) :
    isDigit m.radix c = decide (rank c < m.radix) := by
  rw [isDigit, digitIn?_eq hradix]
  split <;> simp_all

theorem lt_sixteen_of_ne {c : Char} (h : rank c < 16) : c ≠ '_' ∧ c ≠ '-' := by
  constructor <;>
  · rintro rfl
    revert h
    decide

/-- Digits and underscores have the value of the digits by their places. -/
theorem digitsValue_eq (hradix : m.radix ≤ 16) (hcs : ∀ c ∈ cs, rank c < m.radix ∨ c = '_') :
    digitsValue m.radix cs = Nat.ofDigits m.radix ((cs.filter (· != '_')).reverse.map rank) := by
  have hdigits : cs.filterMap (digitIn? m.radix) = (cs.filter (· != '_')).map rank := by
    rw [← List.filterMap_eq_map, ← List.filterMap_eq_filter, List.filterMap_filterMap]
    refine List.filterMap_congr fun c hc => ?_
    rw [digitIn?_eq hradix]
    rcases hcs c hc with hlt | rfl
    · have hne := (lt_sixteen_of_ne (hlt.trans_le hradix)).1
      simp [hlt, hne, Option.guard]
    · have hrank : rank '_' = 16 := rfl
      simp [hrank, hradix, Option.guard]
  rw [digitsValue, hdigits, Nat.ofDigits_eq_foldr, List.map_reverse, List.foldr_reverse]
  congr 1
  funext acc d
  push_cast
  ring

theorem magnitude?_eq_some (hradix : m.radix ≤ 16) {k : Nat} : magnitude? m.radix cs = some k ↔
    ∃ c ds, cs = c :: ds ∧ rank c < m.radix ∧ (∀ d ∈ ds, rank d < m.radix ∨ d = '_') ∧
      Nat.ofDigits m.radix ((cs.filter (· != '_')).reverse.map rank) = k := by
  cases cs with
  | nil => simp [magnitude?]
  | cons c ds =>
    have hdigits : (isDigit m.radix c && ds.all fun d => isDigit m.radix d || d == '_') = true ↔
        rank c < m.radix ∧ ∀ d ∈ ds, rank d < m.radix ∨ d = '_' := by
      simp only [isDigit_eq hradix, Bool.and_eq_true, decide_eq_true_eq, List.all_eq_true,
        Bool.or_eq_true, beq_iff_eq]
    rw [magnitude?]
    constructor
    · intro h
      split at h
      · rename_i hall
        obtain ⟨hc, hds⟩ := hdigits.mp hall
        refine ⟨c, ds, rfl, hc, hds, ?_⟩
        rw [← digitsValue_eq hradix (List.forall_mem_cons.mpr ⟨.inl hc, hds⟩)]
        exact Option.some.inj h
      · cases h
    · rintro ⟨d, es, hcs, hc, hds, hk⟩
      obtain ⟨rfl, rfl⟩ := List.cons.inj hcs
      rw [if_pos (hdigits.mpr ⟨hc, hds⟩),
        digitsValue_eq hradix (List.forall_mem_cons.mpr ⟨.inl hc, hds⟩), hk]

/-- The sign behind a mark, if one may stand there. -/
theorem takeInner_minus {inner : Bool} (hinner : inner = true → m.innerSign = true) {c : Char}
    (hc : c ≠ '-') (cs : List Char) :
    (if m.innerSign then takeMinus (minus inner ++ c :: cs) else (false, minus inner ++ c :: cs)) =
      (inner, c :: cs) := by
  split
  · exact takeMinus_minus inner hc cs
  · rename_i hsign
    have hnone : inner = false := by simpa using mt hinner hsign
    rw [hnone]
    rfl

/-- Without a mark the digits follow the first sign. -/
theorem Spelling.body_eq (hm : m.Regular) (hempty : m.mark = []) (s : m.Spelling) :
    s.body = s.first :: s.more := by
  have hmark : s.mark = [] := List.map_eq_nil_iff.mp (s.mark_eq.trans hempty)
  have hinner : s.inner = false := by
    simpa using mt (fun h => hm.inner_marked (s.inner_allowed h)) (not_not.mpr hempty)
  rw [body, hmark, hinner]
  rfl

/-- What follows the first sign begins with no sign. -/
theorem Spelling.exists_body (hm : m.Regular) (s : m.Spelling) :
    ∃ c cs, s.body = c :: cs ∧ c ≠ '-' := by
  have hmark := s.mark_eq
  cases hs : s.mark with
  | nil =>
    rw [hs, List.map_nil] at hmark
    exact ⟨s.first, s.more, s.body_eq hm hmark.symm,
      (lt_sixteen_of_ne (s.first_digit.trans_le hm.radix_le)).2⟩
  | cons d ds =>
    refine ⟨d, ds ++ (minus s.inner ++ s.first :: s.more), by rw [body, hs]; rfl, ?_⟩
    rintro rfl
    rw [hs, List.map_cons] at hmark
    have hown := List.all_eq_true.mp hm.letters '-' (hmark ▸ List.mem_cons_self)
    exact (isMarkChar_iff.mp hown).2.2 rfl

theorem Spelling.takeMinus_text (hm : m.Regular) (s : m.Spelling) :
    takeMinus s.text = (s.outer, s.body) := by
  obtain ⟨c, cs, hbody, hc⟩ := s.exists_body hm
  rw [text, hbody, takeMinus_minus s.outer hc]

/-- The sign behind a mark is taken off, if one may stand there. -/
theorem exists_inner (m : RadixMark) (cs : List Char) :
    ∃ inner rest, (if m.innerSign then takeMinus cs else (false, cs)) = (inner, rest) ∧
      cs = minus inner ++ rest ∧ (inner = true → m.innerSign = true) := by
  split
  · rename_i hsign
    exact ⟨_, _, rfl, eq_minus_append cs, fun _ => hsign⟩
  · exact ⟨false, cs, rfl, rfl, by simp⟩

theorem exists_spelling_of_read? (hm : m.Regular) (h : m.read? cs = some n) :
    ∃ s : m.Spelling, s.text = cs ∧ s.value = n := by
  simp only [read?] at h
  split at h
  · cases h
  · rename_i rest hdrop
    obtain ⟨mark, hbody, hmark⟩ := (dropMark_eq_some hm.letters).mp hdrop
    obtain ⟨inner, behind, hinner, hrest, hallowed⟩ := exists_inner m rest
    simp only [hinner] at h
    split at h
    · cases h
    · rename_i k hmagnitude
      obtain ⟨first, more, rfl, hfirst, hmore, hk⟩ := (magnitude?_eq_some hm.radix_le).mp hmagnitude
      refine ⟨⟨(takeMinus cs).1, mark, inner, first, more, hmark, hallowed, hfirst, hmore⟩, ?_, ?_⟩
      · change minus (takeMinus cs).1 ++ (mark ++ (minus inner ++ first :: more)) = cs
        rw [← hrest, ← hbody, ← eq_minus_append]
      · rw [← Option.some.inj h, ← hk]
        simp only [Spelling.value, Spelling.magnitude, Spelling.digits]
        cases (takeMinus cs).1 <;> cases inner <;> rfl

theorem read?_text (hm : m.Regular) (s : m.Spelling) : m.read? s.text = some s.value := by
  have hdrop : dropMark m.mark s.body = some (minus s.inner ++ s.first :: s.more) :=
    (dropMark_eq_some hm.letters).mpr ⟨s.mark, rfl, s.mark_eq⟩
  have hfirst := (lt_sixteen_of_ne (s.first_digit.trans_le hm.radix_le)).2
  have hmagnitude : magnitude? m.radix (s.first :: s.more) = some s.magnitude :=
    (magnitude?_eq_some hm.radix_le).mpr ⟨_, _, rfl, s.first_digit, s.more_digits, rfl⟩
  simp only [read?, s.takeMinus_text hm, hdrop, takeInner_minus s.inner_allowed hfirst,
    hmagnitude, Spelling.value]
  cases s.outer <;> cases s.inner <;> rfl

/-- What is read as a number is what is spelled as one, and it has the value of its spelling. -/
theorem read?_eq_some (hm : m.Regular) :
    m.read? cs = some n ↔ ∃ s : m.Spelling, s.text = cs ∧ s.value = n :=
  ⟨exists_spelling_of_read? hm, fun ⟨s, htext, hvalue⟩ => htext ▸ hvalue ▸ read?_text hm s⟩

end RadixMark

/-! ## The marks of a dialect -/

namespace NumberSyntax

open Text RadixMark

/-- The spellings of numbers in the dialects. -/
def all : List NumberSyntax := [.dollar, .lodestar, .zeroMarked]

/-- The mark has a character that does not occur in decimal numbers. -/
def HasSign (m : RadixMark) : Prop :=
  m.mark.any (fun c => c != '_' && decide (10 ≤ digitChars.idxOf c)) = true

instance (m : RadixMark) : Decidable (HasSign m) := inferInstanceAs (Decidable (_ = _))

/-- Two marks are the same, or neither begins the other, or one of them is the empty mark of
decimal numbers and the other one is not. -/
def Apart (m m' : RadixMark) : Prop :=
  m = m' ∨ (¬m.mark <+: m'.mark ∧ ¬m'.mark <+: m.mark) ∨
    (m.mark = [] ∧ m.radix = 10 ∧ HasSign m') ∨ (m'.mark = [] ∧ m'.radix = 10 ∧ HasSign m)

instance (m m' : RadixMark) : Decidable (Apart m m') :=
  inferInstanceAs (Decidable (_ ∨ _))

theorem regular_of_mem {spelling : NumberSyntax} (hs : spelling ∈ all) {m : RadixMark}
    (hm : m ∈ spelling.marks) : m.Regular := by
  have hall : ∀ spelling ∈ all, ∀ m ∈ spelling.marks, m.Regular := by decide
  exact hall spelling hs m hm

theorem apart_of_mem {spelling : NumberSyntax} (hs : spelling ∈ all) {m m' : RadixMark}
    (hm : m ∈ spelling.marks) (hm' : m' ∈ spelling.marks) : Apart m m' := by
  have hall : ∀ spelling ∈ all, ∀ m ∈ spelling.marks, ∀ m' ∈ spelling.marks, Apart m m' := by
    decide
  exact hall spelling hs m hm m' hm'

/-- The mark of a spelling begins what follows the first sign. -/
theorem mark_begins {m : RadixMark} (s : m.Spelling) : m.mark <+: s.body.map Char.toLower := by
  rw [Spelling.body, List.map_append, s.mark_eq]
  exact List.prefix_append _ _

/-- A decimal number is spelled with no mark that has another character. -/
theorem body_ne {m m' : RadixMark} (hm : m.Regular) (hempty : m.mark = []) (hradix : m.radix = 10)
    (hother : HasSign m') (s : m.Spelling) (s' : m'.Spelling) : s.body ≠ s'.body := by
  intro hbody
  obtain ⟨c, hc, hother⟩ := List.any_eq_true.mp hother
  simp only [Bool.and_eq_true, bne_iff_ne, ne_eq, decide_eq_true_eq] at hother
  obtain ⟨hne, hrank⟩ := hother
  obtain ⟨d, hd, rfl⟩ := List.mem_map.mp ((mark_begins s').subset hc)
  rw [← hbody, s.body_eq hm hempty] at hd
  rcases List.forall_mem_cons.mpr ⟨.inl s.first_digit, s.more_digits⟩ d hd with hlt | rfl
  · rw [hradix, rank] at hlt
    omega
  · exact hne rfl

/-- What is spelled with one mark of a dialect is not spelled with another. -/
theorem mark_unique {spelling : NumberSyntax} (hs : spelling ∈ all) {m m' : RadixMark}
    (hm : m ∈ spelling.marks) (hm' : m' ∈ spelling.marks) (s : m.Spelling) (s' : m'.Spelling)
    (h : s.text = s'.text) : m = m' := by
  have hregular := regular_of_mem hs hm
  have hregular' := regular_of_mem hs hm'
  have hbody : s.body = s'.body := by
    have htake := s.takeMinus_text hregular
    rw [h, s'.takeMinus_text hregular'] at htake
    exact (Prod.mk.inj htake).2.symm
  rcases apart_of_mem hs hm hm' with hsame | ⟨hnot, hnot'⟩ | ⟨hempty, hradix, hother⟩ |
    ⟨hempty, hradix, hother⟩
  · exact hsame
  · rcases List.prefix_or_prefix_of_prefix (mark_begins s) (hbody ▸ mark_begins s') with hp | hp
    · exact absurd hp hnot
    · exact absurd hp hnot'
  · exact absurd hbody (body_ne hregular hempty hradix hother s s')
  · exact absurd hbody.symm (body_ne hregular' hempty hradix hother s' s)

/-! ## Literals -/

variable {spelling : NumberSyntax} {marks : List RadixMark} {text : String} {n : Int}

/-- In whatever order the marks are tried, the text is read as it is spelled. -/
theorem parse?_eq_some (hs : spelling ∈ all) (hmarks : marks.Perm spelling.marks) :
    NumberSyntax.parse? ⟨spelling.name, marks⟩ text = some n ↔
      ∃ m ∈ marks, ∃ s : m.Spelling, s.text = text.toList ∧ s.value = n := by
  have hregular {m : RadixMark} (hm : m ∈ marks) : m.Regular :=
    regular_of_mem hs (hmarks.mem_iff.mp hm)
  constructor
  · intro h
    obtain ⟨m, hm, hread⟩ := List.exists_of_findSome?_eq_some h
    exact ⟨m, hm, (read?_eq_some (hregular hm)).mp hread⟩
  · rintro ⟨m, hm, s, htext, rfl⟩
    cases hparse : NumberSyntax.parse? ⟨spelling.name, marks⟩ text with
    | none =>
      have hnone := List.findSome?_eq_none_iff.mp hparse m hm
      rw [← htext, read?_text (hregular hm)] at hnone
      cases hnone
    | some k =>
      obtain ⟨m', hm', hread⟩ := List.exists_of_findSome?_eq_some hparse
      obtain ⟨s', htext', rfl⟩ := (read?_eq_some (hregular hm')).mp hread
      obtain rfl := mark_unique hs (hmarks.mem_iff.mp hm) (hmarks.mem_iff.mp hm') s s'
        (htext.trans htext'.symm)
      have hvalue := read?_text (hregular hm) s
      rw [htext, hread] at hvalue
      exact hvalue

/-- The text is the number in digits of the radix, the first one first, with underscores behind the
first one. -/
def IsWritten (radix n : Nat) (cs : List Char) : Prop :=
  cs.head? ≠ some '_' ∧
    (cs.filter (· != '_')).map rank = if n = 0 then [0] else (Nat.digits radix n).reverse

/-- A number that is written in digits has the value of them. -/
theorem exists_of_isWritten {radix k : Nat} (hradix : 2 ≤ radix) {cs : List Char}
    (h : IsWritten radix k cs) :
    ∃ first more, cs = first :: more ∧ rank first < radix ∧
      (∀ c ∈ more, rank c < radix ∨ c = '_') ∧
      Nat.ofDigits radix ((cs.filter (· != '_')).reverse.map rank) = k := by
  obtain ⟨hhead, hranks⟩ := h
  have hne : cs ≠ [] := by
    rintro rfl
    split at hranks
    · cases hranks
    · rename_i hk
      exact hk (Nat.digits_eq_nil_iff_eq_zero.mp (List.reverse_eq_nil_iff.mp hranks.symm))
  have hdigit : ∀ c ∈ cs, c ≠ '_' → rank c < radix := by
    intro c hc hscore
    have hmem : rank c ∈ (cs.filter (· != '_')).map rank :=
      List.mem_map_of_mem (List.mem_filter.mpr ⟨hc, by simpa using hscore⟩)
    rw [hranks] at hmem
    split at hmem
    · rw [List.mem_singleton.mp hmem]
      omega
    · exact Nat.digits_lt_base hradix (List.mem_reverse.mp hmem)
  obtain ⟨first, more, rfl⟩ := List.exists_cons_of_ne_nil hne
  obtain ⟨hfirst, hmore⟩ := List.forall_mem_cons.mp hdigit
  refine ⟨first, more, rfl, hfirst fun hscore => hhead (by rw [hscore]; rfl), fun c hc => ?_, ?_⟩
  · exact or_iff_not_imp_right.mpr (hmore c hc)
  · rw [List.map_reverse, hranks]
    split
    · rename_i hk
      rw [hk]
      rfl
    · rw [List.reverse_reverse, Nat.ofDigits_digits]

/-- A text is too long to be read if it is a decimal number with too many digits. -/
theorem exists_of_isOverlong (hs : spelling ∈ all) (h : spelling.isOverlong text = true) :
    ∃ m ∈ spelling.marks, m.mark = [] ∧
      ∃ s : m.Spelling, s.text = text.toList ∧ Text.maxDecimalDigits < s.digits.length := by
  have hdecimal : ∀ spelling ∈ all, ∀ m ∈ spelling.marks, m.radix = 10 → m.mark = [] := by decide
  obtain ⟨hlong, hany⟩ := Bool.and_eq_true_iff.mp h
  obtain ⟨m, hm, hread⟩ := List.any_eq_true.mp hany
  obtain ⟨hradix, hread⟩ := Bool.and_eq_true_iff.mp hread
  obtain ⟨n, hn⟩ := Option.isSome_iff_exists.mp hread
  have hregular := regular_of_mem hs hm
  have hempty := hdecimal spelling hs m hm (beq_iff_eq.mp hradix)
  obtain ⟨s, htext, -⟩ := (read?_eq_some hregular).mp hn
  refine ⟨m, hm, hempty, s, htext, ?_⟩
  rw [← htext, s.takeMinus_text hregular, s.body_eq hregular hempty] at hlong
  have hcount : Text.digitCount (s.first :: s.more) = s.digits.length :=
    List.countP_eq_length_filter
  simpa [Text.isOverlong, hcount] using hlong

/-- In each dialect the texts of numbers are the spelled ones, with their values: a minus sign or
none, a mark in either case, a second minus sign behind a mark that is a sign itself, a digit of the
radix, and digits and underscores.  At most one mark fits a text, so the order in which they are
tried does not matter.  A number that is written in digits of any of the radices, with underscores
behind the first digit, comes back.  Where a text is not read as it is spelled, it is a decimal
number with more digits than are read. -/
theorem literals_are_read_as_spelled {spelling : NumberSyntax} (hs : spelling ∈ all) :
    (∀ text n, spelling.parse? text = some n ↔
      ∃ m ∈ spelling.marks, ∃ s : m.Spelling, s.text = text.toList ∧ s.value = n) ∧
    (∀ m ∈ spelling.marks, (m.innerSign = true ↔ m.mark ≠ [] ∧ spelling ≠ zeroMarked)) ∧
    (∀ m ∈ spelling.marks, ∀ m' ∈ spelling.marks, ∀ (s : m.Spelling) (s' : m'.Spelling),
      s.text = s'.text → m = m') ∧
    (∀ marks, marks.Perm spelling.marks → ∀ text,
      NumberSyntax.parse? ⟨spelling.name, marks⟩ text = spelling.parse? text) ∧
    (∀ m ∈ spelling.marks, ∀ (outer inner : Bool) (mark cs : List Char) (k : Nat),
      mark.map Char.toLower = m.mark → (inner = true → m.innerSign = true) →
      IsWritten m.radix k cs →
        spelling.parse? (String.ofList (minus outer ++ mark ++ minus inner ++ cs)) =
          some (if outer = inner then (k : Int) else -k)) ∧
    (∀ text, spelling.read text = .ok (spelling.parse? text) ∨
      ∃ m ∈ spelling.marks, m.mark = [] ∧
        ∃ s : m.Spelling, s.text = text.toList ∧ Text.maxDecimalDigits < s.digits.length) := by
  have hparse (text : String) (n : Int) : spelling.parse? text = some n ↔
      ∃ m ∈ spelling.marks, ∃ s : m.Spelling, s.text = text.toList ∧ s.value = n :=
    parse?_eq_some hs (.refl _)
  refine ⟨hparse, ?_, fun m hm m' hm' => mark_unique hs hm hm', fun marks hmarks text => ?_, ?_,
    fun text => ?_⟩
  · have hall : ∀ spelling ∈ all, ∀ m ∈ spelling.marks,
        (m.innerSign = true ↔ m.mark ≠ [] ∧ spelling ≠ zeroMarked) := by decide
    exact hall spelling hs
  · ext n
    rw [parse?_eq_some hs hmarks]
    simp only [hmarks.mem_iff]
    exact (hparse text n).symm
  · intro m hm outer inner mark cs k hmark hinner hwritten
    have hradix : ∀ spelling ∈ all, ∀ m ∈ spelling.marks, 2 ≤ m.radix := by decide
    obtain ⟨first, more, rfl, hfirst, hmore, hk⟩ :=
      exists_of_isWritten (hradix spelling hs m hm) hwritten
    refine (hparse _ _).mpr ⟨m, hm, ⟨outer, mark, inner, first, more, hmark, hinner, hfirst, hmore⟩,
      ?_, ?_⟩
    · rw [String.toList_ofList, Spelling.text, Spelling.body]
      simp only [List.append_assoc]
    · rw [Spelling.value, Spelling.magnitude, Spelling.digits, hk]
  · rw [or_iff_not_imp_left]
    intro hread
    refine exists_of_isOverlong hs ?_
    by_contra hshort
    exact hread (by rw [read, if_neg hshort])

/-- A number with both signs and one with a capital mark are read. -/
theorem doubly_signed_number_is_read :
    dollar.parse? "-%-1_01" = some 5 ∧ zeroMarked.parse? "-0X1_0f" = some (-271) := by
  have hbinary : IsWritten 2 5 ['1', '_', '0', '1'] := by
    have hdigits : Nat.digits 2 5 = [1, 0, 1] := by norm_num
    exact ⟨by decide, by rw [hdigits]; rfl⟩
  have hhexadecimal : IsWritten 16 271 ['1', '_', '0', 'f'] := by
    have hdigits : Nat.digits 16 271 = [15, 0, 1] := by norm_num
    exact ⟨by decide, by rw [hdigits]; rfl⟩
  obtain ⟨-, -, -, -, hdollar, -⟩ :=
    literals_are_read_as_spelled (by decide : dollar ∈ NumberSyntax.all)
  obtain ⟨-, -, -, -, hmarked, -⟩ :=
    literals_are_read_as_spelled (by decide : zeroMarked ∈ NumberSyntax.all)
  exact ⟨hdollar ⟨['%'], 2, true⟩ (by decide) true true ['%'] _ 5 rfl (by decide) hbinary,
    hmarked ⟨['0', 'x'], 16, false⟩ (by decide) true false ['0', 'X'] _ 271 rfl (by decide)
      hhexadecimal⟩

end NumberSyntax

end PocketAsm

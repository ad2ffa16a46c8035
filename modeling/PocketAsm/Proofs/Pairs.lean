/-
  Proofs/Pairs.lean --- pairs of a base and an offset.

  A pair is a base, a sign and an offset in parentheses, with white space
  around each of them (`SpacedPair`).  Its base may have hyphens in it, and it
  is taken for as short as possible: a pair comes apart at its sign unless its
  base has a hyphen behind the first character and the sign is a hyphen too
  that white space on neither side sets off (`SpacedPair.exists_match?`).
  Numbers and names of word characters are added up or subtracted by a pair
  that comes apart at its sign; a number with a hyphen behind its mark is cut
  in two by the others.
-/
import PocketAsm.Proofs.Encoding
import PocketAsm.Proofs.Spelling
import PocketAsm.Proofs.Templates

set_option autoImplicit false

namespace PocketAsm

open Pattern Text

/-! ## Runs of characters -/

namespace Pattern

variable {α : Type} {p q : Char → Bool} {k : List Char → Option α} {x rest : List Char} {v : α}

/-- A longest run takes what it can. -/
theorem runMany_append (hp : ∀ c ∈ x, p c = true) (h : runMany p k rest = some v) :
    runMany p k (x ++ rest) = some v := by
  induction x with
  | nil => exact h
  | cons c x ih =>
    obtain ⟨hc, hx⟩ := List.forall_mem_cons.mp hp
    rw [List.cons_append, runMany, if_pos hc, ih hx]

theorem runMany_of_not {c : Char} (hc : p c = false) : runMany p k (c :: rest) = k (c :: rest) := by
  rw [runMany, if_neg (by simp [hc])]

/-- A shortest run goes on as long as what follows fails. -/
theorem runFew_append (hp : ∀ c ∈ x, p c = true)
    (hfail : ∀ y c z, x = y ++ c :: z → k (c :: (z ++ rest)) = none) (h : k rest = some v) :
    runFew p k (x ++ rest) = some v := by
  induction x with
  | nil =>
    cases rest with
    | nil => exact h
    | cons c rest => rw [List.nil_append, runFew, h]
  | cons c x ih =>
    obtain ⟨hc, hx⟩ := List.forall_mem_cons.mp hp
    rw [List.cons_append, runFew, hfail [] c x rfl]
    dsimp only
    rw [if_pos hc]
    exact ih hx fun y d z hz => hfail (c :: y) d z (by rw [hz]; rfl)

theorem dropWhile_append_cons (hp : ∀ c ∈ x, p c = true) {c : Char} (hc : p c = false) :
    (x ++ c :: rest).dropWhile p = c :: rest := by
  rw [List.dropWhile_append_of_pos hp, List.dropWhile_cons_of_neg (by simp [hc])]

end Pattern

/-! ## Characters of a pair -/

namespace Symbols

/-- The white space outside ASCII, without the eleven spaces of various widths. -/
def wideBlanks : List Nat := [0x85, 0xA0, 0x1680, 0x2028, 0x2029, 0x202F, 0x205F, 0x3000]

theorem isPairChar_eq_false_of_isBlank {c : Char} (h : isBlank c = true) :
    isPairChar c = false := by
  by_cases hascii : c.toNat < 128
  · exact ascii_forall (P := fun d => isBlank d = true → isPairChar d = false) (by decide +kernel)
      hascii h
  · have hspaces : ∀ k < 11, isPairChar (Char.ofNat (0x2000 + k)) = false := by decide +kernel
    have hothers : ∀ n ∈ wideBlanks, isPairChar (Char.ofNat n) = false := by decide +kernel
    have hwide : (∃ k < 11, c.toNat = 0x2000 + k) ∨ c.toNat ∈ wideBlanks := by
      simp only [isBlank, Bool.or_eq_true, Bool.and_eq_true, decide_eq_true_eq, beq_iff_eq] at h
      by_cases hspace : 0x2000 ≤ c.toNat ∧ c.toNat ≤ 0x200A
      · exact .inl ⟨c.toNat - 0x2000, by omega, by omega⟩
      · simp only [wideBlanks, List.mem_cons, List.not_mem_nil, or_false]
        omega
    rw [← Char.ofNat_toNat c]
    rcases hwide with ⟨k, hk, hc⟩ | hmem
    · exact hc ▸ hspaces k hk
    · exact hothers _ hmem

theorem isBlank_eq_false_of_isPairChar {c : Char} (h : isPairChar c = true) :
    isBlank c = false := by
  rw [Bool.eq_false_iff]
  intro hblank
  rw [isPairChar_eq_false_of_isBlank hblank] at h
  cases h

theorem isPairChar_of_isWordChar {c : Char} (h : isWordChar c = true) : isPairChar c = true := by
  simp [isPairChar, h]

/-- The characters of numbers in small letters. -/
def numberChars : List Char :=
  ['$', '%', '@', 'x', 'o', '_', '-', '0', '1', '2', '3', '4', '5', '6', '7', '8', '9', 'a', 'b',
    'c', 'd', 'e', 'f']

theorem isPairChar_of_toLower {c : Char} (h : c.toLower ∈ numberChars) : isPairChar c = true := by
  by_cases hascii : c.toNat < 128
  · exact ascii_forall (P := fun d => d.toLower ∈ numberChars → isPairChar d = true)
      (by decide +kernel) hascii h
  · have hsmall : numberChars.all (fun d => d.toNat < 128) = true := rfl
    rw [toLower_of_le (Nat.not_lt.mp hascii)] at h
    exact absurd (of_decide_eq_true (List.all_eq_true.mp hsmall c h)) hascii

end Symbols

namespace RadixMark.Spelling

variable {m : RadixMark} (s : m.Spelling)

theorem isPairChar_of_rank {c : Char} (hm : m.Regular) (hc : rank c < m.radix) :
    Symbols.isPairChar c = true := by
  have hdigits : digitChars ⊆ Symbols.numberChars := by
    simp [digitChars, Symbols.numberChars]
  exact Symbols.isPairChar_of_toLower
    (hdigits (List.idxOf_lt_length_iff.mp (hc.trans_le hm.radix_le)))

/-- The characters of a number are characters of pairs. -/
theorem isPairChar_of_mem (hm : m.Regular) (hmark : m.mark ⊆ Symbols.numberChars) :
    ∀ c ∈ s.text, Symbols.isPairChar c = true := by
  have hminus (negative : Bool) : ∀ c ∈ minus negative, Symbols.isPairChar c = true := by
    cases negative with
    | false => simp [minus]
    | true => simpa [minus] using Symbols.isPairChar_of_toLower (c := '-') (by decide)
  have hmarked : ∀ c ∈ s.mark, Symbols.isPairChar c = true := by
    intro c hc
    refine Symbols.isPairChar_of_toLower (hmark ?_)
    rw [← s.mark_eq]
    exact List.mem_map_of_mem hc
  have hdigits : ∀ c ∈ s.first :: s.more, Symbols.isPairChar c = true := by
    refine List.forall_mem_cons.mpr ⟨isPairChar_of_rank hm s.first_digit, fun c hc => ?_⟩
    rcases s.more_digits c hc with hdigit | rfl
    · exact isPairChar_of_rank hm hdigit
    · exact Symbols.isPairChar_of_toLower (by decide)
  rw [text, body]
  simp only [List.forall_mem_append]
  exact ⟨hminus s.outer, hmarked, hminus s.inner, hdigits⟩

end RadixMark.Spelling

/-! ## Where a pair comes apart -/

/-- A pair, with white space behind the opening parenthesis, around the sign and before the closing
parenthesis. -/
structure SpacedPair where
  base : List Char
  sign : Char
  offset : List Char
  before : List Char
  left : List Char
  right : List Char
  after : List Char
  sign_eq : sign = '+' ∨ sign = '-'
  blank_before : ∀ c ∈ before, isBlank c = true
  blank_left : ∀ c ∈ left, isBlank c = true
  blank_right : ∀ c ∈ right, isBlank c = true
  blank_after : ∀ c ∈ after, isBlank c = true

namespace SpacedPair

open Symbols (isPairChar isBlank_eq_false_of_isPairChar isPairChar_eq_false_of_isBlank)

variable (p : SpacedPair) {cs : List Char} {ops : List (Slot × String)}

/-- What follows the offset. -/
def close : List Char := p.after ++ [')']

/-- What follows the sign. -/
def behindSign : List Char := p.right ++ (p.offset ++ p.close)

/-- What follows the base. -/
def behindBase : List Char := p.left ++ p.sign :: p.behindSign

def text : List Char := '(' :: (p.before ++ (p.base ++ p.behindBase))

/-- The sign is a hyphen, and no white space sets it off. -/
def IsTight : Prop := p.sign = '-' ∧ p.left = [] ∧ p.right = []

/-- What the pattern of pairs asks for behind the sign. -/
def ending : Pattern := .all [.optSpace, .slot .b (.oneOrMore isPairChar), .optSpace, .letter ')']

/-- What is left of a text without white space, characters of pairs and white space again at its
front. -/
def beyond (cs : List Char) : List Char :=
  ((cs.dropWhile isBlank).dropWhile isPairChar).dropWhile isBlank

theorem beyond_eq {x y z u : List Char} {c : Char} (hx : ∀ d ∈ x, isBlank d = true)
    (hne : y ≠ []) (hy : ∀ d ∈ y, isPairChar d = true) (hz : ∀ d ∈ z, isBlank d = true)
    (hc : isBlank c = false) (hend : z = [] → isPairChar c = false) :
    beyond (x ++ (y ++ (z ++ c :: u))) = c :: u := by
  obtain ⟨d, y, rfl⟩ := List.exists_cons_of_ne_nil hne
  have hd := isBlank_eq_false_of_isPairChar (hy d List.mem_cons_self)
  have hbehind : (z ++ c :: u).dropWhile isPairChar = z ++ c :: u := by
    cases z with
    | nil => exact List.dropWhile_cons_of_neg (by simp [hend rfl])
    | cons e z =>
      have he := isPairChar_eq_false_of_isBlank (hz e List.mem_cons_self)
      exact List.dropWhile_cons_of_neg (by simp [he])
  rw [beyond, List.cons_append, dropWhile_append_cons hx hd, ← List.cons_append,
    List.dropWhile_append_of_pos hy, hbehind, dropWhile_append_cons hz hc]

/-- Behind the sign and the offset a pair is closed. -/
theorem beyond_of_accepts (h : ending.Accepts cs ops) : beyond cs = [')'] := by
  obtain ⟨x, _, _, _, rfl, -, ⟨hx, -⟩, h⟩ := accepts_all_cons.mp h
  obtain ⟨y, _, _, _, rfl, -, ⟨_, hy, -⟩, h⟩ := accepts_all_cons.mp h
  obtain ⟨z, _, _, _, rfl, -, ⟨hz, -⟩, h⟩ := accepts_all_cons.mp h
  obtain ⟨⟨c, rfl, hc⟩, -⟩ := accepts_letter.mp h
  obtain ⟨hne, hy, -⟩ := accepts_oneOrMore.mp hy
  rw [sameLetter, beq_iff_eq] at hc
  obtain rfl : c = ')' := eq_of_foldLetter_eq (.inl (by decide)) hc.symm
  exact beyond_eq hx hne hy hz (by decide) fun _ => by decide

/-- Unless its sign is a tight hyphen, a pair is not closed where it would be if an earlier hyphen
were its sign. -/
theorem not_accepts {front : List Char} (hfront : front ≠ [])
    (hchars : ∀ c ∈ front, isPairChar c = true) (hne : p.offset ≠ [])
    (hoffset : ∀ c ∈ p.offset, isPairChar c = true) (htight : ¬p.IsTight) :
    ¬ending.Accepts (front ++ p.behindBase) ops := by
  intro h
  have hclosed := beyond_of_accepts h
  have hplus : isBlank '+' = false ∧ isPairChar '+' = false := by decide
  have hminus : isBlank '-' = false ∧ isPairChar '-' = true := by decide +kernel
  have hsign : p.sign ≠ ')' ∧ isBlank p.sign = false := by
    rcases p.sign_eq with hs | hs <;> rw [hs] <;> decide
  by_cases hleft : p.left = []
  · rcases p.sign_eq with hs | hs
    · have hbeyond := beyond_eq (x := []) (z := []) (u := p.behindSign) (by simp) hfront hchars
        (by simp) hplus.1 fun _ => hplus.2
      simp only [behindBase, hleft, hs, List.nil_append] at hclosed hbeyond
      simp [hbeyond] at hclosed
    · have hright : p.right ≠ [] := fun hright => htight ⟨hs, hleft, hright⟩
      obtain ⟨d, offset, hd⟩ := List.exists_cons_of_ne_nil hne
      have hpair := hoffset d (hd ▸ List.mem_cons_self)
      have hbeyond := beyond_eq (x := []) (y := front ++ ['-']) (z := p.right)
        (u := offset ++ p.close) (by simp) (by simp)
        (List.forall_mem_append.mpr ⟨hchars, by simpa using hminus.2⟩) p.blank_right
        (isBlank_eq_false_of_isPairChar hpair) fun h => absurd h hright
      simp only [behindBase, behindSign, hleft, hs, hd, List.nil_append, List.append_assoc,
        List.cons_append] at hclosed hbeyond
      rw [hbeyond] at hclosed
      rw [List.head_eq_of_cons_eq hclosed] at hpair
      revert hpair
      decide
  · have hbeyond := beyond_eq (x := []) (z := p.left) (u := p.behindSign) (by simp) hfront hchars
      p.blank_left hsign.2 fun h => absurd h hleft
    rw [List.nil_append] at hbeyond
    rw [behindBase, hbeyond] at hclosed
    exact hsign.1 (List.head_eq_of_cons_eq hclosed)

theorem exists_close : ∃ c cs, p.close = c :: cs ∧ isPairChar c = false := by
  cases hafter : p.after with
  | nil => exact ⟨')', [], by rw [close, hafter]; rfl, by decide⟩
  | cons c cs =>
    exact ⟨c, cs ++ [')'], by rw [close, hafter]; rfl,
      isPairChar_eq_false_of_isBlank (p.blank_after c (hafter ▸ List.mem_cons_self))⟩

/-- A pair comes apart at its sign. -/
theorem exists_match? (hbase : p.base ≠ []) (hbasechars : ∀ c ∈ p.base, isPairChar c = true)
    (hne : p.offset ≠ []) (hoffset : ∀ c ∈ p.offset, isPairChar c = true)
    (hsplit : ∀ y z, p.base.tail = y ++ '-' :: z → z ≠ [] ∧ ¬p.IsTight) :
    ∃ caps, Symbols.pairPattern.match? p.text = some caps ∧
      caps.get .a = String.ofList p.base ∧ caps.get .s = String.ofList [p.sign] ∧
      caps.get .b = String.ofList p.offset := by
  obtain ⟨c, base, hbase⟩ := List.exists_cons_of_ne_nil hbase
  obtain ⟨d, offset, hd⟩ := List.exists_cons_of_ne_nil hne
  have hsigns : isBlank p.sign = false ∧ (p.sign == '+' || p.sign == '-') = true := by
    rcases p.sign_eq with hs | hs <;> rw [hs] <;> decide
  rw [hbase, List.forall_mem_cons] at hbasechars
  rw [hd, List.forall_mem_cons] at hoffset
  refine ⟨[(.b, ⟨p.offset ++ p.close, p.close⟩), (.s, ⟨[p.sign] ++ p.behindSign, p.behindSign⟩),
    (.a, ⟨p.base ++ p.behindBase, p.behindBase⟩)], ?_, text_span _ _, text_span _ _, text_span _ _⟩
  simp only [Symbols.pairPattern, all, match?, run, letter, text, optSpace, oneOrMore, hbase,
    List.cons_append]
  refine (if_pos rfl).trans (runMany_append p.blank_before ?_)
  rw [runMany_of_not (isBlank_eq_false_of_isPairChar hbasechars.1)]
  dsimp only
  rw [if_pos hbasechars.1]
  refine runFew_append hbasechars.2 ?_ ?_
  · intro y e z hz
    have he := hbasechars.2 e (by rw [hz]; simp)
    rw [runMany_of_not (isBlank_eq_false_of_isPairChar he)]
    change (if (e == '+' || e == '-') = true then ending.run (z ++ p.behindBase) _ atEnd
      else none) = none
    split
    · rename_i hsign
      obtain rfl : e = '-' := by
        rcases (Bool.or_eq_true _ _).mp hsign with hplus | hminus
        · rw [beq_iff_eq.mp hplus] at he
          exact absurd he (by decide)
        · exact beq_iff_eq.mp hminus
      obtain ⟨hz', htight⟩ := hsplit y z (by rw [hbase]; exact hz)
      rw [Option.eq_none_iff_forall_ne_some]
      intro found hfound
      obtain ⟨ops, haccepts⟩ := accepts_of_run_atEnd hfound
      exact p.not_accepts hz' (fun f hf => hbasechars.2 f (by rw [hz]; simp [hf])) hne
        (by rwa [hd, List.forall_mem_cons]) htight haccepts
    · rfl
  · refine runMany_append p.blank_left ?_
    rw [runMany_of_not hsigns.1]
    dsimp only
    rw [if_pos hsigns.2]
    refine runMany_append p.blank_right ?_
    rw [hd, List.cons_append, runMany_of_not (isBlank_eq_false_of_isPairChar hoffset.1)]
    dsimp only
    rw [if_pos hoffset.1]
    refine runMany_append hoffset.2 ?_
    obtain ⟨e, es, hclose, he⟩ := p.exists_close
    rw [hclose, runMany_of_not he, ← hclose]
    exact runMany_append p.blank_after rfl

end SpacedPair

/-! ## Operands -/

namespace RadixMark.Spelling

variable {m : RadixMark} (s : m.Spelling)

theorem hyphen_not_mem_mark (hm : m.Regular) : '-' ∉ s.mark := by
  intro hmem
  have hlower := List.mem_map_of_mem (f := Char.toLower) hmem
  rw [s.mark_eq] at hlower
  exact (isMarkChar_iff.mp (List.all_eq_true.mp hm.letters _ hlower)).2.2 rfl

/-- A hyphen behind the first character stands between the mark and the digits. -/
theorem eq_of_body (hm : m.Regular) {x z : List Char} (h : s.body = x ++ '-' :: z) :
    s.inner = true ∧ x = s.mark ∧ z = s.first :: s.more := by
  have hmark := s.hyphen_not_mem_mark hm
  have hdigits : '-' ∉ s.first :: s.more := by
    rintro hmem
    rcases List.forall_mem_cons.mpr ⟨.inl s.first_digit, s.more_digits⟩ '-' hmem with hrank | hne
    · exact (lt_sixteen_of_ne (hrank.trans_le hm.radix_le)).2 rfl
    · exact absurd hne (by decide)
  have hcount := congrArg (List.count '-') h
  simp only [body, List.count_append, List.count_eq_zero.mpr hmark,
    List.count_eq_zero.mpr hdigits, List.count_cons_self] at hcount
  cases hinner : s.inner with
  | false =>
    rw [hinner] at hcount
    simp [minus] at hcount
  | true =>
    have hx : '-' ∉ x := by
      rw [hinner] at hcount
      simp only [minus, if_true, List.count_singleton_self] at hcount
      exact List.count_eq_zero.mp (by omega)
    rw [body, hinner] at h
    obtain ⟨hmarked, hbehind⟩ := eq_of_append_sign hmark hx h
    exact ⟨rfl, hmarked.symm, hbehind.symm⟩

/-- The same for the whole number. -/
theorem eq_of_text (hm : m.Regular) {x z : List Char} (hx : x ≠ []) (h : s.text = x ++ '-' :: z) :
    s.inner = true ∧ x = minus s.outer ++ s.mark ∧ z = s.first :: s.more := by
  cases houter : s.outer with
  | false =>
    rw [text, houter] at h
    exact s.eq_of_body hm h
  | true =>
    obtain ⟨c, x, rfl⟩ := List.exists_cons_of_ne_nil hx
    rw [text, houter] at h
    obtain ⟨hc, hbody⟩ := List.cons.inj h
    obtain ⟨hinner, rfl, hz⟩ := s.eq_of_body hm hbody
    exact ⟨hinner, by rw [← hc]; rfl, hz⟩

end RadixMark.Spelling

namespace NumberSyntax

variable {numbers : NumberSyntax} {cs : List Char} {n : Int}

/-- What may stand on either side of the sign of a pair: a number, or a name of word characters. -/
def IsOperand (numbers : NumberSyntax) (cs : List Char) : Prop :=
  (numbers.parse? (String.ofList cs)).isSome = true ∨ (cs ≠ [] ∧ ∀ c ∈ cs, isWordChar c = true)

theorem exists_of_parse? (hs : numbers ∈ all) (h : numbers.parse? (String.ofList cs) = some n) :
    ∃ m ∈ numbers.marks, ∃ s : m.Spelling, s.text = cs := by
  obtain ⟨m, hm, s, htext, -⟩ := (parse?_eq_some hs (.refl _)).mp h
  exact ⟨m, hm, s, htext.trans String.toList_ofList⟩

theorem isPairChar_of_parse? (hs : numbers ∈ all)
    (h : numbers.parse? (String.ofList cs) = some n) : ∀ c ∈ cs, Symbols.isPairChar c = true := by
  have hmarks : ∀ numbers ∈ all, ∀ m ∈ numbers.marks,
      m.mark.all (Symbols.numberChars.contains ·) = true := by
    decide
  obtain ⟨m, hm, s, rfl⟩ := exists_of_parse? hs h
  refine s.isPairChar_of_mem (regular_of_mem hs hm) fun c hc => ?_
  exact List.contains_iff_mem.mp (List.all_eq_true.mp (hmarks numbers hs m hm) c hc)

/-- A mark that a sign may follow is no number by itself. -/
theorem read_mark (hs : numbers ∈ all) {m : RadixMark} (hm : m ∈ numbers.marks) (s : m.Spelling)
    (hinner : s.inner = true) :
    numbers.read (String.ofList (RadixMark.minus s.outer ++ s.mark)) = .ok none := by
  have hsigns : ∀ numbers ∈ all, ∀ m ∈ numbers.marks, m.innerSign = true →
      m.mark.all (fun c => digitChars.idxOf c == 16) = true := by
    decide
  refine Dialect.read_eq_none (Option.eq_none_iff_forall_ne_some.mpr fun n h => ?_)
  obtain ⟨m', hm', s', htext⟩ := exists_of_parse? hs h
  have hrank := s'.first_digit.trans_le (regular_of_mem hs hm').radix_le
  have hfirst : s'.first ∈ RadixMark.minus s.outer ++ s.mark := by
    rw [← htext]
    simp [RadixMark.Spelling.text, RadixMark.Spelling.body]
  rcases List.mem_append.mp hfirst with hminus | hmark
  · refine (RadixMark.lt_sixteen_of_ne hrank).2 ?_
    revert hminus
    cases s.outer <;> simp [RadixMark.minus]
  · have hlower := List.mem_map_of_mem (f := Char.toLower) hmark
    rw [s.mark_eq] at hlower
    have hall := List.all_eq_true.mp (hsigns numbers hs m hm (s.inner_allowed hinner)) _ hlower
    rw [rank, beq_iff_eq.mp hall] at hrank
    exact Nat.lt_irrefl 16 hrank

/-- What has other characters than pairs is no number. -/
theorem read_eq_none_of_mem (hs : numbers ∈ all) {c : Char} (hc : c ∈ cs)
    (hpair : Symbols.isPairChar c = false) : numbers.read (String.ofList cs) = .ok none := by
  refine Dialect.read_eq_none (Option.eq_none_iff_forall_ne_some.mpr fun n h => ?_)
  rw [isPairChar_of_parse? hs h c hc] at hpair
  cases hpair

namespace IsOperand

theorem ne_nil (hs : numbers ∈ all) (h : numbers.IsOperand cs) : cs ≠ [] := by
  rcases h with h | ⟨hne, -⟩
  · obtain ⟨n, hn⟩ := Option.isSome_iff_exists.mp h
    obtain ⟨m, -, s, rfl⟩ := exists_of_parse? hs hn
    simp [RadixMark.Spelling.text, RadixMark.Spelling.body]
  · exact hne

theorem isPairChar (hs : numbers ∈ all) (h : numbers.IsOperand cs) :
    ∀ c ∈ cs, Symbols.isPairChar c = true := by
  rcases h with h | ⟨-, hword⟩
  · obtain ⟨n, hn⟩ := Option.isSome_iff_exists.mp h
    exact isPairChar_of_parse? hs hn
  · exact fun c hc => Symbols.isPairChar_of_isWordChar (hword c hc)

/-- Only numbers have a hyphen behind the first character, and they have it behind their mark. -/
theorem exists_of_hyphen (hs : numbers ∈ all) (h : numbers.IsOperand cs) {x z : List Char}
    (hx : x ≠ []) (hcs : cs = x ++ '-' :: z) :
    ∃ m ∈ numbers.marks, ∃ s : m.Spelling,
      s.inner = true ∧ x = RadixMark.minus s.outer ++ s.mark ∧ z = s.first :: s.more := by
  rcases h with h | ⟨-, hword⟩
  · obtain ⟨n, hn⟩ := Option.isSome_iff_exists.mp h
    obtain ⟨m, hm, s, htext⟩ := exists_of_parse? hs hn
    exact ⟨m, hm, s, s.eq_of_text (regular_of_mem hs hm) hx (htext.trans hcs)⟩
  · exact absurd (hword '-' (by rw [hcs]; simp)) (by decide)

/-- Something follows the hyphen. -/
theorem ne_nil_of_hyphen (hs : numbers ∈ all) (h : numbers.IsOperand cs) {y z : List Char}
    (hyz : cs.tail = y ++ '-' :: z) : z ≠ [] := by
  obtain ⟨c, ds, rfl⟩ := List.exists_cons_of_ne_nil (h.ne_nil hs)
  obtain ⟨m, -, s, -, -, rfl⟩ := h.exists_of_hyphen hs (List.cons_ne_nil c y)
    (congrArg (c :: ·) hyz)
  exact List.cons_ne_nil _ _

/-- What precedes the hyphen is no number. -/
theorem read_front (hs : numbers ∈ all) {front back : List Char} (hfront : front ≠ [])
    (h : numbers.IsOperand (front ++ '-' :: back)) :
    numbers.read (String.ofList front) = .ok none := by
  obtain ⟨m, hm, s, hinner, rfl, -⟩ := h.exists_of_hyphen hs hfront rfl
  exact read_mark hs hm s hinner

end IsOperand

end NumberSyntax

/-! ## Values -/

namespace Symbols

variable {symbols : Symbols} {cs : List Char} {origin : Int} {relative : Bool}

/-- What a text stands for that is no pair: a number, a label or a constant.  Only labels are taken
relative to an address. -/
inductive Denotes (symbols : Symbols) (text : String) (origin : Int) (relative : Bool) : Int → Prop
  | number {n : Int} (hread : symbols.numbers.read text = .ok (some n)) :
      Denotes symbols text origin relative n
  | label {address : Int} (hread : symbols.numbers.read text = .ok none)
      (hlabel : List.lookup text symbols.labels = some address) :
      Denotes symbols text origin relative (if relative then address - origin else address)
  | constant {n : Int} (hread : symbols.numbers.read text = .ok none)
      (hlabel : List.lookup text symbols.labels = none)
      (hconstant : List.lookup text symbols.constants = some n) :
      Denotes symbols text origin relative n

/-- The values of a base and an offset, added up or subtracted. -/
def pairValue (symbols : Symbols) (base : List Char) (sign : Char) (offset : List Char)
    (origin : Int) (relative : Bool) : Except Fault Int :=
  (symbols.value (String.ofList base) origin relative).bind fun b =>
    (symbols.value (String.ofList offset) origin false).bind fun o =>
      .ok (if sign = '+' then b + o else b - o)

theorem atom_eq_ok_iff {text : String} {n : Int} :
    symbols.atom text origin relative = .ok n ↔ symbols.Denotes text origin relative n := by
  constructor
  · intro h
    unfold atom at h
    split at h
    · cases h
    · rename_i hread
      exact Except.ok.inj h ▸ .number hread
    · rename_i hread
      cases hlabel : List.lookup text symbols.labels with
      | some address =>
        simp only [labelValue?, hlabel, Option.map_some, Except.ok.injEq] at h
        exact h ▸ .label hread hlabel
      | none =>
        simp only [labelValue?, hlabel, Option.map_none] at h
        split at h
        · rename_i hconstant
          exact Except.ok.inj h ▸ .constant hread hlabel hconstant
        · cases h
  · rintro (hread | ⟨hread, hlabel⟩ | ⟨hread, hlabel, hconstant⟩)
    · simp only [atom, hread]
    · simp only [atom, hread, labelValue?, hlabel, Option.map_some]
    · simp only [atom, hread, labelValue?, hlabel, Option.map_none, hconstant]

theorem atom_eq_error {text : String} (hread : symbols.numbers.read text = .ok none)
    (hlabel : List.lookup text symbols.labels = none)
    (hconstant : List.lookup text symbols.constants = none) :
    symbols.atom text origin relative = .error (symbols.undefined text) := by
  simp only [atom, hread, labelValue?, hlabel, Option.map_none, hconstant]

/-- What is no pair has the value of an atom. -/
theorem value_eq_atom (h : ∀ c ∈ cs, isPairChar c = true) :
    symbols.value (String.ofList cs) origin relative =
      symbols.atom (String.ofList cs) origin relative := by
  have hnone : pairPattern.match? cs = none := by
    rw [Option.eq_none_iff_forall_ne_some]
    intro caps hcaps
    have hopens : pairPattern.BeginsWith (sameLetter '(') := (beginsWith_one _).all _
    obtain ⟨c, rest, rfl, hc⟩ := hopens.head_of_match? hcaps
    rw [sameLetter, beq_iff_eq] at hc
    obtain rfl : c = '(' := eq_of_foldLetter_eq (.inl (by decide)) hc.symm
    exact absurd (h '(' List.mem_cons_self) (by decide)
  simp only [value, atom, String.toList_ofList, hnone]

end Symbols

namespace SpacedPair

open Symbols (isPairChar)

variable {symbols : Symbols} (p : SpacedPair)

/-- A pair that comes apart at its sign has the value of the base and the offset together. -/
theorem value_text (hnumbers : symbols.numbers ∈ NumberSyntax.all) (hbase : p.base ≠ [])
    (hbasechars : ∀ c ∈ p.base, isPairChar c = true) (hne : p.offset ≠ [])
    (hoffset : ∀ c ∈ p.offset, isPairChar c = true)
    (hsplit : ∀ y z, p.base.tail = y ++ '-' :: z → z ≠ [] ∧ ¬p.IsTight)
    (hfree : List.lookup (String.ofList p.text) symbols.labels = none) (origin : Int)
    (relative : Bool) :
    symbols.value (String.ofList p.text) origin relative =
      symbols.pairValue p.base p.sign p.offset origin relative := by
  have hread : symbols.numbers.read (String.ofList p.text) = .ok none :=
    NumberSyntax.read_eq_none_of_mem hnumbers List.mem_cons_self (by decide)
  obtain ⟨caps, hcaps, ha, hs, hb⟩ := p.exists_match? hbase hbasechars hne hoffset hsplit
  have hsign : String.ofList [p.sign] = "+" ↔ p.sign = '+' := by
    rcases p.sign_eq with hs | hs <;> rw [hs] <;> decide
  rw [Symbols.pairValue, Symbols.value_eq_atom hbasechars, Symbols.value_eq_atom hoffset,
    Symbols.value]
  simp only [hread, Symbols.labelValue?, hfree, Option.map_none, String.toList_ofList, hcaps, ha,
    hs, hb, hsign]
  cases symbols.atom (String.ofList p.base) origin relative with
  | error fault => rfl
  | ok b =>
    cases symbols.atom (String.ofList p.offset) origin false with
    | error fault => rfl
    | ok o => rfl

/-- A pair with a tight hyphen comes apart at the first hyphen of its base. -/
theorem value_text_of_isTight (hnumbers : symbols.numbers ∈ NumberSyntax.all)
    (hbase : symbols.numbers.IsOperand p.base) (hoffset : symbols.numbers.IsOperand p.offset)
    (htight : p.IsTight) {front back : List Char} (hfront : front ≠ [])
    (hsplit : p.base = front ++ '-' :: back)
    (hfree : List.lookup (String.ofList p.text) symbols.labels = none) (origin : Int)
    (relative : Bool) :
    symbols.value (String.ofList p.text) origin relative =
      symbols.pairValue front '-' (back ++ '-' :: p.offset) origin relative := by
  obtain ⟨hsign, hleft, hright⟩ := htight
  let q : SpacedPair :=
    { p with base := front, sign := '-', offset := back ++ '-' :: p.offset, sign_eq := .inr rfl }
  have htext : q.text = p.text := by
    simp [text, behindBase, behindSign, close, q, hsplit, hsign, hleft, hright]
  have hbasechars := hbase.isPairChar hnumbers
  rw [hsplit] at hbasechars
  obtain ⟨hfrontchars, hbackchars⟩ := List.forall_mem_append.mp hbasechars
  obtain ⟨hminus, hbackchars⟩ := List.forall_mem_cons.mp hbackchars
  have hplain : '-' ∉ front.tail := by
    obtain ⟨m, hm, s, -, hmarked, -⟩ := hbase.exists_of_hyphen hnumbers hfront hsplit
    have hmark := s.hyphen_not_mem_mark (NumberSyntax.regular_of_mem hnumbers hm)
    rw [hmarked]
    cases s.outer with
    | true => exact hmark
    | false => exact fun hmem => hmark (List.mem_of_mem_tail hmem)
  have hvalue := q.value_text hnumbers hfront hfrontchars (by simp [q])
    (List.forall_mem_append.mpr ⟨hbackchars,
      List.forall_mem_cons.mpr ⟨hminus, hoffset.isPairChar hnumbers⟩⟩)
    (fun y z hyz => absurd (show '-' ∈ front.tail by rw [hyz]; simp) hplain)
    (by rw [htext]; exact hfree) origin relative
  rwa [htext] at hvalue

end SpacedPair

/-- A pair of numbers and names stands for their sum or their difference.  Each of them stands for
what it denotes by itself, the base relative to an address or not, the offset never so.  Only where
the base has a hyphen behind its mark, and the sign is a hyphen without white space on either side,
the pair comes apart at the first of the two: it is the difference of a mark, which is an undefined
name unless a symbol is called so, and of what follows. -/
theorem pairs_are_resolved {symbols : Symbols} (hnumbers : symbols.numbers ∈ NumberSyntax.all)
    (p : SpacedPair) (hbase : symbols.numbers.IsOperand p.base)
    (hoffset : symbols.numbers.IsOperand p.offset)
    (hfree : List.lookup (String.ofList p.text) symbols.labels = none) (origin : Int)
    (relative : Bool) :
    (∀ operand ∈ [p.base, p.offset], ∀ relative n,
      symbols.value (String.ofList operand) origin relative = .ok n ↔
        symbols.Denotes (String.ofList operand) origin relative n) ∧
    ((p.IsTight → '-' ∉ p.base.tail) →
      symbols.value (String.ofList p.text) origin relative =
        symbols.pairValue p.base p.sign p.offset origin relative) ∧
    (∀ front back, p.IsTight → front ≠ [] → p.base = front ++ '-' :: back →
      symbols.value (String.ofList p.text) origin relative =
        symbols.pairValue front '-' (back ++ '-' :: p.offset) origin relative ∧
      (List.lookup (String.ofList front) symbols.labels = none →
        List.lookup (String.ofList front) symbols.constants = none →
        symbols.value (String.ofList p.text) origin relative =
          .error (symbols.undefined (String.ofList front)))) := by
  have hbasechars := hbase.isPairChar hnumbers
  have hoffsetchars := hoffset.isPairChar hnumbers
  refine ⟨?_, fun hwhole => ?_, fun front back htight hfront hsplit => ?_⟩
  · intro operand hoperand relative n
    rw [← Symbols.atom_eq_ok_iff]
    rcases List.mem_pair.mp hoperand with rfl | rfl
    · rw [Symbols.value_eq_atom hbasechars]
    · rw [Symbols.value_eq_atom hoffsetchars]
  · refine p.value_text hnumbers (hbase.ne_nil hnumbers) hbasechars (hoffset.ne_nil hnumbers)
      hoffsetchars (fun y z hyz => ⟨hbase.ne_nil_of_hyphen hnumbers hyz, fun htight => ?_⟩) hfree
      origin relative
    exact hwhole htight (by rw [hyz]; simp)
  · have hvalue := p.value_text_of_isTight hnumbers hbase hoffset htight hfront hsplit hfree origin
      relative
    refine ⟨hvalue, fun hlabel hconstant => ?_⟩
    rw [hsplit] at hbase hbasechars
    rw [hvalue, Symbols.pairValue,
      Symbols.value_eq_atom (List.forall_mem_append.mp hbasechars).1,
      Symbols.atom_eq_error (hbase.read_front hnumbers hfront) hlabel hconstant]
    rfl

/-- The distance of a label, and a number with a hyphen behind its mark to take from it. -/
theorem distance_less_marked_number_is_resolved :
    Symbols.value ⟨.dollar, [("loop", 16)], []⟩ "( loop-$-3)" 4 true = .ok 15 := by
  let p : SpacedPair :=
    { base := ['l', 'o', 'o', 'p'], sign := '-', offset := ['$', '-', '3'], before := [' '],
      left := [], right := [], after := [], sign_eq := .inr rfl, blank_before := by simp [isBlank],
      blank_left := by simp, blank_right := by simp, blank_after := by simp }
  have hword : p.base.all isWordChar = true := rfl
  have hnumber : NumberSyntax.dollar.parse? "$-3" = some (-3) := by decide +kernel
  have hnumbers : Symbols.numbers ⟨.dollar, [("loop", 16)], []⟩ ∈ NumberSyntax.all := by decide
  obtain ⟨-, hvalue, -⟩ := pairs_are_resolved hnumbers p
    (.inr ⟨List.cons_ne_nil _ _, List.all_eq_true.mp hword⟩)
    (.inl (Option.isSome_iff_exists.mpr ⟨_, hnumber⟩)) rfl 4 true
  refine (hvalue fun _ => by simp [p]).trans ?_
  decide +kernel

/-- Two numbers without white space between them: the hyphen behind the mark of the first one is
taken for the sign. -/
theorem hyphen_behind_mark_is_taken_for_sign :
    let symbols : Symbols := ⟨.dollar, [], []⟩
    symbols.value "$-5" 0 false = .ok (-5) ∧ symbols.value "3" 0 false = .ok 3 ∧
      List.lookup "($-5-3)" symbols.labels = none ∧
      symbols.value "($-5-3)" 0 false = .error (.undefined "$" []) ∧
      symbols.value "($-5 - 3)" 0 false = .ok (-8) := by
  decide +kernel

end PocketAsm

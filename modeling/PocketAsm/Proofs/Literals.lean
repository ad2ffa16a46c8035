/-
  Proofs/Literals.lean --- number literals as operands, and as expansions write them.

  A text with a value as a number is accepted by the pattern of numbers
  (`RadixMark.accepts_number_of_read?`).  Where the marks of numbers are
  letters and digits such a text is also a name (`name_of_parse?`), and the
  decimal digits of a number are read as the number (`read_toString`), if they
  are not too many; hexadecimal ones may be as many as they like
  (`read_hexadecimal_power`).
-/
import PocketAsm.Proofs.Numerals
import PocketAsm.Proofs.Tokens

set_option autoImplicit false

namespace PocketAsm

open Pattern

namespace RadixMark

variable {cs : List Char} {n : Int}

/-! ## The parts of a number -/

theorem takeMinus_of_ne {c : Char} (hc : c ≠ '-') (cs : List Char) :
    takeMinus (c :: cs) = (false, c :: cs) := by
  unfold takeMinus
  split
  · rename_i h
    exact absurd (List.cons.inj h).1 hc
  · rfl

/-- What begins with neither a minus sign nor an apostrophe is no character literal. -/
theorem body?_eq_none {c : Char} (hminus : c ≠ '-') (hquote : c ≠ '\x27') (cs : List Char) :
    CharLiteral.body? (String.ofList (c :: cs)) = none := by
  rw [CharLiteral.body?, String.toList_ofList, takeMinus_of_ne hminus]
  dsimp only
  split
  · rename_i hcs
    simp [← (List.cons.inj hcs).1, hquote]
  · rename_i hcs
    simp [← (List.cons.inj hcs).1, hquote]
  · rfl

/-- A mark that begins with a sign or digit is dropped where it stands. -/
theorem dropMark_of_ne {m c : Char} (hm : m.toNat < 97) (hfold : Text.foldLetter m = m)
    (hc : c ≠ m) (ms cs : List Char) : dropMark (m :: ms) (c :: cs) = none := by
  rw [dropMark, if_neg]
  rw [Text.sameLetter, beq_iff_eq, hfold]
  exact fun h => hc (Text.eq_of_foldLetter_eq (.inl hm) h.symm)

theorem isDigit_of_isDigit_ten {c : Char} (h : isDigit 10 c = true) :
    Text.isDigit c = true := by
  unfold isDigit Text.digitIn? at h
  dsimp only at h
  split at h
  · rename_i hdigit
    simpa [Text.isDigit] using hdigit
  · split at h
    · rename_i hsmall
      have hlow : 97 ≤ c.toNat := hsmall.1
      rw [if_neg (by omega)] at h
      simp at h
    · split at h
      · rename_i hcapital
        have hlow : 65 ≤ c.toNat := hcapital.1
        rw [if_neg (by omega)] at h
        simp at h
      · simp at h

/-- A number with the mark may begin with the character, unless it begins with a minus sign. -/
def opens (m : RadixMark) (c : Char) : Bool :=
  match m.mark with
  | [] => isDigit m.radix c
  | d :: _ => Text.sameLetter d c

theorem read?_eq_none_of_opens {m : RadixMark} {c : Char} (hc : c ≠ '-') (h : m.opens c = false)
    (cs : List Char) : m.read? (c :: cs) = none := by
  obtain ⟨mark, radix, innerSign⟩ := m
  cases mark with
  | nil =>
    have hdigit : isDigit radix c = false := h
    cases innerSign <;> simp [read?, takeMinus_of_ne hc, dropMark, magnitude?, hdigit]
  | cons d mark =>
    have hsame : Text.sameLetter d c = false := h
    simp [read?, takeMinus_of_ne hc, dropMark, hsame]

/-- A minus sign in front of a number negates it. -/
theorem read?_minus (m : RadixMark) {c : Char} (hc : c ≠ '-') (cs : List Char) :
    m.read? ('-' :: c :: cs) = (m.read? (c :: cs)).map (- ·) := by
  have houter : takeMinus ('-' :: c :: cs) = (true, c :: cs) := rfl
  simp only [read?, houter, takeMinus_of_ne hc]
  cases dropMark m.mark (c :: cs) with
  | none => rfl
  | some rest =>
    dsimp only
    generalize (if m.innerSign then takeMinus rest else (false, rest)) = inner
    cases magnitude? m.radix inner.2 with
    | none => rfl
    | some k => cases inner.1 <;> simp

theorem accepts_takeMinus (cs : List Char) :
    ∃ x, cs = x ++ (takeMinus cs).2 ∧ Operand.minus.Accepts x [] := by
  unfold takeMinus
  split
  · exact ⟨['-'], rfl, Or.inl ⟨⟨'-', rfl, by decide⟩, rfl⟩⟩
  · exact ⟨[], rfl, Or.inr ⟨rfl, rfl⟩⟩

theorem accepts_dropMark {ms rest : List Char} (h : dropMark ms cs = some rest) :
    ∃ x, cs = x ++ rest ∧ (all (ms.map letter)).Accepts x [] := by
  induction ms generalizing cs with
  | nil => exact ⟨[], by simpa [dropMark] using h, rfl, rfl⟩
  | cons m ms ih =>
    cases cs with
    | nil => simp [dropMark] at h
    | cons c cs =>
      rw [dropMark] at h
      split at h
      · rename_i hc
        obtain ⟨x, rfl, hx⟩ := ih h
        exact ⟨c :: x, rfl, accepts_all_cons.mpr
          ⟨[c], x, [], [], rfl, rfl, ⟨⟨c, rfl, hc⟩, rfl⟩, hx⟩⟩
      · cases h

theorem accepts_innerSign (innerSign : Bool) (cs : List Char) :
    ∃ x, cs = x ++ (if innerSign then takeMinus cs else (false, cs)).2 ∧
      (if innerSign then Operand.minus else .empty : Pattern).Accepts x [] := by
  cases innerSign with
  | true => exact accepts_takeMinus cs
  | false => exact ⟨[], rfl, rfl, rfl⟩

theorem accepts_magnitude {radix magnitude : Nat} (h : magnitude? radix cs = some magnitude) :
    (all [.one (isDigit radix), .many fun c => isDigit radix c || c == '_']).Accepts cs [] := by
  cases cs with
  | nil => simp [magnitude?] at h
  | cons d cs =>
    rw [magnitude?] at h
    split at h
    · rename_i hdigits
      obtain ⟨hd, hcs⟩ := Bool.and_eq_true_iff.mp hdigits
      exact accepts_all_cons.mpr
        ⟨[d], cs, [], [], rfl, rfl, ⟨⟨d, rfl, hd⟩, rfl⟩, List.all_eq_true.mp hcs, rfl⟩
    · cases h

/-- A text that has a value as a number is accepted as one. -/
theorem accepts_number_of_read? {m : RadixMark} (h : m.read? cs = some n) :
    (Operand.number m).Accepts cs [] := by
  obtain ⟨x₁, hx₁, haccepts₁⟩ := accepts_takeMinus cs
  simp only [read?] at h
  split at h
  · cases h
  · rename_i rest hdrop
    obtain ⟨x₂, hx₂, haccepts₂⟩ := accepts_dropMark hdrop
    obtain ⟨x₃, hx₃, haccepts₃⟩ := accepts_innerSign m.innerSign rest
    split at h
    · cases h
    · rename_i hmagnitude
      exact accepts_all_cons.mpr ⟨x₁, _, [], [], hx₁, rfl, haccepts₁, accepts_all_cons.mpr
        ⟨x₂, _, [], [], hx₂, rfl, haccepts₂, accepts_all_cons.mpr
          ⟨x₃, _, [], [], hx₃, rfl, haccepts₃, accepts_magnitude hmagnitude⟩⟩⟩

/-! ## Decimal digits -/

theorem digitIn?_of_isDigit {c : Char} (h : c.isDigit = true) :
    Text.digitIn? 10 c = some (c.toNat - 48) := by
  obtain ⟨hlow, hhigh⟩ := Bool.and_eq_true_iff.mp h
  have hlow : 48 ≤ c.toNat := of_decide_eq_true hlow
  have hhigh : c.toNat ≤ 57 := of_decide_eq_true hhigh
  have hdigit : '0' ≤ c ∧ c ≤ '9' := ⟨hlow, hhigh⟩
  rw [Text.digitIn?, if_pos hdigit]
  exact if_pos (by omega)

/-- The empty mark is at the front of any text. -/
theorem dropMark_nil (cs : List Char) : dropMark [] cs = some cs := by
  cases cs <;> rfl

section Digits

variable (n : Nat)

theorem digitsValue_toDigits : digitsValue 10 (Nat.toDigits 10 n) = n := by
  have hdigits : (Nat.toDigits 10 n).filterMap (Text.digitIn? 10) =
      (Nat.toDigits 10 n).map fun c => c.toNat - 48 := by
    rw [← List.filterMap_eq_map]
    refine List.filterMap_congr fun c hc => digitIn?_of_isDigit ?_
    exact Nat.isDigit_of_mem_toDigits (by decide) (by decide) hc
  have hfold : digitsValue 10 (Nat.toDigits 10 n) =
      Nat.ofDigitChars 10 (Nat.toDigits 10 n) 0 := by
    rw [digitsValue, hdigits, List.foldl_map, Nat.ofDigitChars_eq_foldl]
    congr 1
    funext acc c
    rw [Nat.mul_comm]
    rfl
  rw [hfold, Nat.ofDigitChars_ten_toDigits]

theorem magnitude?_toDigits : magnitude? 10 (Nat.toDigits 10 n) = some n := by
  have hvalue := digitsValue_toDigits n
  obtain ⟨d, ds, hds, hdigit⟩ := Text.exists_digit_cons n
  have hall : ∀ c ∈ d :: ds, isDigit 10 c = true := by
    intro c hc
    rw [← hds] at hc
    rw [isDigit, digitIn?_of_isDigit (Nat.isDigit_of_mem_toDigits (by decide) (by decide) hc)]
    rfl
  rw [hds] at hvalue ⊢
  rw [magnitude?, if_pos, hvalue]
  simp only [Bool.and_eq_true, List.all_eq_true, Bool.or_eq_true]
  exact ⟨hall d List.mem_cons_self, fun c hc => Or.inl (hall c (List.mem_cons_of_mem d hc))⟩

theorem takeMinus_toDigits : takeMinus (Nat.toDigits 10 n) = (false, Nat.toDigits 10 n) := by
  obtain ⟨d, ds, hds, hdigit⟩ := Text.exists_digit_cons n
  rw [hds, takeMinus_of_ne (Text.ne_of_isDigit hdigit rfl)]

/-- Decimal digits are read as their number where no mark is asked for. -/
theorem read?_toDigits : RadixMark.read? ⟨[], 10, false⟩ (Nat.toDigits 10 n) = some (n : Int) := by
  simp [read?, takeMinus_toDigits, dropMark_nil, magnitude?_toDigits]

/-- No mark of two characters is at the front of decimal digits. -/
theorem dropMark_toDigits (m : Char) : dropMark ['0', m] (Nat.toDigits 10 n) = none := by
  by_cases hzero : n = 0
  · subst hzero
    rfl
  · have hhead := Text.head_toDigits_ne hzero
    obtain ⟨d, ds, hds, -⟩ := Text.exists_digit_cons n
    rw [hds] at hhead ⊢
    exact dropMark_of_ne (by decide) (by decide) (by simpa using hhead) [m] ds

end Digits

/-! ## Powers of sixteen -/

theorem digitsValue_hexadecimal_power (k : Nat) :
    digitsValue 16 ('1' :: List.replicate k '0') = Nat.pow 16 k := by
  have hfold : ∀ k a : Nat,
      (List.replicate k 0).foldl (fun acc d => acc * 16 + d) a = a * Nat.pow 16 k := by
    intro k
    induction k with
    | zero => intro a; simp
    | succ k ih =>
      intro a
      have hpow : Nat.pow 16 (k + 1) = Nat.pow 16 k * 16 := rfl
      rw [List.replicate_succ, List.foldl_cons, ih, hpow]
      ring
  have hone : Text.digitIn? 16 '1' = some 1 := rfl
  have hzero : Text.digitIn? 16 '0' = some 0 := rfl
  rw [digitsValue, List.filterMap_cons_some hone, List.filterMap_replicate_of_some hzero,
    List.foldl_cons, hfold]
  simp

end RadixMark

namespace Operand

open Text

/-! ## Numbers as names -/

theorem isLetter_of_toNat {c : Char}
    (h : (65 ≤ c.toNat ∧ c.toNat ≤ 90) ∨ (97 ≤ c.toNat ∧ c.toNat ≤ 122)) : isLetter c = true := by
  rw [← Char.ofNat_toNat c]
  generalize c.toNat = n at h
  rcases h with ⟨hlow, hhigh⟩ | ⟨hlow, hhigh⟩ <;> interval_cases n <;> decide

/-- The digits of all radices are characters of names. -/
theorem isNameChar_of_isDigit {radix : Nat} {c : Char} (h : RadixMark.isDigit radix c = true) :
    isNameChar c = true := by
  have hletter (hc : isLetter c = true) : isNameChar c = true := by simp [isNameChar, hc]
  unfold RadixMark.isDigit digitIn? at h
  dsimp only at h
  split at h
  · rename_i hdigit
    have hc : Text.isDigit c = true := by simpa [Text.isDigit] using hdigit
    simp [isNameChar, hc]
  · split at h
    · rename_i hsmall
      exact hletter (isLetter_of_toNat (.inr hsmall))
    · split at h
      · rename_i hcapital
        exact hletter (isLetter_of_toNat (.inl hcapital))
      · simp at h

theorem isNameChar_of_foldLetter {c : Char} (h : isNameChar (foldLetter c) = true) :
    isNameChar c = true := by
  rcases foldLetter_cases c with hc | ⟨hlow, hhigh, -⟩
  · rwa [hc] at h
  · have hletter : isLetter c = true :=
      Bool.and_eq_true_iff.mpr ⟨decide_eq_true hlow, decide_eq_true hhigh⟩
    simp [isNameChar, hletter]

theorem within_letter_name {c : Char} (hfold : foldLetter c = c) (hc : isNameChar c = true) :
    (letter c).Within isNameChar := by
  intro d hd
  have hsame : foldLetter c = foldLetter d := by simpa [sameLetter] using hd
  exact isNameChar_of_foldLetter (by rwa [← hsame, hfold])

end Operand

namespace NumberSyntax

/-- A number whose mark is a zero with a letter, or none, is a name. -/
theorem name_of_parse? {text : String} {n : Int} (h : zeroMarked.parse? text = some n) :
    text.toList ≠ [] ∧ ∀ c ∈ text.toList, Operand.isNameChar c = true := by
  have hmarks : ∀ m ∈ zeroMarked.marks, ∀ c ∈ m.mark,
      Text.foldLetter c = c ∧ Operand.isNameChar c = true := by
    have hall : (zeroMarked.marks.all fun m => m.mark.all fun c =>
        Text.foldLetter c == c && Operand.isNameChar c) = true := by decide
    simpa only [List.all_eq_true, Bool.and_eq_true, beq_iff_eq] using hall
  obtain ⟨m, hm, hread⟩ := List.exists_of_findSome?_eq_some h
  have haccepts := RadixMark.accepts_number_of_read? hread
  have hconsumes : (Operand.number m).consumes = true := by
    simp [Operand.number, all, consumes]
  have hwithin : (Operand.number m).Within Operand.isNameChar :=
    Operand.within_number_of
      (fun c hc => Operand.within_letter_name (hmarks m hm c hc).1 (hmarks m hm c hc).2)
      ⟨Operand.within_letter_name (by decide) (by decide), trivial⟩
      (fun c hc => Operand.isNameChar_of_isDigit hc) (by decide)
  exact ⟨ne_nil_of_consumes hconsumes haccepts, hwithin.of_accepts haccepts⟩

/-- A text that begins as no number does is none. -/
theorem parse?_eq_none_of_opens {numbers : NumberSyntax} {c : Char} (hc : c ≠ '-')
    (h : ∀ m ∈ numbers.marks, m.opens c = false) (cs : List Char) :
    numbers.parse? (String.ofList (c :: cs)) = none := by
  refine List.findSome?_eq_none_iff.mpr fun m hm => ?_
  rw [String.toList_ofList]
  exact RadixMark.read?_eq_none_of_opens hc (h m hm) cs

theorem read_eq_some {spelling : NumberSyntax} {text : String} {n : Int} :
    spelling.read text = .ok (some n) ↔
      spelling.isOverlong text = false ∧ spelling.parse? text = some n := by
  unfold read
  cases spelling.isOverlong text <;> simp

/-- A minus sign in front of a literal negates its value. -/
theorem read_minus {spelling : NumberSyntax} {c : Char} {cs : List Char} {n : Int} (hc : c ≠ '-')
    (h : spelling.read (String.ofList (c :: cs)) = .ok (some n)) :
    spelling.read (String.ofList ('-' :: c :: cs)) = .ok (some (-n)) := by
  obtain ⟨hshort, hparse⟩ := read_eq_some.mp h
  have hdigits : (RadixMark.takeMinus ('-' :: c :: cs)).2 = (RadixMark.takeMinus (c :: cs)).2 := by
    rw [RadixMark.takeMinus_of_ne hc]
    rfl
  simp only [isOverlong, parse?, String.toList_ofList] at hshort hparse
  refine read_eq_some.mpr ⟨?_, ?_⟩
  · simp only [isOverlong, String.toList_ofList, hdigits, RadixMark.read?_minus _ hc,
      Option.isSome_map]
    exact hshort
  · simp only [parse?, String.toList_ofList, RadixMark.read?_minus _ hc]
    rw [← Function.comp_def, ← List.map_findSome?, hparse]
    rfl

/-- Decimal digits are not too many if the number is below the bound, whatever the dialect. -/
theorem isOverlong_of_toDigits {spelling : NumberSyntax} {text : String} {n : Nat}
    (htext : text.toList = Nat.toDigits 10 n) (hbound : n < Text.decimalBound) :
    spelling.isOverlong text = false := by
  have hlong : Text.isOverlong 10 (Nat.toDigits 10 n) = false := by
    rw [Text.isOverlong_toDigits]
    exact decide_eq_false (Nat.not_le.mpr hbound)
  rw [isOverlong, htext, RadixMark.takeMinus_toDigits]
  dsimp only
  rw [hlong, Bool.false_and]

/-- The decimal digits of a number are read as the number, if they are not too many. -/
theorem read_of_toDigits {text : String} {n : Nat} (htext : text.toList = Nat.toDigits 10 n)
    (hbound : n < Text.decimalBound) : zeroMarked.read text = .ok (some (n : Int)) := by
  have hparse : zeroMarked.parse? text = some (n : Int) := by
    simp [parse?, zeroMarked, RadixMark.read?, htext, RadixMark.takeMinus_toDigits,
      RadixMark.dropMark_nil, RadixMark.dropMark_toDigits, RadixMark.magnitude?_toDigits]
  exact read_eq_some.mpr ⟨isOverlong_of_toDigits htext hbound, hparse⟩

/-- What an expansion writes of a number that is not negative is read as the number. -/
theorem read_toString {n : Int} (hn : 0 ≤ n) (hwritable : Text.isWritable n = true) :
    zeroMarked.read (toString n) = .ok (some n) := by
  have hbound : n.natAbs < Text.decimalBound := of_decide_eq_true hwritable
  have htext : (toString n).toList = Nat.toDigits 10 n.natAbs := by
    rw [Text.toList_toString, if_neg (by omega)]
  rw [read_of_toDigits htext hbound, Int.natAbs_of_nonneg hn]

/-- A one and zeros behind the mark of hexadecimal numbers are a power of sixteen, however many
there are. -/
theorem read_hexadecimal_power (k : Nat) :
    zeroMarked.read (String.ofList ("0x1".toList ++ List.replicate k '0')) =
      .ok (some ((Nat.pow 16 k : Nat) : Int)) := by
  have htext :
      "0x1".toList ++ List.replicate k '0' = '0' :: 'x' :: '1' :: List.replicate k '0' := rfl
  have hdigits :
      (List.replicate k '0').all (fun d => RadixMark.isDigit 16 d || d == '_') = true := by
    rw [List.all_replicate]
    simp [RadixMark.isDigit, Text.digitIn?]
  have hmagnitude : RadixMark.magnitude? 16 ('1' :: List.replicate k '0') =
      some (Nat.pow 16 k) := by
    rw [RadixMark.magnitude?, hdigits, RadixMark.digitsValue_hexadecimal_power]
    rfl
  have hminus (cs : List Char) : RadixMark.takeMinus ('0' :: cs) = (false, '0' :: cs) := rfl
  have hdecimal : RadixMark.magnitude? 10 ('0' :: 'x' :: '1' :: List.replicate k '0') = none := by
    rw [RadixMark.magnitude?]
    rfl
  rw [read_eq_some, htext]
  refine ⟨?_, ?_⟩
  · have hother : (zeroMarked.marks.any fun m => m.radix == 10 &&
        (m.read? ('0' :: 'x' :: '1' :: List.replicate k '0')).isSome) = false := by
      simp [zeroMarked, RadixMark.read?, hminus, RadixMark.dropMark, hdecimal]
    rw [isOverlong, String.toList_ofList, hother, Bool.and_false]
  · have hdrop : RadixMark.dropMark ['0', 'x'] ('0' :: 'x' :: '1' :: List.replicate k '0') =
        some ('1' :: List.replicate k '0') := rfl
    simp [parse?, zeroMarked, RadixMark.read?, hminus, hdrop, hmagnitude]

end NumberSyntax

end PocketAsm

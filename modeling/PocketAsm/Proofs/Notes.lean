/-
  Proofs/Notes.lean --- values read back from note blocks.

  Dividing a number of at most 53 bits by a power of two only moves the binary
  point, so the quotient is exact (`exists_ofRatio_eq`).  Each halving takes one
  decimal place: with as many places as there were halvings the decimal text
  is exact too (`decimal?_fixed`).  A field of 24 bits is halved five times and
  shown to five places; so the numeral on a note block, times the scale behind
  it, is the value.
-/
import PocketAsm.Bits.Note
import PocketAsm.Proofs.Magnitude
import PocketAsm.Proofs.Numerals

set_option autoImplicit false

namespace PocketAsm

/-! ## Exact quotients -/

namespace Binary64

/-- A multiple is divided without rounding. -/
theorem roundDiv_mul (m : Nat) {d : Nat} (hd : 0 < d) : roundDiv (m * d) d = m := by
  simp [roundDiv, Nat.mul_div_cancel m hd, hd]

section PowerOfTwo

variable {n k : Nat} (hn : n ≠ 0) (hsmall : n < 2 ^ 53) (hk : k ≤ 1022)

include hn hsmall

theorem log2_le : n.log2 ≤ 52 := by
  have := (Nat.log2_lt hn).mpr hsmall
  omega

/-- Brought to 53 bits, a number still has the value that it had in front of the scale. -/
theorem scaled_power : scaled n (2 ^ k) ((n.log2 : Int) - k - 52) =
    (n * 2 ^ (52 - n.log2) * 2 ^ k, 2 ^ k) := by
  have hlog := log2_le hn hsmall
  unfold scaled
  split
  · -- nothing is to be moved for 53 bits over one
    have hfull : n.log2 = 52 := by omega
    have hone : k = 0 := by omega
    simp [hfull, hone]
  · have hmoved : (-((n.log2 : Int) - k - 52)).toNat = 52 - n.log2 + k := by omega
    rw [hmoved, Nat.mul_assoc, ← pow_add]
    rfl

theorem full_mantissa : leastFull ≤ n * 2 ^ (52 - n.log2) ∧
    n * 2 ^ (52 - n.log2) < 2 * leastFull := by
  have hlog := log2_le hn hsmall
  have hleast : leastFull = 2 ^ n.log2 * 2 ^ (52 - n.log2) := by
    rw [← pow_add, show n.log2 + (52 - n.log2) = 52 by omega]
    rfl
  have hmost : 2 * leastFull = 2 ^ (n.log2 + 1) * 2 ^ (52 - n.log2) := by
    rw [hleast]
    ring
  rw [hmost, hleast]
  exact ⟨Nat.mul_le_mul_right _ (Nat.log2_self_le hn),
    Nat.mul_lt_mul_of_pos_right Nat.lt_log2_self (by positivity)⟩

include hk

theorem exponentOf_power : exponentOf n (2 ^ k) = (n.log2 : Int) - k - 52 := by
  have hlog := log2_le hn hsmall
  have hfull : ¬n * 2 ^ (52 - n.log2) < leastFull := not_lt.mpr (full_mantissa hn hsmall).1
  simp only [exponentOf, Nat.log2_two_pow, scaled_power hn hsmall,
    Nat.mul_div_cancel _ (Nat.two_pow_pos k), hfull, if_false]
  exact max_eq_right (by simp only [minExponent]; omega)

theorem ofRatio_power (negative : Bool) : ofRatio negative n (2 ^ k) =
    .finite negative (n * 2 ^ (52 - n.log2)) ((n.log2 : Int) - k - 52) := by
  have hlog := log2_le hn hsmall
  have hround : n * 2 ^ (52 - n.log2) ≠ 2 * leastFull := (full_mantissa hn hsmall).2.ne
  have hfinite : ¬maxExponent < (n.log2 : Int) - k - 52 := by
    simp only [maxExponent]
    omega
  simp only [ofRatio, hn, if_false, exponentOf_power hn hsmall hk, scaled_power hn hsmall,
    roundDiv_mul _ (Nat.two_pow_pos k), hround, hfinite]

end PowerOfTwo

/-- The quotient of a number of at most 53 bits and a power of two is exact. -/
theorem exists_ofRatio_eq (negative : Bool) {n k : Nat} (hsmall : n < 2 ^ 53) (hk : k ≤ 1022) :
    ∃ m e, ofRatio negative n (2 ^ k) = .finite negative m e ∧ (m : ℚ) * 2 ^ e = n / 2 ^ k := by
  by_cases hn : n = 0
  · exact ⟨0, minExponent, by simp [ofRatio, hn], by simp [hn]⟩
  · have hlog := log2_le hn hsmall
    have hexponent : (2 : ℚ) ^ (52 - n.log2) * 2 ^ ((n.log2 : Int) - k - 52) = (2 ^ k)⁻¹ := by
      rw [← zpow_natCast, ← zpow_natCast, ← zpow_neg, ← zpow_add₀ two_ne_zero]
      congr 1
      omega
    refine ⟨_, _, ofRatio_power hn hsmall hk negative, ?_⟩
    rw [div_eq_mul_inv, ← hexponent, ← mul_assoc]
    push_cast
    rfl

/-! ## Exact decimals -/

/-- A number that needs no more than the given decimal places is shown without rounding. -/
theorem fixed_eq {m digits : Nat} {e : Int} (negative : Bool) (places : Nat)
    (h : (m : ℚ) * 2 ^ e * 10 ^ places = digits) :
    fixed places (.finite negative m e) =
      signText negative ++ decimal 1 (digits / 10 ^ places) ++ "." ++
        decimal places (digits % 10 ^ places) := by
  have hratio : (toRatio m e).1 * 10 ^ places = digits * (toRatio m e).2 := by
    have hvalue : ((toRatio m e).1 : ℚ) * 10 ^ places = digits * (toRatio m e).2 := by
      rw [toRatio_fst_eq, ← h]
      ring
    exact_mod_cast hvalue
  have hround : roundDiv ((toRatio m e).1 * Nat.pow 10 places) (toRatio m e).2 = digits := by
    rw [show Nat.pow 10 places = 10 ^ places from rfl, hratio,
      roundDiv_mul _ (toRatio_snd_pos m e)]
  simp only [fixed, hround]
  rfl

/-- A number that is divided by two so often needs as many decimal places. -/
theorem exists_digits (n : Nat) {k places : Nat} (hk : k ≤ places) :
    ∃ digits : Nat, (n : ℚ) / 2 ^ k * 10 ^ places = digits := by
  obtain ⟨rest, rfl⟩ := Nat.exists_eq_add_of_le hk
  refine ⟨n * 5 ^ k * 10 ^ rest, ?_⟩
  have hten : (10 : ℚ) ^ k = 2 ^ k * 5 ^ k := by
    rw [← mul_pow]
    norm_num
  push_cast
  rw [pow_add, hten]
  field_simp

end Binary64

/-! ## Decimal numerals -/

namespace Text

/-- The value of decimal digits, of which there is at least one. -/
def natural? (cs : List Char) : Option Nat :=
  if !cs.isEmpty && cs.all Char.isDigit then some (Nat.ofDigitChars 10 cs 0) else none

/-- The value of a decimal numeral: digits, and perhaps a point with more digits behind it. -/
def decimal? (cs : List Char) : Option ℚ :=
  match cs.splitOn '.' with
  | [whole] => (natural? whole).map (↑)
  | [whole, places] =>
    match natural? whole, natural? places with
    | some n, some k => some (n + k / 10 ^ places.length)
    | _, _ => none
  | _ => none

theorem not_mem_of_natural? {cs : List Char} {n : Nat} (h : natural? cs = some n) {c : Char}
    (hc : c.isDigit = false) : c ∉ cs := by
  intro hmem
  unfold natural? at h
  split at h
  · rename_i hdigits
    have hall := List.all_eq_true.mp (Bool.and_eq_true_iff.mp hdigits).2
    rw [hall c hmem] at hc
    cases hc
  · cases h

section Digits

variable (n width : Nat)

/-- Zeros in front of the digits do not count. -/
theorem natural?_zeros : natural? (List.replicate width '0' ++ Nat.toDigits 10 n) = some n := by
  have hdigits : (Nat.toDigits 10 n).all Char.isDigit = true :=
    List.all_eq_true.mpr fun c hc => Nat.isDigit_of_mem_toDigits (by decide) (by decide) hc
  have hnumeral : (!(List.replicate width '0' ++ Nat.toDigits 10 n).isEmpty &&
      (List.replicate width '0' ++ Nat.toDigits 10 n).all Char.isDigit) = true := by
    simp [hdigits]
  rw [natural?, if_pos hnumeral, Nat.ofDigitChars_append, Nat.ofDigitChars_replicate_zero,
    Nat.mul_zero, Nat.ofDigitChars_ten_toDigits]

theorem toList_inRadix : (inRadix 10 width n).toList =
    List.replicate (width - (Nat.toDigits 10 n).length) '0' ++ Nat.toDigits 10 n := by
  simp [inRadix, padLeft]

theorem natural?_inRadix : natural? (inRadix 10 width n).toList = some n := by
  rw [toList_inRadix, natural?_zeros]

theorem length_inRadix (hwidth : 0 < width) (hn : n < 10 ^ width) :
    (inRadix 10 width n).toList.length = width := by
  have hshort : (Nat.toDigits 10 n).length ≤ width :=
    (Nat.length_toDigits_le_iff (by decide) hwidth).mpr hn
  rw [toList_inRadix, List.length_append, List.length_replicate]
  omega

end Digits

theorem natural?_toString {n : Int} (hn : 0 ≤ n) :
    natural? (toString n).toList = some n.natAbs := by
  rw [toList_toString, if_neg (not_lt.mpr hn)]
  exact natural?_zeros n.natAbs 0

theorem decimal?_of_natural? {cs : List Char} {n : Nat} (h : natural? cs = some n) :
    decimal? cs = some (n : ℚ) := by
  have hpoint : cs.splitOn '.' = [cs] :=
    List.splitOn_eq_singleton (not_mem_of_natural? h (by decide))
  rw [decimal?, hpoint]
  simp [h]

theorem decimal?_of_point {whole places : List Char} {n k : Nat} (hwhole : natural? whole = some n)
    (hplaces : natural? places = some k) :
    decimal? (whole ++ '.' :: places) = some ((n : ℚ) + k / 10 ^ places.length) := by
  have hsplit : (whole ++ '.' :: places).splitOn '.' = [whole, places] := by
    rw [List.splitOn_append_cons_self_of_not_mem (not_mem_of_natural? hwhole (by decide)),
      List.splitOn_eq_singleton (not_mem_of_natural? hplaces (by decide))]
  simp only [decimal?, hsplit, hwhole, hplaces]

/-- A numeral consists of digits and points. -/
theorem not_mem_of_decimal? {cs : List Char} {q : ℚ} (h : decimal? cs = some q) {c : Char}
    (hc : c.isDigit = false) (hpoint : c ≠ '.') : c ∉ cs := by
  have hjoin : ['.'].intercalate (cs.splitOn '.') = cs := List.intercalate_splitOn '.'
  unfold decimal? at h
  split at h
  · rename_i whole hsplit
    obtain ⟨n, hwhole, -⟩ := Option.map_eq_some_iff.mp h
    rw [← hjoin, hsplit]
    simpa using not_mem_of_natural? hwhole hc
  · rename_i whole places hsplit
    split at h
    · rename_i n k hwhole hplaces
      rw [← hjoin, hsplit]
      simp [hpoint, not_mem_of_natural? hwhole hc, not_mem_of_natural? hplaces hc]
    · cases h
  · cases h

end Text

namespace Binary64

/-- A number that was divided by two at most so often as there are places is read back from its
text. -/
theorem decimal?_fixed {m n k places : Nat} {e : Int} (hplaces : 0 < places) (hk : k ≤ places)
    (hvalue : (m : ℚ) * 2 ^ e = n / 2 ^ k) :
    Text.decimal? (fixed places (.finite false m e)).toList = some ((n : ℚ) / 2 ^ k) := by
  obtain ⟨digits, hdigits⟩ := exists_digits n hk
  have hparts : (digits / 10 ^ places : Nat) + ((digits % 10 ^ places : Nat) : ℚ) / 10 ^ places =
      n / 2 ^ k := by
    have hsplit : (10 : ℚ) ^ places * (digits / 10 ^ places : Nat) + (digits % 10 ^ places : Nat) =
        digits := by exact_mod_cast Nat.div_add_mod digits (10 ^ places)
    have hten : (10 : ℚ) ^ places ≠ 0 := by positivity
    rw [← hdigits] at hsplit
    field_simp at hsplit ⊢
    linear_combination hsplit
  have htext : (fixed places (.finite false m e)).toList =
      (decimal 1 (digits / 10 ^ places)).toList ++
        '.' :: (decimal places (digits % 10 ^ places)).toList := by
    rw [fixed_eq false places (by rw [hvalue, hdigits])]
    simp [signText, String.toList_append]
  have hlength : (decimal places (digits % 10 ^ places)).toList.length = places :=
    Text.length_inRadix _ _ hplaces (Nat.mod_lt _ (by positivity))
  have hread (width n : Nat) : Text.natural? (decimal width n).toList = some n :=
    Text.natural?_inRadix n width
  rw [htext, Text.decimal?_of_point (hread _ _) (hread _ _), hlength, hparts]

end Binary64

/-! ## Notes -/

namespace Bits

/-- The value that a note block shows: a numeral, times the scale if there is one behind it. -/
def readNote? (text : String) : Option ℚ :=
  match text.toList.splitOn ' ' with
  | [number] => Text.decimal? number
  | [number, 'x' :: scale] =>
    match Text.decimal? number, Text.natural? scale with
    | some q, some k => some (q * k)
    | _, _ => none
  | _ => none

theorem readNote?_of_natural? {text : String} {n : Nat} (h : Text.natural? text.toList = some n) :
    readNote? text = some (n : ℚ) := by
  have hblank : text.toList.splitOn ' ' = [text.toList] :=
    List.splitOn_eq_singleton (Text.not_mem_of_natural? h (by decide))
  simp only [readNote?, hblank]
  exact Text.decimal?_of_natural? h

theorem readNote?_of_scale {number scale : String} {q : ℚ} {k : Nat}
    (hnumber : Text.decimal? number.toList = some q)
    (hscale : Text.natural? scale.toList = some k) :
    readNote? (number ++ " x" ++ scale) = some (q * k) := by
  have hblank : ' ' ∉ number.toList := Text.not_mem_of_decimal? hnumber (by decide) (by decide)
  have hrest : ' ' ∉ 'x' :: scale.toList := by
    rw [List.mem_cons, not_or]
    exact ⟨by decide, Text.not_mem_of_natural? hscale (by decide)⟩
  have hsplit : (number ++ " x" ++ scale).toList.splitOn ' ' =
      [number.toList, 'x' :: scale.toList] := by
    have htext : (number ++ " x" ++ scale).toList =
        number.toList ++ ' ' :: 'x' :: scale.toList := by
      simp [String.toList_append]
    rw [htext, List.splitOn_append_cons_self_of_not_mem hblank, List.splitOn_eq_singleton hrest]
  simp only [readNote?, hsplit, hnumber, hscale]

/-- The note of a number in a field that is shown as it is. -/
theorem exists_note_of_narrow {n : Nat} {width : Int} (hsmall : n < 2 ^ 53)
    (hwidth : width ≤ notePrecision) :
    ∃ text, note n width = .ok text ∧ readNote? text = some (n : ℚ) := by
  have hwritable : Text.isWritable n = true :=
    Text.isWritable_of_lt 16 (by decide) (hsmall.trans (by decide))
  refine ⟨toString (n : Int), ?_, ?_⟩
  · rw [note, if_pos hwidth, decimalText, if_pos hwritable]
  · exact readNote?_of_natural? (Text.natural?_toString (Int.natCast_nonneg n))

/-- The note of a number in a field with up to five bits more than are shown: the quotient and the
numeral are exact. -/
theorem exists_note_of_wide {n k : Nat} (hsmall : n < 2 ^ 53) (hpos : 0 < k) (hk : k ≤ 5) :
    ∃ m e text, Binary64.quotient n (span k) = .ok (.finite false m e) ∧
      (m : ℚ) * 2 ^ e = n / 2 ^ k ∧
      Text.decimal? (Binary64.fixed 5 (.finite false m e)).toList = some ((n : ℚ) / 2 ^ k) ∧
      note n (notePrecision + k) = .ok text ∧ readNote? text = some (n : ℚ) := by
  obtain ⟨m, e, hratio, hvalue⟩ := Binary64.exists_ofRatio_eq false hsmall (show k ≤ 1022 by omega)
  have hnumber := Binary64.decimal?_fixed (by decide) hk hvalue
  have hspan : (span k : Int) ≠ 0 := Int.natCast_ne_zero.mpr (Nat.two_pow_pos k).ne'
  have hquotient : Binary64.quotient n (span k) = .ok (.finite false m e) := by
    have hsign : (decide ((n : Int) < 0) != decide ((span k : Int) < 0)) = false := by
      rw [decide_eq_false (by omega), decide_eq_false (by omega)]
      rfl
    rw [Binary64.quotient, if_neg hspan, hsign, Int.natAbs_natCast, Int.natAbs_natCast]
    exact congrArg Binary64.finiteOnly hratio
  have hwritable : Text.isWritable (span k) = true := by
    refine Text.isWritable_of_lt 2 (by decide) ?_
    interval_cases k <;> decide
  have hscale : Text.natural? (toString (span k : Int)).toList = some (2 ^ k) :=
    Text.natural?_toString (Int.natCast_nonneg _)
  have hproduct : (n : ℚ) / 2 ^ k * (2 ^ k : Nat) = n := by
    push_cast
    field_simp
  refine ⟨m, e, Binary64.fixed 5 (.finite false m e) ++ " x" ++ toString (span k : Int), hquotient,
    hvalue, hnumber, ?_, ?_⟩
  · have hwide : ¬notePrecision + (k : Int) ≤ notePrecision := by omega
    have hbits : (notePrecision + (k : Int) - notePrecision).toNat = k := by omega
    rw [note, if_neg hwide]
    simp only [hbits, hquotient, decimalText, hwritable, if_true]
    rfl
  · rw [readNote?_of_scale hnumber hscale, hproduct]

/-- The note of a number of at most 53 bits in a field of at most 24 bits. -/
theorem exists_note {value width : Int} (hwidth : width ≤ 24) (hvalue : 0 ≤ value)
    (hsmall : value < 2 ^ 53) :
    ∃ text, note value width = .ok text ∧ readNote? text = some (value : ℚ) := by
  obtain ⟨n, rfl⟩ := Int.eq_ofNat_of_zero_le hvalue
  have hbound : n < 2 ^ 53 := by exact_mod_cast hsmall
  by_cases hnarrow : width ≤ notePrecision
  · exact exists_note_of_narrow hbound hnarrow
  · simp only [notePrecision] at hnarrow
    obtain ⟨k, hk⟩ := Int.eq_ofNat_of_zero_le (show 0 ≤ width - 19 by omega)
    obtain rfl : width = notePrecision + k := by
      simp only [notePrecision]
      omega
    obtain ⟨m, e, text, -, -, -, hnote, hread⟩ :=
      exists_note_of_wide hbound (show 0 < k by omega) (show k ≤ 5 by omega)
    exact ⟨text, hnote, hread⟩

/-- The note of a value below `2 ^ 53` in a field of at most 24 bits exists and is read back as the
value, so no other such value has the note, in whatever field.  Where the field has more bits than
are shown, both the quotient by the scale and the numeral with five places are exact. -/
theorem notes_are_read_back {value width : Int} (hwidth : width ≤ 24) (hvalue : 0 ≤ value)
    (hsmall : value < 2 ^ 53) :
    ∃ text, note value width = .ok text ∧ readNote? text = some (value : ℚ) ∧
      (∀ other field : Int, field ≤ 24 → 0 ≤ other → other < 2 ^ 53 →
        note other field = .ok text → other = value) ∧
      ∀ k : Nat, 0 < k → width = notePrecision + k →
        ∃ m e, Binary64.quotient value (span k) = .ok (.finite false m e) ∧
          (m : ℚ) * 2 ^ e = value / 2 ^ k ∧
          Text.decimal? (Binary64.fixed 5 (.finite false m e)).toList =
            some ((value : ℚ) / 2 ^ k) := by
  obtain ⟨text, hnote, hread⟩ := exists_note hwidth hvalue hsmall
  refine ⟨text, hnote, hread, fun other field hfield hother hbound hsame => ?_, fun k hpos hk => ?_⟩
  · obtain ⟨text', hnote', hread'⟩ := exists_note hfield hother hbound
    obtain rfl : text' = text := Except.ok.inj (hnote'.symm.trans hsame)
    exact_mod_cast Option.some.inj (hread'.symm.trans hread)
  · obtain ⟨n, rfl⟩ := Int.eq_ofNat_of_zero_le hvalue
    have hfive : k ≤ 5 := by
      simp only [notePrecision] at hk
      omega
    obtain ⟨m, e, -, hquotient, hexact, hnumber, -, -⟩ :=
      exists_note_of_wide (n := n) (by exact_mod_cast hsmall) hpos hfive
    rw [Int.cast_natCast]
    exact ⟨m, e, hquotient, hexact, hnumber⟩

/-- The greatest value needs all five places. -/
theorem greatest_value_is_read_back :
    (24 : Int) ≤ 24 ∧ (0 : Int) ≤ 9007199254740991 ∧ (9007199254740991 : Int) < 2 ^ 53 ∧
      note 9007199254740991 24 = .ok "281474976710655.96875 x32" ∧
      readNote? "281474976710655.96875 x32" = some 9007199254740991 := by
  obtain ⟨text, hnote, hread, -, -⟩ :=
    @notes_are_read_back 9007199254740991 24 le_rfl (by decide) (by decide)
  have htext : note 9007199254740991 24 = .ok "281474976710655.96875 x32" := by decide +kernel
  obtain rfl : text = "281474976710655.96875 x32" := Except.ok.inj (hnote.symm.trans htext)
  exact ⟨le_rfl, by decide, by decide, htext, by exact_mod_cast hread⟩

/-- With one more bit, six places are needed. -/
example : note 1 25 = .ok "0.01562 x64" := by decide +kernel

end Bits

end PocketAsm

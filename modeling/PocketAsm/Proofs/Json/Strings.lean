/-
  Proofs/Json/Strings.lean --- strings come back from their JSON text.

  A code point is written as itself, as a short escape or as the escapes of its
  code units, in characters that stand on one line (`quote_inline`), and every
  one of these is read as the code point again (`stringBody?_escapePoint`).
  There is one thing to keep apart: the escape of a high half is read together
  with that of a low half directly behind it, and the two are one character
  then.  So a text comes back exactly as it was (`quoted?_escaped`) if no high
  half stands before a low one (`IsApart`).
-/
import Mathlib.Tactic
import PocketAsm.Json.Reader
import PocketAsm.Json.Writer

set_option autoImplicit false

namespace PocketAsm

/-! ## Halves that stand apart -/

namespace CodePoint

/-- The second half of a pair. -/
def isLow : CodePoint → Bool
  | .char _ => false
  | .half unit _ => isLowHalf unit

/-- The first half of a pair. -/
def isHigh : CodePoint → Bool
  | .char _ => false
  | .half unit _ => isHighHalf unit

/-- The numbers of characters leave out those of the halves. -/
theorem toNat_range (c : Char) : c.toNat < 0xD800 ∨ 0xDFFF < c.toNat ∧ c.toNat < 0x110000 :=
  c.valid

theorem isHighHalf_toNat (c : Char) : isHighHalf c.toNat = false := by
  have hrange := toNat_range c
  simp only [isHighHalf, Bool.and_eq_false_iff, decide_eq_false_iff_not]
  omega

theorem isLowHalf_toNat (c : Char) : isLowHalf c.toNat = false := by
  have hrange := toNat_range c
  simp only [isLowHalf, Bool.and_eq_false_iff, decide_eq_false_iff_not]
  omega

theorem isLowHalf_of_high {n : Nat} (h : isHighHalf n = true) : isLowHalf n = false := by
  simp only [isHighHalf, Bool.and_eq_true, decide_eq_true_eq] at h
  simp only [isLowHalf, Bool.and_eq_false_iff, decide_eq_false_iff_not]
  omega

theorem lt_of_isHighHalf {n : Nat} (h : isHighHalf n = true) : n < 0x10000 := by
  simp only [isHighHalf, Bool.and_eq_true, decide_eq_true_eq] at h
  omega

theorem lt_of_isLowHalf {n : Nat} (h : isLowHalf n = true) : n < 0x10000 := by
  simp only [isLowHalf, Bool.and_eq_true, decide_eq_true_eq] at h
  omega

theorem ofNat_toNat (c : Char) : ofNat c.toNat = .char c := by
  have hrange := toNat_range c
  rw [ofNat, dif_neg (by omega), Char.ofNat_toNat]

theorem ofNat_half {unit : Nat} (h : 0xD800 ≤ unit ∧ unit < 0xE000) :
    ofNat unit = .half unit h := dif_pos h

/-- The units of a character behind the first plane are a pair that stands for it. -/
theorem units_of_wide {c : Char} (h : 0x10000 ≤ c.toNat) {high low : Nat}
    (hhigh : high = 0xD800 + (c.toNat - 0x10000) / 1024)
    (hlow : low = 0xDC00 + (c.toNat - 0x10000) % 1024) :
    isHighHalf high = true ∧ isLowHalf low = true ∧ ofPair high low = .char c := by
  have hrange := toNat_range c
  have hnumber : 0x10000 + (high - 0xD800) * 1024 + (low - 0xDC00) = c.toNat := by omega
  refine ⟨?_, ?_, by rw [ofPair, hnumber, ofNat_toNat]⟩
  · simp only [isHighHalf, Bool.and_eq_true, decide_eq_true_eq]
    omega
  · simp only [isLowHalf, Bool.and_eq_true, decide_eq_true_eq]
    omega

end CodePoint

namespace WideText

/-- No high half stands directly before a low one: the text tells the halves from characters. -/
def IsApart (t : WideText) : Prop :=
  t.points.IsChain fun p q => p.isHigh = true → q.isLow = false

instance (t : WideText) : Decidable t.IsApart :=
  inferInstanceAs (Decidable (t.points.IsChain fun p q => p.isHigh = true → q.isLow = false))

/-- A text without halves tells them from characters. -/
theorem isApart_ofString (s : String) : (ofString s).IsApart := by
  rw [IsApart, ofString, List.isChain_map]
  induction s.toList with
  | nil => exact .nil
  | cons c cs ih =>
    cases cs with
    | nil => exact .singleton c
    | cons d cs => exact .cons_cons (fun h => absurd h Bool.false_ne_true) ih

end WideText

namespace Json

/-! ## Code units -/

theorem hexDigit?_digitChar {d : Nat} (h : d < 16) :
    hexDigit? (.char (Nat.digitChar d)) = some d := by
  revert d
  decide

/-- The last hexadecimal digit stands at the end. -/
theorem toList_hex_succ {width : Nat} (hwidth : 0 < width) (n : Nat) :
    (Text.hex (width + 1) n).toList =
      (Text.hex width (n / 16)).toList ++ [Nat.digitChar (n % 16)] := by
  simp only [Text.hex, Text.inRadix, Text.padLeft, String.toList_ofList, String.length_ofList]
  rcases Nat.lt_or_ge n 16 with hn | hn
  · have hzero : n / 16 = 0 := Nat.div_eq_of_lt hn
    obtain ⟨w, rfl⟩ := Nat.exists_eq_add_one_of_ne_zero (Nat.ne_of_gt hwidth)
    rw [hzero, Nat.mod_eq_of_lt hn, Nat.toDigits_of_lt_base hn, Nat.toDigits_zero]
    simp [List.replicate_succ']
  · rw [Nat.toDigits_of_base_le (by decide) hn]
    simp [List.append_assoc]

theorem toList_hex_one {n : Nat} (h : n < 16) : (Text.hex 1 n).toList = [Nat.digitChar n] := by
  simp [Text.hex, Text.inRadix, Text.padLeft, Nat.toDigits_of_lt_base h]

theorem toList_hex_four {n : Nat} (h : n < 0x10000) : (Text.hex 4 n).toList =
    [Nat.digitChar (n / 16 / 16 / 16), Nat.digitChar (n / 16 / 16 % 16),
      Nat.digitChar (n / 16 % 16), Nat.digitChar (n % 16)] := by
  rw [toList_hex_succ (by decide), toList_hex_succ (by decide), toList_hex_succ (by decide),
    toList_hex_one (by omega)]
  rfl

/-- A code unit is read off its four digits. -/
theorem codeUnit?_hex {n : Nat} (h : n < 0x10000) (rest : List CodePoint) :
    codeUnit? ((Text.hex 4 n).toList.map .char ++ rest) = some (n, rest) := by
  have hvalue : (((n / 16 / 16 / 16) * 16 + n / 16 / 16 % 16) * 16 + n / 16 % 16) * 16 + n % 16 =
      n := by omega
  simp only [toList_hex_four h, List.map_cons, List.map_nil, List.cons_append, List.nil_append,
    codeUnit?, hexDigit?_digitChar (show n / 16 / 16 / 16 < 16 by omega),
    hexDigit?_digitChar (Nat.mod_lt _ (show 0 < 16 by decide)), hvalue]

/-- The escape of a code unit, as far as it is read. -/
theorem unitEscape_append (n : Nat) (rest : List CodePoint) :
    (CodePoint.unitEscape n).map .char ++ rest =
      CodePoint.char '\\' :: CodePoint.char 'u' :: ((Text.hex 4 n).toList.map .char ++ rest) := rfl

/-- A unit is a code point by itself unless it is a high half before a low one. -/
theorem unitEscape?_hex {n : Nat} (h : n < 0x10000) {rest : List CodePoint}
    (hrest : CodePoint.isHighHalf n = true → lowHalf? rest = none) :
    unitEscape? ((Text.hex 4 n).toList.map .char ++ rest) = some (.ofNat n, rest) := by
  simp only [unitEscape?, codeUnit?_hex h]
  split
  · rename_i hhigh
    rw [hrest hhigh]
  · rfl

theorem lowHalf?_unitEscape {n : Nat} (h : n < 0x10000) (rest : List CodePoint) :
    lowHalf? ((CodePoint.unitEscape n).map .char ++ rest) =
      if CodePoint.isLowHalf n then some (n, rest) else none := by
  rw [unitEscape_append, lowHalf?, codeUnit?_hex h]

/-- A high half and a low one are taken for one character. -/
theorem unitEscape?_pair {high low : Nat} (hhigh : CodePoint.isHighHalf high = true)
    (hlow : CodePoint.isLowHalf low = true) (rest : List CodePoint) :
    unitEscape? ((Text.hex 4 high).toList.map .char ++
      ((CodePoint.unitEscape low).map .char ++ rest)) = some (.ofPair high low, rest) := by
  simp only [unitEscape?, codeUnit?_hex (CodePoint.lt_of_isHighHalf hhigh),
    lowHalf?_unitEscape (CodePoint.lt_of_isLowHalf hlow), hhigh, hlow, if_true]

/-! ## Escapes -/

theorem escape?_unit (ps : List CodePoint) : escape? (.char 'u' :: ps) = unitEscape? ps := rfl

/-- How a character is written: by itself, by a letter, by its code unit or by two of them. -/
theorem escapeChar_cases (c : Char) :
    (escapeChar c = [c] ∧ 32 ≤ c.toNat ∧ c.toNat ≤ 126 ∧ c ≠ '\x22' ∧ c ≠ '\\') ∨
    (∃ l, escapeChar c = ['\\', l] ∧ escaped? l = some c ∧ l ≠ 'u' ∧
      32 ≤ l.toNat ∧ l.toNat ≤ 126) ∨
    (c.toNat < 0x10000 ∧ escapeChar c = CodePoint.unitEscape c.toNat) ∨
    (∃ high low, escapeChar c = CodePoint.unitEscape high ++ CodePoint.unitEscape low ∧
      CodePoint.isHighHalf high = true ∧ CodePoint.isLowHalf low = true ∧
      CodePoint.ofPair high low = .char c) := by
  have hsame {n : Nat} (h : c.toNat = n) : c = Char.ofNat n := by rw [← h, Char.ofNat_toNat]
  by_cases hquote : c = '\x22'
  · exact .inr (.inl ⟨'\x22', by subst hquote; decide⟩)
  by_cases hsolidus : c = '\\'
  · exact .inr (.inl ⟨'\\', by subst hsolidus; decide⟩)
  by_cases hfeed : c = '\n'
  · exact .inr (.inl ⟨'n', by subst hfeed; decide⟩)
  by_cases hreturn : c = '\r'
  · exact .inr (.inl ⟨'r', by subst hreturn; decide⟩)
  by_cases htab : c = '\t'
  · exact .inr (.inl ⟨'t', by subst htab; decide⟩)
  by_cases hback : c.toNat = 8
  · exact .inr (.inl ⟨'b', by rw [hsame hback]; decide⟩)
  by_cases hform : c.toNat = 12
  · exact .inr (.inl ⟨'f', by rw [hsame hform]; decide⟩)
  by_cases hplain : 32 ≤ c.toNat ∧ c.toNat ≤ 126
  · exact .inl ⟨by simp only [escapeChar, hquote, hsolidus, hfeed, hreturn, htab, hback, hform,
      hplain, and_self, if_false, if_true], hplain.1, hplain.2, hquote, hsolidus⟩
  have hunits : escapeChar c = if c.toNat < 0x10000 then CodePoint.unitEscape c.toNat else
      CodePoint.unitEscape (0xD800 + (c.toNat - 0x10000) / 1024) ++
        CodePoint.unitEscape (0xDC00 + (c.toNat - 0x10000) % 1024) := by
    simp only [escapeChar, hquote, hsolidus, hfeed, hreturn, htab, hback, hform, hplain, if_false]
  by_cases hwide : c.toNat < 0x10000
  · exact .inr (.inr (.inl ⟨hwide, by rw [hunits, if_pos hwide]⟩))
  · rw [if_neg hwide] at hunits
    exact .inr (.inr (.inr
      ⟨_, _, hunits, CodePoint.units_of_wide (Nat.le_of_not_lt hwide) rfl rfl⟩))

theorem stringBody?_plain {c : Char} (hplain : 32 ≤ c.toNat) (hquote : c ≠ '\x22')
    (hsolidus : c ≠ '\\') (fuel : Nat) (acc rest : List CodePoint) :
    stringBody? (fuel + 1) acc (.char c :: rest) = stringBody? fuel (.char c :: acc) rest := by
  have hc : isPlain (.char c) = true := by simp [isPlain, CodePoint.isIn, hplain]
  simp [stringBody?, hquote, hsolidus, hc]

theorem stringBody?_escape {p : CodePoint} {ps rest : List CodePoint}
    (h : escape? ps = some (p, rest)) (fuel : Nat) (acc : List CodePoint) :
    stringBody? (fuel + 1) acc (.char '\\' :: ps) = stringBody? fuel (p :: acc) rest := by
  simp [stringBody?, h]

/-- A code point is read off what is written for it. -/
theorem stringBody?_escapePoint (p : CodePoint) {rest : List CodePoint}
    (hrest : p.isHigh = true → lowHalf? rest = none) (fuel : Nat) (acc : List CodePoint) :
    stringBody? (fuel + 1) acc ((escapePoint p).map .char ++ rest) =
      stringBody? fuel (p :: acc) rest := by
  cases p with
  | half unit hunit =>
    rw [escapePoint, unitEscape_append]
    refine stringBody?_escape ?_ fuel acc
    rw [escape?_unit, unitEscape?_hex (Nat.lt_trans hunit.2 (by decide)) hrest,
      CodePoint.ofNat_half hunit]
  | char c =>
    rw [escapePoint]
    obtain ⟨hc, hplain, -, hquote, hsolidus⟩ | ⟨l, hc, hl, hu, -⟩ | ⟨hwide, hc⟩ |
      ⟨high, low, hc, hhigh, hlow, hpair⟩ := escapeChar_cases c
    · rw [hc]
      exact stringBody?_plain hplain hquote hsolidus fuel acc rest
    · rw [hc]
      exact stringBody?_escape (by simp [escape?, hl]) fuel acc
    · rw [hc, unitEscape_append]
      refine stringBody?_escape ?_ fuel acc
      rw [escape?_unit, unitEscape?_hex hwide (by simp [CodePoint.isHighHalf_toNat]),
        CodePoint.ofNat_toNat]
    · rw [hc, List.map_append, List.append_assoc, unitEscape_append]
      refine stringBody?_escape ?_ fuel acc
      rw [escape?_unit, unitEscape?_pair hhigh hlow, hpair]

/-- What is written for a code point begins with the escape of a low half only if it is one. -/
theorem lowHalf?_escapePoint {p : CodePoint} (h : p.isLow = false) (rest : List CodePoint) :
    lowHalf? ((escapePoint p).map .char ++ rest) = none := by
  cases p with
  | half unit hunit =>
    rw [escapePoint, lowHalf?_unitEscape (by omega), if_neg (by simpa [CodePoint.isLow] using h)]
  | char c =>
    rw [escapePoint]
    obtain ⟨hc, -, -, -, hsolidus⟩ | ⟨l, hc, -, hu, -⟩ | ⟨hwide, hc⟩ |
      ⟨high, low, hc, hhigh, -⟩ := escapeChar_cases c
    · simp [hc, lowHalf?, hsolidus]
    · simp [hc, lowHalf?, hu]
    · rw [hc, lowHalf?_unitEscape hwide, CodePoint.isLowHalf_toNat]
      rfl
    · rw [hc, List.map_append, List.append_assoc,
        lowHalf?_unitEscape (CodePoint.lt_of_isHighHalf hhigh), CodePoint.isLowHalf_of_high hhigh]
      rfl

/-! ## Strings -/

theorem stringBody?_escaped (ps : List CodePoint) :
    ∀ (fuel : Nat) (acc rest : List CodePoint), ps.length < fuel →
      ps.IsChain (fun p q => p.isHigh = true → q.isLow = false) →
      stringBody? fuel acc ((ps.flatMap escapePoint).map .char ++ .char '\x22' :: rest) =
        some (⟨acc.reverse ++ ps⟩, rest) := by
  induction ps with
  | nil =>
    intro fuel acc rest hfuel hapart
    obtain ⟨fuel, rfl⟩ := Nat.exists_eq_add_one_of_ne_zero (Nat.ne_of_gt hfuel)
    simp [stringBody?]
  | cons p ps ih =>
    intro fuel acc rest hfuel hapart
    obtain ⟨fuel, rfl⟩ := Nat.exists_eq_add_one_of_ne_zero (Nat.ne_of_gt (Nat.zero_lt_of_lt hfuel))
    have hnext : p.isHigh = true →
        lowHalf? ((ps.flatMap escapePoint).map .char ++ .char '\x22' :: rest) = none := by
      intro hhigh
      cases ps with
      | nil => rfl
      | cons q ps =>
        rw [List.flatMap_cons, List.map_append, List.append_assoc]
        exact lowHalf?_escapePoint (hapart.rel hhigh) _
    rw [List.flatMap_cons, List.map_append, List.append_assoc,
      stringBody?_escapePoint p hnext,
      ih fuel (p :: acc) rest (by simpa using hfuel) hapart.tail]
    simp

theorem escapePoint_ne_nil (p : CodePoint) : escapePoint p ≠ [] := by
  cases p with
  | half unit hunit => simp [escapePoint, CodePoint.unitEscape]
  | char c =>
    rw [escapePoint]
    obtain ⟨hc, -⟩ | ⟨l, hc, -⟩ | ⟨-, hc⟩ | ⟨high, low, hc, -⟩ :=
      escapeChar_cases c <;>
      simp [hc, CodePoint.unitEscape]

theorem length_le_length_escaped (ps : List CodePoint) :
    ps.length ≤ (ps.flatMap escapePoint).length := by
  induction ps with
  | nil => simp
  | cons p ps ih =>
    have hp := List.length_pos_of_ne_nil (escapePoint_ne_nil p)
    simp only [List.flatMap_cons, List.length_append, List.length_cons]
    omega

/-- A text that tells halves from characters is read off what is written for it. -/
theorem quoted?_escaped {t : WideText} (h : t.IsApart) (rest : List CodePoint) :
    quoted? ((t.points.flatMap escapePoint).map .char ++ .char '\x22' :: rest) =
      some (t, rest) := by
  have hlength := length_le_length_escaped t.points
  refine stringBody?_escaped t.points _ [] rest ?_ h
  rw [List.length_append, List.length_map, List.length_cons]
  omega

/-! ## One line -/

/-- The text is of characters that ASCII shows, blanks included: it stands on one line. -/
def IsInline (s : String) : Prop := ∀ c ∈ s.toList, 32 ≤ c.toNat ∧ c.toNat ≤ 126

instance (s : String) : Decidable (IsInline s) :=
  decidable_of_iff (s.toList.all fun c => decide (32 ≤ c.toNat ∧ c.toNat ≤ 126))
    (by simp [IsInline])

theorem IsInline.not_mem_newline {s : String} (h : IsInline s) : '\n' ∉ s.toList := by
  intro hmem
  have := (h '\n' hmem).1
  contradiction

theorem digitChar_inline {d : Nat} (h : d < 16) :
    32 ≤ (Nat.digitChar d).toNat ∧ (Nat.digitChar d).toNat ≤ 126 := by
  revert d
  decide

theorem toList_hex_inline {n : Nat} (h : n < 0x10000) :
    ∀ c ∈ (Text.hex 4 n).toList, 32 ≤ c.toNat ∧ c.toNat ≤ 126 := by
  intro c hc
  rw [toList_hex_four h] at hc
  simp only [List.mem_cons, List.not_mem_nil, or_false] at hc
  rcases hc with rfl | rfl | rfl | rfl <;> exact digitChar_inline (by omega)

theorem unitEscape_inline {n : Nat} (h : n < 0x10000) :
    ∀ c ∈ CodePoint.unitEscape n, 32 ≤ c.toNat ∧ c.toNat ≤ 126 := by
  intro c hc
  rw [CodePoint.unitEscape, List.mem_cons, List.mem_cons] at hc
  rcases hc with rfl | rfl | hc
  · decide
  · decide
  · exact toList_hex_inline h c hc

theorem escapePoint_inline (p : CodePoint) :
    ∀ c ∈ escapePoint p, 32 ≤ c.toNat ∧ c.toNat ≤ 126 := by
  cases p with
  | half unit hunit => exact unitEscape_inline (Nat.lt_trans hunit.2 (by decide))
  | char d =>
    intro c hc
    rw [escapePoint] at hc
    obtain ⟨hd, hlow, hhigh, -⟩ | ⟨l, hd, -, -, hlow, hhigh⟩ | ⟨hwide, hd⟩ |
      ⟨high, low, hd, hhigh, hlow, -⟩ := escapeChar_cases d
    · obtain rfl : c = d := by simpa [hd] using hc
      exact ⟨hlow, hhigh⟩
    · rw [hd, List.mem_cons, List.mem_singleton] at hc
      rcases hc with rfl | rfl
      · decide
      · exact ⟨hlow, hhigh⟩
    · rw [hd] at hc
      exact unitEscape_inline hwide c hc
    · rw [hd, List.mem_append] at hc
      rcases hc with hc | hc
      · exact unitEscape_inline (CodePoint.lt_of_isHighHalf hhigh) c hc
      · exact unitEscape_inline (CodePoint.lt_of_isLowHalf hlow) c hc

/-- Every text is written on one line, whatever characters it holds. -/
theorem quote_inline (t : WideText) : IsInline (quote t) := by
  intro c hc
  rw [quote, String.toList_ofList, List.mem_append, List.mem_cons, List.mem_singleton] at hc
  rcases hc with (rfl | hc) | rfl
  · decide
  · obtain ⟨p, -, hp⟩ := List.mem_flatMap.mp hc
    exact escapePoint_inline p c hp
  · decide

end Json

end PocketAsm

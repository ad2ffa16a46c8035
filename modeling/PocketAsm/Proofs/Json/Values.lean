/-
  Proofs/Json/Values.lean --- values come back from their JSON text.

  What a reader takes off the front depends on what follows only where a
  numeral ends, so every kind of value has a lemma with an arbitrary rest
  (`Reads`).  Those of arrays and objects follow from those of the parts by the
  rounds of the reader, for which twice the length of the text is enough.  A
  value is legible if its numbers can be written, its strings tell halves from
  characters, its keys are distinct and it nests no deeper than the reader
  goes; such a value is what its text on one line holds (`parse_write`).
-/
import PocketAsm.Proofs.Json.Strings
import PocketAsm.Proofs.Numerals

set_option autoImplicit false

namespace PocketAsm.Json

/-! ## Words -/

/-- A word is not at the front if another character is. -/
theorem after?_of_ne (word : String) {w c : Char} (hword : word.toList.head? = some w) (hne : w ≠ c)
    (ps : List CodePoint) : after? word (.char c :: ps) = none := by
  obtain ⟨ws, hws⟩ := List.head?_eq_some_iff.mp hword
  simp [after?, WideText.ofString, hws, hne]

/-- The characters that words begin with. -/
def wordStarts : List Char := ['n', 't', 'f', 'N', 'I']

/-- Without a word at the front there is a number or nothing. -/
theorem word?_eq_number? {c : Char} (h : c ∉ wordStarts) (ps : List CodePoint) :
    word? (.char c :: ps) = number? (.char c :: ps) := by
  simp only [wordStarts, List.mem_cons, List.not_mem_nil, or_false, not_or] at h
  obtain ⟨hn, ht, hf, hN, hI⟩ := h
  simp only [word?, after?_of_ne "null" rfl (Ne.symm hn),
    after?_of_ne "true" rfl (Ne.symm ht), after?_of_ne "false" rfl (Ne.symm hf),
    after?_of_ne "NaN" rfl (Ne.symm hN),
    after?_of_ne "Infinity" rfl (Ne.symm hI)]

theorem number?_eq_numeral? {c : Char} (h : c ≠ '-') (ps : List CodePoint) :
    number? (.char c :: ps) = numeral? false (.char c :: ps) := by
  simp [number?, h]

/-! ## Numerals -/

/-- The character goes on a numeral that has begun. -/
def isNumeric (c : Char) : Bool := c.isDigit || c == '.' || c == 'e' || c == 'E'

/-- A text at whose front a numeral is over. -/
def Stops (rest : List CodePoint) : Prop := ∀ p ∈ rest.head?, p.isIn isNumeric = false

theorem stops_nil : Stops [] := by simp [Stops]

theorem stops_char {c : Char} (h : isNumeric c = false) (ps : List CodePoint) :
    Stops (.char c :: ps) := by
  intro p hp
  obtain rfl : CodePoint.char c = p := by simpa using hp
  exact h

theorem spanDigits_append (ds : List Char) (hds : ∀ d ∈ ds, d.isDigit = true)
    {rest : List CodePoint} (hrest : Stops rest) :
    spanDigits (ds.map .char ++ rest) = (ds, rest) := by
  have hdigits : ∀ p ∈ ds.map CodePoint.char, p.isIn Char.isDigit = true := by
    intro p hp
    obtain ⟨d, hd, rfl⟩ := List.mem_map.mp hp
    exact hds d hd
  have hstop : ∀ p ∈ rest.head?, p.isIn Char.isDigit = false := by
    intro p hp
    have := hrest p hp
    cases p with
    | half => rfl
    | char c => simp_all [CodePoint.isIn, isNumeric]
  have htake : rest.takeWhile (·.isIn Char.isDigit) = [] := by
    cases rest with
    | nil => rfl
    | cons p ps => simp [hstop p rfl]
  have hdrop : rest.dropWhile (·.isIn Char.isDigit) = rest := by
    cases rest with
    | nil => rfl
    | cons p ps => simp [hstop p rfl]
  have hchars : (ds.map CodePoint.char).filterMap CodePoint.char? = ds := by
    simp [List.filterMap_map, Function.comp_def, CodePoint.char?]
  rw [spanDigits, List.takeWhile_append_of_pos hdigits, List.dropWhile_append_of_pos hdigits,
    htake, hdrop, List.append_nil, hchars]

theorem fraction_of_stops {rest : List CodePoint} (h : Stops rest) :
    fraction rest = ([], rest) := by
  cases rest with
  | nil => rfl
  | cons p ps =>
    have hp := h p rfl
    cases p with
    | half => rfl
    | char c =>
      have hc : c ≠ '.' := by
        rintro rfl
        simp [CodePoint.isIn, isNumeric] at hp
      simp [fraction, hc]

theorem exponent?_of_stops {rest : List CodePoint} (h : Stops rest) : exponent? rest = none := by
  cases rest with
  | nil => rfl
  | cons p ps =>
    have hp := h p rfl
    rw [exponent?, if_neg]
    rintro (rfl | rfl) <;> simp [CodePoint.isIn, isNumeric] at hp

/-! ### The digits of a number -/

theorem digitsValue_toDigits (n : Nat) : digitsValue (Nat.toDigits 10 n) = n := by
  have hfold : digitsValue (Nat.toDigits 10 n) = Nat.ofDigitChars 10 (Nat.toDigits 10 n) 0 := by
    rw [Nat.ofDigitChars_eq_foldl, digitsValue]
    congr 1
    funext acc d
    rw [Nat.mul_comm]
    rfl
  rw [hfold, Nat.ofDigitChars_ten_toDigits]

theorem integral?_toDigits (n : Nat) {rest : List CodePoint} (hrest : Stops rest) :
    integral? ((Nat.toDigits 10 n).map .char ++ rest) = some (Nat.toDigits 10 n, rest) := by
  have hspan := spanDigits_append (Nat.toDigits 10 n)
    (fun d hd => Nat.isDigit_of_mem_toDigits (by decide) (by decide) hd) hrest
  obtain ⟨d, ds, hds⟩ := List.exists_cons_of_ne_nil (Nat.toDigits_ne_nil (n := n) (b := 10))
  by_cases hzero : n = 0
  · subst hzero
    rw [Nat.toDigits_zero] at hspan ⊢
    simp only [integral?, hspan]
    rfl
  · have hd : d ≠ '0' := by
      have := Text.head_toDigits_ne hzero
      rw [hds] at this
      simpa using this
    rw [hds] at hspan ⊢
    simp only [integral?, hspan]
    split <;> simp_all

theorem isSpace_of_isDigit {d : Char} (h : d.isDigit = true) : isSpace d = false := by
  have hne := @Text.ne_of_isDigit d h
  simp [isSpace, @hne ' ' rfl, @hne '\t' rfl, @hne '\n' rfl,
    @hne '\r' rfl]

theorem not_mem_wordStarts {d : Char} (h : d.isDigit = true) : d ∉ wordStarts := by
  have hne := @Text.ne_of_isDigit d h
  simp [wordStarts, @hne 'n' rfl, @hne 't' rfl, @hne 'f' rfl,
    @hne 'N' rfl, @hne 'I' rfl]

theorem numeral?_toDigits (negative : Bool) (n : Nat) {rest : List CodePoint}
    (hrest : Stops rest) :
    numeral? negative ((Nat.toDigits 10 n).map .char ++ rest) =
      if Text.decimalBound ≤ n then none
      else some (.int (Binary64.signed negative n), rest) := by
  simp only [numeral?, integral?_toDigits n hrest, fraction_of_stops hrest,
    exponent?_of_stops hrest, Text.isOverlong_toDigits, digitsValue_toDigits, decide_eq_true_eq]

/-! ## Values -/

/-- The text of a value, with anything behind it that stops a numeral, is read as the value. -/
structure Reads (levels : Nat) (v : Json) (cs : List Char) : Prop where
  /-- it begins neither with white space nor with the end of an array -/
  begins : ∃ c rest, cs = c :: rest ∧ isSpace c = false ∧ c ≠ ']'
  read : ∀ (fuel : Nat) (rest : List CodePoint), 2 * cs.length ≤ fuel → Stops rest →
    value fuel levels (cs.map .char ++ rest) = .ok (v, rest)

/-- Without a string, an array or an object at the front there is a word or nothing. -/
theorem value_eq_word? {c : Char} (hc : c ≠ '\x22' ∧ c ≠ '[' ∧ c ≠ '\x7b') (fuel levels : Nat)
    (ps : List CodePoint) :
    value (fuel + 1) levels (.char c :: ps) = orMalformed (word? (.char c :: ps)) := by
  obtain ⟨hquote, hbracket, hbrace⟩ := hc
  simp [value, hquote, hbracket, hbrace]

section Scalars

variable (levels : Nat)

/-- A text that is one of the words is read as the value that the word stands for. -/
theorem reads_of_word? {c : Char} {cs : List Char} {v : Json}
    (hc : isSpace c = false ∧ c ≠ ']' ∧ c ≠ '\x22' ∧ c ≠ '[' ∧ c ≠ '\x7b')
    (hword : ∀ rest, Stops rest → word? ((c :: cs).map .char ++ rest) = some (v, rest)) :
    Reads levels v (c :: cs) where
  begins := ⟨c, cs, rfl, hc.1, hc.2.1⟩
  read fuel rest hfuel hrest := by
    obtain ⟨fuel, rfl⟩ : ∃ k, fuel = k + 1 := ⟨fuel - 1, by rw [List.length_cons] at hfuel; omega⟩
    have hvalue := value_eq_word? hc.2.2 fuel levels (cs.map .char ++ rest)
    have hwhole := hword rest hrest
    rw [List.map_cons, List.cons_append] at hwhole ⊢
    rw [hvalue, hwhole]
    rfl

theorem reads_null : Reads levels .null ['n', 'u', 'l', 'l'] :=
  reads_of_word? levels (by decide) fun rest _ => rfl

theorem reads_bool (b : Bool) : Reads levels (.bool b) (write (.bool b)).toList := by
  cases b
  · exact reads_of_word? levels (by decide) fun rest _ => rfl
  · exact reads_of_word? levels (by decide) fun rest _ => rfl

theorem reads_int {n : Int} (h : Text.isWritable n = true) :
    Reads levels (.int n) (toString n).toList := by
  have hbound : n.natAbs < Text.decimalBound := by simpa [Text.isWritable] using h
  obtain ⟨d, ds, hds, hdigit⟩ := Text.exists_digit_cons n.natAbs
  have hne := @Text.ne_of_isDigit d hdigit
  have hnumeral (negative : Bool) {rest : List CodePoint} (hrest : Stops rest) :
      numeral? negative ((d :: ds).map .char ++ rest) =
        some (.int (Binary64.signed negative n.natAbs), rest) :=
    hds ▸ (numeral?_toDigits negative _ hrest).trans (if_neg (Nat.not_le.mpr hbound))
  rw [Text.toList_toString, hds]
  by_cases hn : n < 0
  · have hsigned : Binary64.signed true n.natAbs = n := by
      rw [Binary64.signed, if_pos rfl]
      omega
    have hinfinity (ps : List CodePoint) : after? "Infinity" (.char d :: ps) = none :=
      after?_of_ne "Infinity" rfl (hne rfl).symm _
    rw [if_pos hn]
    refine reads_of_word? levels (by decide) fun rest hrest => ?_
    have hwhole := hnumeral true hrest
    rw [List.map_cons, List.cons_append, word?_eq_number? (by decide)]
    rw [hsigned, List.map_cons, List.cons_append] at hwhole
    simp only [List.map_cons, List.cons_append, number?, hinfinity, hwhole]
  · have hsigned : Binary64.signed false n.natAbs = n := by
      rw [Binary64.signed, if_neg (by decide)]
      omega
    rw [if_neg hn]
    refine reads_of_word? levels ⟨isSpace_of_isDigit hdigit, hne rfl, hne rfl, hne rfl, hne rfl⟩
      fun rest hrest => ?_
    have hwhole := hnumeral false hrest
    rw [hsigned, List.map_cons, List.cons_append] at hwhole
    rw [List.map_cons, List.cons_append, word?_eq_number? (not_mem_wordStarts hdigit),
      number?_eq_numeral? (hne rfl), hwhole]

/-- A numeral with more digits than are read is no value. -/
theorem value_toDigits_of_le {n : Nat} (h : Text.decimalBound ≤ n) (fuel : Nat)
    {rest : List CodePoint} (hrest : Stops rest) :
    value fuel levels ((Nat.toDigits 10 n).map .char ++ rest) = .error .malformed := by
  cases fuel with
  | zero => rfl
  | succ fuel =>
    have hnumeral := (numeral?_toDigits false n hrest).trans (if_pos h)
    obtain ⟨d, ds, hds, hdigit⟩ := Text.exists_digit_cons n
    rw [hds, List.map_cons, List.cons_append] at hnumeral ⊢
    have hne := @Text.ne_of_isDigit d hdigit
    rw [value_eq_word? ⟨hne rfl, hne rfl, hne rfl⟩, word?_eq_number? (not_mem_wordStarts hdigit),
      number?_eq_numeral? (hne rfl), hnumeral]
    rfl

theorem reads_str {t : WideText} (h : t.IsApart) : Reads levels (.str t) (quote t).toList where
  begins := ⟨'\x22', _, by rw [quote, String.toList_ofList]; rfl, by decide, by decide⟩
  read fuel rest hfuel _ := by
    obtain ⟨fuel, rfl⟩ : ∃ k, fuel = k + 1 :=
      ⟨fuel - 1, by rw [quote, String.toList_ofList] at hfuel; simp at hfuel; omega⟩
    have hread := quoted?_escaped h rest
    rw [quote, String.toList_ofList]
    simp [value, hread, orMalformed]

end Scalars

/-! ## Arrays and objects -/

theorem skipSpace_of_not_space {c : Char} (h : isSpace c = false) (ps : List CodePoint) :
    skipSpace (.char c :: ps) = .char c :: ps := by
  simp [skipSpace, CodePoint.isIn, h]

/-- White space, perhaps none. -/
def IsGap (cs : List Char) : Prop := ∀ c ∈ cs, isSpace c = true

theorem isGap_nil : IsGap [] := nofun

theorem isGap_blank : IsGap [' '] := List.forall_mem_singleton.mpr rfl

section Gaps

variable {gap : List Char} (hgap : IsGap gap)

include hgap

theorem skipSpace_gap (ps : List CodePoint) : skipSpace (gap.map .char ++ ps) = skipSpace ps := by
  refine List.dropWhile_append_of_pos fun p hp => ?_
  obtain ⟨c, hc, rfl⟩ := List.mem_map.mp hp
  exact hgap c hc

theorem stops_gap {ps : List CodePoint} (hps : Stops ps) : Stops (gap.map .char ++ ps) := by
  cases gap with
  | nil => exact hps
  | cons c gap =>
    refine stops_char ?_ _
    have hspace := hgap c List.mem_cons_self
    simp only [isSpace, Bool.or_eq_true, beq_iff_eq] at hspace
    rcases hspace with ((rfl | rfl) | rfl) | rfl <;> decide

/-- White space before a value leads on to it. -/
theorem Reads.skipSpace {levels : Nat} {v : Json} {cs : List Char} (h : Reads levels v cs)
    (rest : List CodePoint) :
    skipSpace (gap.map .char ++ (cs.map .char ++ rest)) = cs.map .char ++ rest := by
  obtain ⟨c, cs, rfl, hc, -⟩ := h.begins
  rw [skipSpace_gap hgap]
  exact skipSpace_of_not_space hc _

end Gaps

/-- The first of several texts stands at the front, and a separator before each other one. -/
theorem intercalate_cons (separator first : List Char) (others : List (List Char)) :
    separator.intercalate (first :: others) = first ++ others.flatMap (separator ++ ·) := by
  induction others generalizing first with
  | nil => simp
  | cons second others ih => rw [List.intercalate_cons_cons, ih]; simp

/-- The texts of items are read one after the other, whatever white space follows the commas and
the last item. -/
theorem items_of_reads {gap closing : List Char} (hgap : IsGap gap) (hclosing : IsGap closing)
    {levels : Nat} {vs : List Json} {texts : List (List Char)}
    (h : List.Forall₂ (Reads levels) vs texts) {v : Json} {cs : List Char}
    (hv : Reads levels v cs) (fuel : Nat) (acc : List Json) (rest : List CodePoint)
    (hfuel : 2 * (cs ++ texts.flatMap (',' :: gap ++ ·)).length + 1 ≤ fuel) :
    items fuel levels acc ((cs ++ texts.flatMap (',' :: gap ++ ·)).map .char ++
        (closing.map .char ++ .char ']' :: rest)) =
      .ok (.arr (acc.reverse ++ v :: vs), rest) := by
  induction h generalizing v cs fuel acc with
  | nil =>
    obtain ⟨fuel, rfl⟩ : ∃ k, fuel = k + 1 := ⟨fuel - 1, by omega⟩
    rw [List.flatMap_nil, List.append_nil] at hfuel ⊢
    have hread := hv.read fuel (closing.map .char ++ .char ']' :: rest) (by omega)
      (stops_gap hclosing (stops_char rfl _))
    simp [items, hread, skipSpace_gap hclosing, skipSpace_of_not_space (c := ']') rfl]
  | @cons w ds vs texts hw hvs ih =>
    obtain ⟨fuel, rfl⟩ : ∃ k, fuel = k + 1 := ⟨fuel - 1, by omega⟩
    rw [List.flatMap_cons, List.append_assoc, List.length_append, List.length_append] at hfuel
    have hnext := ih hw fuel (v :: acc) (by rw [List.length_cons] at hfuel; omega)
    let others := texts.flatMap (',' :: gap ++ ·)
    let behind := closing.map CodePoint.char ++ .char ']' :: rest
    have htext : (cs ++ (ds :: texts).flatMap (',' :: gap ++ ·)).map CodePoint.char ++ behind =
        cs.map .char ++ CodePoint.char ',' ::
          (gap.map .char ++ (ds.map .char ++ (others.map .char ++ behind))) := by
      simp [others]
    have hread := hv.read fuel (.char ',' ::
      (gap.map .char ++ (ds.map .char ++ (others.map .char ++ behind)))) (by omega)
      (stops_char rfl _)
    rw [htext, items, hread]
    simp only [skipSpace_of_not_space (c := ',') rfl, hw.skipSpace hgap]
    rw [← List.append_assoc, ← List.map_append, hnext]
    simp

theorem value_arr {c : Char} {ps qs : List CodePoint} (h : skipSpace ps = .char c :: qs)
    (hend : c ≠ ']') (fuel levels : Nat) :
    value (fuel + 1) (levels + 1) (.char '[' :: ps) = items fuel levels [] (.char c :: qs) := by
  simp [value, h, hend]

theorem items_of_error {fuel levels : Nat} {ps : List CodePoint} {e : JsonFault}
    (h : value fuel levels ps = .error e) (acc : List Json) :
    items (fuel + 1) levels acc ps = .error e := by
  rw [items, h]

/-- The texts of items between brackets, with white space inside of these. -/
theorem reads_arr {opening gap closing : List Char} (hopening : IsGap opening) (hgap : IsGap gap)
    (hclosing : IsGap closing) {levels : Nat} {vs : List Json} {texts : List (List Char)}
    (h : List.Forall₂ (Reads levels) vs texts) :
    Reads (levels + 1) (.arr vs)
      ('[' :: (opening ++ ((',' :: gap).intercalate texts ++ (closing ++ [']'])))) where
  begins := ⟨'[', _, rfl, by decide, by decide⟩
  read fuel rest hfuel _ := by
    obtain ⟨fuel, rfl⟩ : ∃ k, fuel = k + 1 := ⟨fuel - 1, by rw [List.length_cons] at hfuel; omega⟩
    have hend : skipSpace (closing.map .char ++ .char ']' :: rest) = .char ']' :: rest := by
      rw [skipSpace_gap hclosing, skipSpace_of_not_space rfl]
    cases h with
    | nil =>
      have htext : ('[' :: (opening ++ ((',' :: gap).intercalate [] ++ (closing ++ [']'])))).map
          CodePoint.char ++ rest =
          .char '[' :: (opening.map .char ++ (closing.map .char ++ .char ']' :: rest)) := by
        simp
      rw [htext]
      simp [value, skipSpace_gap hopening, hend]
    | @cons v cs vs texts hv hvs =>
      rw [intercalate_cons] at hfuel ⊢
      rw [List.length_cons, List.length_append, List.length_append] at hfuel
      have hitems := items_of_reads hgap hclosing hvs hv fuel [] rest (by omega)
      have hskip := hv.skipSpace hopening ((texts.flatMap (',' :: gap ++ ·)).map .char ++
        (closing.map .char ++ .char ']' :: rest))
      have htext : ('[' :: (opening ++ (cs ++ texts.flatMap (',' :: gap ++ ·) ++
          (closing ++ [']'])))).map CodePoint.char ++ rest =
          .char '[' :: (opening.map .char ++ (cs.map .char ++
            ((texts.flatMap (',' :: gap ++ ·)).map .char ++
              (closing.map .char ++ .char ']' :: rest)))) := by
        simp
      obtain ⟨c, ds, rfl, -, hne⟩ := hv.begins
      rw [htext]
      rw [List.map_append, List.append_assoc] at hitems
      exact (value_arr hskip hne fuel levels).trans hitems

/-! ### Members -/

/-- A member with a new key goes to the end. -/
theorem put_of_nodup {acc ms : Members} {m : WideText × Json}
    (h : ((acc ++ m :: ms).map (·.1)).Nodup) : put m.1 m.2 acc = acc ++ [m] := by
  induction acc with
  | nil => rfl
  | cons n acc ih =>
    rw [List.cons_append, List.map_cons, List.nodup_cons] at h
    have hne : n.1 ≠ m.1 := fun heq => h.1 (by simp [heq])
    rw [put, if_neg hne, ih h.2]
    rfl

/-- The text of a member: its key, a colon, a blank and its value. -/
structure ReadsMember (levels : Nat) (m : WideText × Json) (cs : List Char) : Prop where
  isApart : m.1.IsApart
  text : ∃ ds, cs = (quote m.1).toList ++ ':' :: ' ' :: ds ∧ Reads levels m.2 ds

theorem ReadsMember.begins {levels : Nat} {m : WideText × Json} {cs : List Char}
    (h : ReadsMember levels m cs) : ∃ ds, cs = '\x22' :: ds := by
  obtain ⟨ds, rfl, -⟩ := h.text
  exact ⟨_, by rw [quote, String.toList_ofList]; rfl⟩

/-- White space before a member leads on to it. -/
theorem ReadsMember.skipSpace {levels : Nat} {m : WideText × Json} {cs gap : List Char}
    (h : ReadsMember levels m cs) (hgap : IsGap gap) (rest : List CodePoint) :
    skipSpace (gap.map .char ++ (cs.map .char ++ rest)) = cs.map .char ++ rest := by
  obtain ⟨ds, rfl⟩ := h.begins
  rw [skipSpace_gap hgap]
  rfl

/-- A member is put to those before it, and what follows says whether there are more. -/
theorem members_step {levels : Nat} {m : WideText × Json} {cs : List Char}
    (h : ReadsMember levels m cs) {fuel : Nat} (hfuel : 2 * cs.length ≤ fuel) (acc : Members)
    {rest : List CodePoint} (hrest : Stops rest) :
    members (fuel + 1) levels acc (cs.map .char ++ rest) =
      match skipSpace rest with
      | .char ',' :: rest => members fuel levels (put m.1 m.2 acc) (skipSpace rest)
      | .char '\x7d' :: rest => .ok (.obj (put m.1 m.2 acc), rest)
      | _ => .error .malformed := by
  obtain ⟨ds, rfl, hds⟩ := h.text
  have hkey := quoted?_escaped h.isApart
    (.char ':' :: .char ' ' :: (ds.map .char ++ rest))
  have hgap : skipSpace (.char ' ' :: (ds.map .char ++ rest)) = ds.map .char ++ rest :=
    hds.skipSpace isGap_blank rest
  have hvalue := hds.read fuel rest (by
    simp only [List.length_append, List.length_cons] at hfuel
    omega) hrest
  have htext : ((quote m.1).toList ++ ':' :: ' ' :: ds).map CodePoint.char ++ rest =
      CodePoint.char '\x22' :: ((m.1.points.flatMap escapePoint).map .char ++
        CodePoint.char '\x22' :: (CodePoint.char ':' :: CodePoint.char ' ' ::
          (ds.map .char ++ rest))) := by
    simp [quote]
  rw [htext]
  generalize hresult : members (fuel + 1) levels acc _ = result
  rw [members, hkey] at hresult
  simp only [skipSpace_of_not_space (c := ':') rfl, hgap, hvalue] at hresult
  exact hresult.symm

/-- The texts of members with distinct keys are read one after the other, whatever white space
follows the commas and the last member. -/
theorem members_of_reads {gap closing : List Char} (hgap : IsGap gap) (hclosing : IsGap closing)
    {levels : Nat} {ms : Members} {texts : List (List Char)}
    (h : List.Forall₂ (ReadsMember levels) ms texts) {m : WideText × Json} {cs : List Char}
    (hm : ReadsMember levels m cs) (fuel : Nat) (acc : Members) (rest : List CodePoint)
    (hkeys : ((acc ++ m :: ms).map (·.1)).Nodup)
    (hfuel : 2 * (cs ++ texts.flatMap (',' :: gap ++ ·)).length + 1 ≤ fuel) :
    members fuel levels acc ((cs ++ texts.flatMap (',' :: gap ++ ·)).map .char ++
        (closing.map .char ++ .char '\x7d' :: rest)) =
      .ok (.obj (acc ++ m :: ms), rest) := by
  induction h generalizing m cs fuel acc with
  | nil =>
    obtain ⟨fuel, rfl⟩ : ∃ k, fuel = k + 1 := ⟨fuel - 1, by omega⟩
    rw [List.flatMap_nil, List.append_nil] at hfuel ⊢
    rw [members_step hm (by omega) acc (stops_gap hclosing (stops_char rfl rest)),
      skipSpace_gap hclosing, skipSpace_of_not_space (c := '\x7d') rfl, put_of_nodup hkeys]
    rfl
  | @cons n ds ms texts hn hms ih =>
    obtain ⟨fuel, rfl⟩ : ∃ k, fuel = k + 1 := ⟨fuel - 1, by omega⟩
    rw [List.flatMap_cons, List.append_assoc, List.length_append, List.length_append] at hfuel
    have hkeys' : ((acc ++ [m] ++ n :: ms).map (·.1)).Nodup := by
      rwa [List.append_assoc, List.singleton_append]
    have hnext := ih hn fuel (acc ++ [m]) hkeys' (by rw [List.length_cons] at hfuel; omega)
    let others := texts.flatMap (',' :: gap ++ ·)
    let behind := closing.map CodePoint.char ++ .char '\x7d' :: rest
    have htext : (cs ++ (ds :: texts).flatMap (',' :: gap ++ ·)).map CodePoint.char ++ behind =
        cs.map .char ++ CodePoint.char ',' ::
          (gap.map .char ++ (ds.map .char ++ (others.map .char ++ behind))) := by
      simp [others]
    rw [htext, members_step hm (by omega) acc (stops_char rfl _), put_of_nodup hkeys,
      skipSpace_of_not_space (c := ',') rfl]
    simp only [hn.skipSpace hgap]
    rw [← List.append_assoc, ← List.map_append, hnext, List.append_assoc, List.singleton_append]

/-- A brace before a member opens an object. -/
theorem value_obj {ds : List CodePoint} {ps : List CodePoint}
    (h : skipSpace ps = .char '\x22' :: ds) (fuel levels : Nat) :
    value (fuel + 1) (levels + 1) (.char '\x7b' :: ps) =
      members fuel levels [] (.char '\x22' :: ds) := by
  simp [value, h]

/-- The texts of members between braces, with white space inside of these. -/
theorem reads_obj {opening gap closing : List Char} (hopening : IsGap opening) (hgap : IsGap gap)
    (hclosing : IsGap closing) {levels : Nat} {ms : Members} {texts : List (List Char)}
    (h : List.Forall₂ (ReadsMember levels) ms texts) (hkeys : (ms.map (·.1)).Nodup) :
    Reads (levels + 1) (.obj ms)
      ('\x7b' :: (opening ++ ((',' :: gap).intercalate texts ++ (closing ++ ['\x7d'])))) where
  begins := ⟨'\x7b', _, rfl, by decide, by decide⟩
  read fuel rest hfuel _ := by
    obtain ⟨fuel, rfl⟩ : ∃ k, fuel = k + 1 := ⟨fuel - 1, by rw [List.length_cons] at hfuel; omega⟩
    have hend : skipSpace (closing.map .char ++ .char '\x7d' :: rest) = .char '\x7d' :: rest := by
      rw [skipSpace_gap hclosing, skipSpace_of_not_space rfl]
    cases h with
    | nil =>
      have htext : ('\x7b' :: (opening ++ ((',' :: gap).intercalate [] ++
          (closing ++ ['\x7d'])))).map CodePoint.char ++ rest =
          .char '\x7b' :: (opening.map .char ++ (closing.map .char ++ .char '\x7d' :: rest)) := by
        simp
      rw [htext]
      simp [value, skipSpace_gap hopening, hend]
    | @cons m cs ms texts hm hms =>
      rw [intercalate_cons] at hfuel ⊢
      rw [List.length_cons, List.length_append, List.length_append] at hfuel
      have hmembers := members_of_reads hgap hclosing hms hm fuel [] rest hkeys (by omega)
      have hskip := hm.skipSpace hopening ((texts.flatMap (',' :: gap ++ ·)).map .char ++
        (closing.map .char ++ .char '\x7d' :: rest))
      have htext : ('\x7b' :: (opening ++ (cs ++ texts.flatMap (',' :: gap ++ ·) ++
          (closing ++ ['\x7d'])))).map CodePoint.char ++ rest =
          .char '\x7b' :: (opening.map .char ++ (cs.map .char ++
            ((texts.flatMap (',' :: gap ++ ·)).map .char ++
              (closing.map .char ++ .char '\x7d' :: rest)))) := by
        simp
      obtain ⟨ds, rfl⟩ := hm.begins
      rw [htext]
      rw [List.map_append, List.append_assoc] at hmembers
      exact (value_obj hskip fuel levels).trans hmembers

/-! ## Legible values -/

/-- The text of the value on one line holds it, if so many arrays and objects may stand inside one
another. -/
inductive Legible : Nat → Json → Prop where
  | null {levels : Nat} : Legible levels .null
  | bool {levels : Nat} (b : Bool) : Legible levels (.bool b)
  | int {levels : Nat} {n : Int} (hn : Text.isWritable n = true) : Legible levels (.int n)
  | str {levels : Nat} {t : WideText} (ht : t.IsApart) : Legible levels (.str t)
  | arr {levels : Nat} {vs : List Json} (hvs : ∀ v ∈ vs, Legible levels v) :
      Legible (levels + 1) (.arr vs)
  | obj {levels : Nat} {ms : Members} (hkeys : (ms.map (·.1)).Nodup)
      (hapart : ∀ m ∈ ms, m.1.IsApart) (hms : ∀ m ∈ ms, Legible levels m.2) :
      Legible (levels + 1) (.obj ms)

theorem writeItems_eq_map (vs : List Json) : writeItems vs = vs.map write := by
  induction vs with
  | nil => rfl
  | cons v vs ih => rw [writeItems, ih]; rfl

theorem writeMembers_eq_map (ms : Members) :
    writeMembers ms = ms.map fun m => quote m.1 ++ ": " ++ write m.2 := by
  induction ms with
  | nil => rfl
  | cons m ms ih => rw [writeMembers, ih]; rfl

theorem toList_write_arr (vs : List Json) : (write (.arr vs)).toList =
    '[' :: ([',', ' '].intercalate (vs.map fun v => (write v).toList) ++ [']']) := by
  rw [write, writeItems_eq_map]
  simp [String.toList_intercalate, Function.comp_def]

theorem toList_write_obj (ms : Members) : (write (.obj ms)).toList =
    '\x7b' :: ([',', ' '].intercalate (ms.map fun m =>
      (quote m.1).toList ++ ':' :: ' ' :: (write m.2).toList) ++ ['\x7d']) := by
  rw [write, writeMembers_eq_map]
  simp [String.toList_intercalate, Function.comp_def]

/-- Legible values are read off their texts. -/
theorem Legible.reads_write {levels : Nat} {v : Json} (h : Legible levels v) :
    Reads levels v (write v).toList := by
  induction h with
  | null => exact reads_null _
  | bool b => exact reads_bool _ b
  | int hn => exact reads_int _ hn
  | str ht => exact reads_str _ ht
  | @arr levels vs hvs ih =>
    rw [toList_write_arr]
    refine reads_arr isGap_nil isGap_blank isGap_nil ?_
    rw [List.forall₂_map_right_iff, List.forall₂_same]
    exact ih
  | @obj levels ms hkeys hapart hms ih =>
    rw [toList_write_obj]
    refine reads_obj isGap_nil isGap_blank isGap_nil ?_ hkeys
    rw [List.forall₂_map_right_iff, List.forall₂_same]
    exact fun m hm => ⟨hapart m hm, _, rfl, ih m hm⟩

/-- A value that is read off a text is the one that the text holds, whatever white space
follows. -/
theorem parse_of_reads {v : Json} {text : String} (h : Reads maxDepth v text.toList) (gap : String)
    (hgap : IsGap gap.toList) : parse (.ofString (text ++ gap)) = .ok v := by
  have hpoints : (WideText.ofString (text ++ gap)).points =
      text.toList.map .char ++ gap.toList.map .char := by
    simp [WideText.ofString]
  have hstart := h.skipSpace isGap_nil (gap.toList.map .char)
  have hstops : Stops (gap.toList.map .char) := by
    simpa using stops_gap hgap stops_nil
  have hend : skipSpace (gap.toList.map .char) = [] := by
    rw [← List.append_nil (gap.toList.map _), skipSpace_gap hgap]
    rfl
  have hvalue := h.read (2 * (WideText.ofString (text ++ gap)).points.length + 2) _
    (by rw [hpoints, List.length_append, List.length_map]; omega) hstops
  rw [parse]
  rw [hpoints] at hvalue ⊢
  rw [List.map_nil, List.nil_append] at hstart
  rw [hstart, hvalue]
  simp only [hend, List.isEmpty_nil, if_true]

/-- A legible value is the one that its text on one line holds, whatever white space follows. -/
theorem parse_write_append {v : Json} (h : Legible maxDepth v) (gap : String)
    (hgap : IsGap gap.toList) : parse (.ofString (write v ++ gap)) = .ok v :=
  parse_of_reads h.reads_write gap hgap

/-- A legible value is the one that its text on one line holds. -/
theorem parse_write {v : Json} (h : Legible maxDepth v) : parse (.ofString (write v)) = .ok v := by
  simpa using parse_write_append h "" isGap_nil

/-! ## One line -/

theorem int_inline (n : Int) : IsInline (toString n) := by
  have hdigit : ∀ c ∈ Nat.toDigits 10 n.natAbs, 32 ≤ c.toNat ∧ c.toNat ≤ 126 := by
    intro c hc
    have hc := Nat.isDigit_of_mem_toDigits (by decide) (by decide) hc
    rw [Char.isDigit_iff_toNat] at hc
    exact ⟨Nat.le_trans (by decide) hc.1, Nat.le_trans hc.2 (by decide)⟩
  intro c hc
  rw [Text.toList_toString] at hc
  split at hc
  · rw [List.mem_cons] at hc
    rcases hc with rfl | hc
    · decide
    · exact hdigit c hc
  · exact hdigit c hc

/-- What the characters of texts and of a separator have in common, those of the joined text
have. -/
theorem forall_mem_intercalate {P : Char → Prop} {separator : List Char}
    (hseparator : ∀ c ∈ separator, P c) (texts : List (List Char))
    (h : ∀ cs ∈ texts, ∀ c ∈ cs, P c) : ∀ c ∈ separator.intercalate texts, P c := by
  cases texts with
  | nil => exact fun c hc => nomatch hc
  | cons cs texts =>
    obtain ⟨hcs, htexts⟩ := List.forall_mem_cons.mp h
    rw [intercalate_cons, List.forall_mem_append]
    refine ⟨hcs, fun c hc => ?_⟩
    obtain ⟨ds, hds, hc⟩ := List.mem_flatMap.mp hc
    exact (List.mem_append.mp hc).elim (hseparator c) (htexts ds hds c)

theorem write_obj_inline {ms : Members} (h : ∀ m ∈ ms, IsInline (write m.2)) :
    IsInline (write (.obj ms)) := by
  have hseparator : ∀ c ∈ [',', ' '], 32 ≤ c.toNat ∧ c.toNat ≤ 126 :=
    List.forall_mem_cons.mpr ⟨by decide, List.forall_mem_singleton.mpr (by decide)⟩
  have hmembers := forall_mem_intercalate hseparator
    (ms.map fun m => (quote m.1).toList ++ ':' :: ' ' :: (write m.2).toList) (by
      intro cs hcs c hc
      obtain ⟨m, hm, rfl⟩ := List.mem_map.mp hcs
      rw [List.mem_append, List.mem_cons, List.mem_cons] at hc
      rcases hc with hc | rfl | rfl | hc
      · exact quote_inline m.1 c hc
      · decide
      · decide
      · exact h m hm c hc)
  intro c hc
  rw [toList_write_obj, List.mem_cons, List.mem_append, List.mem_singleton] at hc
  rcases hc with rfl | hc | rfl
  · decide
  · exact hmembers c hc
  · decide

end PocketAsm.Json
